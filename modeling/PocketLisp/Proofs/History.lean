import PocketLisp.Proofs.Interruptions
import PocketLisp.Proofs.Redefinition

/-!
# The history of definitions

A journal that is kept shows every procedure that is defined, one after the other, from the first
one on. This history tells all about the registry: the number of a procedure is its place there, and
a name stands for the last procedure of that name. It grows by the procedures that definitions make
in the course of evaluations, wherever these are found, and by nothing else.
-/

namespace PocketLisp

open Evaluation

/-- The procedure that the event shows as defined. -/
def Event.definition? : Event → Option (Procedure Value)
  | .defining p => some p
  | _ => none

namespace Journal

/-- The procedures defined so far, the oldest first. -/
def definitions (j : Journal) : List (Procedure Value) :=
  j.events.toList.filterMap Event.definition?

/-- The procedure stems from the execution at the place `k` of the history, the first one being
at 0. -/
def Stems (j : Journal) (p : Procedure Value) (k : Nat) : Prop :=
  j.definitions[k]? = some p

theorem mem_definitions {j : Journal} {p : Procedure Value} :
    p ∈ j.definitions ↔ .defining p ∈ j.events := by
  rw [definitions, List.mem_filterMap, ← Array.mem_toList_iff]
  constructor
  · intro h
    obtain ⟨e, he, hp⟩ := h
    cases e with
    | defining q =>
        cases hp
        exact he
    | _ => cases hp
  · intro h
    exact ⟨_, h, rfl⟩

theorem definitions_note (j : Journal) {e : Event} (he : e.isDefinition = false) :
    (j.record e).definitions = j.definitions := by
  have hnone : e.definition? = none := by
    cases e with
    | defining p => cases he
    | _ => rfl
  unfold record
  split
  · simp [definitions, hnone]
  · rfl

theorem definitions_defining {j : Journal} (h : j.kept = true) (p : Procedure Value) :
    (j.record (.defining p)).definitions = j.definitions ++ [p] := by
  simp [record, h, definitions, Event.definition?]

theorem definitions_grow (j : Journal) (e : Event) :
    j.definitions <+: (j.record e).definitions := by
  unfold record
  split
  · simp only [definitions, Array.toList_push, List.filterMap_append]
    exact List.prefix_append _ _
  · exact List.prefix_rfl

theorem kept_record (j : Journal) (e : Event) : (j.record e).kept = j.kept := by
  unfold record
  split <;> rfl

end Journal

/-- A journal that is kept stays one. -/
theorem effects_keeping : Effects fun m m' => m'.journal.kept = m.journal.kept where
  refl _ := rfl
  trans h h' := h'.trans h
  record := Machine.kept_record
  set _ _ _ := rfl
  define _ _ _ _ := rfl
  print _ _ _ := rfl
  frame h := h

theorem Machine.Precedes.definitions {m m' : Machine} (h : m.Precedes m') :
    m.journal.definitions <+: m'.journal.definitions :=
  List.IsPrefix.filterMap _ h

/-- The journal shows every definition that was made: its number is its place there, and a name
stands for the last one that has it. -/
structure Accounted (r : Registry) (j : Journal) : Prop where
  kept : j.kept = true
  numbered : j.definitions.map (·.id) = List.range r.made
  current : ∀ name, r.get? name = (j.definitions.filter (·.name = name)).getLast?

theorem lasting_accounted (P : Limits → Prop) : Lasting P Accounted where
  note {r j} e he h := by
    refine ⟨(j.kept_record e).trans h.kept, ?_, ?_⟩
    · rw [j.definitions_note he, h.numbered]
    · rw [j.definitions_note he]
      exact h.current
  define {limits r j} name parameters body _ _ h := by
    refine ⟨(j.kept_record _).trans h.kept, ?_, ?_⟩
    · rw [Journal.definitions_defining h.kept, List.map_append, h.numbered]
      exact List.range_succ.symm
    · intro other
      rw [Journal.definitions_defining h.kept, List.filter_append, Registry.get?_define]
      by_cases hname : other = name
      · subst hname
        simp [Registry.fresh]
      · have hne : name ≠ other := fun heq => hname heq.symm
        simp [Registry.fresh, hname, hne, h.current]

theorem lasting_definitions (P : Limits → Prop) (earlier : List (Procedure Value)) :
    Lasting P fun _ j => earlier <+: j.definitions where
  note {_ j} e he h := by
    rw [j.definitions_note he]
    exact h
  define {_ r j} name parameters body _ _ h := h.trans (j.definitions_grow _)

namespace Accounted

variable {r : Registry} {j : Journal} (h : Accounted r j)

include h

/-- A procedure of the history stems from the execution that has its number. -/
theorem stems_iff {k : Nat} {p : Procedure Value} : j.Stems p k ↔ p ∈ j.definitions ∧ p.id = k := by
  have hid : ∀ {i : Nat} {q : Procedure Value}, j.Stems q i → q.id = i := by
    intro i q hq
    have hnumber : (j.definitions.map (·.id))[i]? = some q.id := by
      rw [List.getElem?_map, show j.definitions[i]? = some q from hq]
      rfl
    rw [h.numbered] at hnumber
    obtain ⟨hi, hvalue⟩ := List.getElem?_eq_some_iff.mp hnumber
    rw [← hvalue, List.getElem_range]
  constructor
  · intro hp
    exact ⟨List.mem_of_getElem? hp, hid hp⟩
  · intro hp
    obtain ⟨i, hi⟩ := List.mem_iff_getElem?.mp hp.1
    rw [← hp.2, hid hi]
    exact hi

theorem existsUnique_stems {p : Procedure Value} (hp : p ∈ j.definitions) : ∃! k, j.Stems p k := by
  refine ⟨p.id, h.stems_iff.mpr ⟨hp, rfl⟩, ?_⟩
  intro k hk
  exact (h.stems_iff.mp hk).2.symm

theorem id_eq_iff {p q : Procedure Value} (hp : p ∈ j.definitions) (hq : q ∈ j.definitions) :
    p.id = q.id ↔ ∃ k, j.Stems p k ∧ j.Stems q k := by
  constructor
  · intro hid
    exact ⟨p.id, h.stems_iff.mpr ⟨hp, rfl⟩, h.stems_iff.mpr ⟨hq, hid.symm⟩⟩
  · intro hstems
    obtain ⟨k, hp, hq⟩ := hstems
    rw [(h.stems_iff.mp hp).2, (h.stems_iff.mp hq).2]

/-- What is defined later has another number. -/
theorem id_ne_of_later {earlier new : List (Procedure Value)}
    (hnew : j.definitions = earlier ++ new) {p q : Procedure Value} (hp : p ∈ earlier)
    (hq : q ∈ new) : p.id ≠ q.id := by
  have hnodup : (j.definitions.map (·.id)).Nodup := by
    rw [h.numbered]
    exact List.nodup_range
  rw [hnew, List.map_append, List.nodup_append] at hnodup
  exact hnodup.2.2 p.id (List.mem_map_of_mem hp) q.id (List.mem_map_of_mem hq)

/-- A name stands for the same procedure as before exactly if it has not been defined since. -/
theorem same_iff_not_redefined {r' : Registry} {j' : Journal} (h' : Accounted r' j')
    {new : List (Procedure Value)} (hnew : j'.definitions = j.definitions ++ new) {name : Symbol}
    {p : Procedure Value} (hp : r.get? name = some p) :
    ∃ p', r'.get? name = some p' ∧ (p.id = p'.id ↔ ∀ q ∈ new, q.name ≠ name) := by
  have hlast : r'.get? name = ((new.filter (·.name = name)).getLast?).or (some p) := by
    rw [h'.current, hnew, List.filter_append, List.getLast?_append, ← h.current, hp]
  have hearlier : p ∈ j.definitions := by
    rw [h.current] at hp
    exact List.mem_of_mem_filter (List.mem_of_getLast? hp)
  cases hfound : (new.filter (·.name = name)).getLast? with
  | none =>
      rw [hfound, Option.none_or] at hlast
      refine ⟨p, hlast, iff_of_true rfl ?_⟩
      rw [List.getLast?_eq_none_iff, List.filter_eq_nil_iff] at hfound
      intro q hq hname
      exact hfound q hq (decide_eq_true hname)
  | some p' =>
      rw [hfound, Option.some_or] at hlast
      obtain ⟨hmem, hname⟩ := List.mem_filter.mp (List.mem_of_getLast? hfound)
      refine ⟨p', hlast, iff_of_false (h'.id_ne_of_later hnew hearlier hmem) ?_⟩
      intro hnone
      exact hnone p' hmem (of_decide_eq_true hname)

end Accounted

/-- The definition of the procedure begins, and it will return after the history has been extended
by the procedure and nothing else. -/
def Moment.Makes (limits : Limits) (p : Procedure Value) : Moment → Prop
  | .begins e m =>
      (∃ head, e = .list [head, .symbol p.name, .list (p.parameters.map .symbol), p.body] ∧
        keyword? head = some .define) ∧
      ∃ m', Finishes (evaluate limits · e) m (.ok (.symbol p.name)) m' ∧
        m'.journal.definitions = m.journal.definitions ++ [p]
  | _ => False

theorem Machine.definitions_begun (m : Machine) (e : Value) :
    (m.begun e).journal.definitions = m.journal.definitions :=
  (Journal.definitions_note _ rfl).trans (Journal.definitions_note _ rfl)

theorem Machine.definitions_registering {m : Machine} (h : m.journal.kept = true) (name : Symbol)
    (parameters : List Symbol) (body : Value) :
    (m.registering name parameters body).journal.definitions =
      m.journal.definitions ++ [m.registry.fresh name parameters body] := by
  unfold registering
  split
  · have hkept := (m.kept_record (.redefining name)).trans h
    exact (Journal.definitions_defining hkept _).trans
      (congrArg (· ++ _) (Journal.definitions_note _ rfl))
  · exact Journal.definitions_defining h _

/-- All that a definition can do to the history: leave it as it is and fail, or extend it by the
procedure that it makes. -/
theorem definition_history {head : Value} (hk : keyword? head = some .define) {m : Machine}
    (hkept : m.journal.kept = true) (limits : Limits) (operands : List Value) :
    (∃ fault m', evaluate limits 1 (.list (head :: operands)) m = .failed fault m' ∧
      m'.journal.definitions = m.journal.definitions) ∨
    ∃ (p : Procedure Value) (m' : Machine),
      operands = [.symbol p.name, .list (p.parameters.map .symbol), p.body] ∧
      evaluate limits 1 (.list (head :: operands)) m = .returned (.symbol p.name) m' ∧
      m'.journal.definitions = m.journal.definitions ++ [p] := by
  have hbegun := m.definitions_begun (.list (head :: operands))
  rcases definition_cases hk limits operands m with
    ⟨fault, heq⟩ | ⟨name, parameters, body, hoperands, _, heq⟩
  · exact Or.inl ⟨fault, _, heq, hbegun⟩
  · refine Or.inr ⟨m.registry.fresh name parameters body, _, hoperands, heq, ?_⟩
    have hkept' : (m.begun (.list (head :: operands))).journal.kept = true :=
      (Machine.kept_record _ _).trans ((m.kept_record _).trans hkept)
    rw [Machine.definitions_registering hkept', hbegun]
    rfl

/-- The procedure has been defined since the history was the earlier one. -/
def Journal.DefinedSince (earlier : List (Procedure Value)) (p : Procedure Value) (j : Journal) :
    Prop :=
  ∃ new, j.definitions = earlier ++ new ∧ p ∈ new

theorem Journal.definedSince_iff {earlier new : List (Procedure Value)} {j : Journal}
    (h : j.definitions = earlier ++ new) {p : Procedure Value} :
    j.DefinedSince earlier p ↔ p ∈ new := by
  constructor
  · intro hsince
    obtain ⟨new', hnew', hp⟩ := hsince
    rwa [List.append_cancel_left (h.symm.trans hnew')]
  · intro hp
    exact ⟨new, h, hp⟩

/-- What is defined in the course of an evaluation has been made there. -/
theorem comesUp_of_definedSince {limits : Limits} {e : Value} {m m' : Machine}
    {r : Except Fault Value} (hkept : m.journal.kept = true)
    (hrun : Finishes (evaluate limits · e) m r m') {p : Procedure Value}
    (hp : m'.journal.DefinedSince m.journal.definitions p) :
    ComesUp (Moment.Makes limits p) limits e m := by
  let J : Registry → Journal → Prop := fun _ j => j.kept = true ∧
    ∃ new, j.definitions = m.journal.definitions ++ new ∧ p ∉ new
  have hnote : ∀ {registry : Registry} {j : Journal} (event : Event),
      event.isDefinition = false → J registry j → J registry (j.record event) := by
    intro registry j event hevent hj
    refine ⟨(j.kept_record event).trans hj.1, ?_⟩
    rw [j.definitions_note hevent]
    exact hj.2
  have hdefine : ∀ {e' : Value} {n : Machine}, e'.IsDefinition → J n.registry n.journal →
      ¬ (Moment.begins e' n).Makes limits p → ∀ r' n',
      (evaluate limits 1 e' n).answer? = some (r', n') → J n'.registry n'.journal := by
    intro e' n he' hn hnot r' n' hanswer
    obtain ⟨hn, new, hnew, hnotin⟩ := hn
    refine ⟨(effects_keeping.evaluate limits 1 e' n r' n' hanswer).trans hn, ?_⟩
    obtain ⟨head, operands, rfl, hk⟩ := he'
    rcases definition_history hk hn limits operands with
      ⟨fault, n₁, heq, hhistory⟩ | ⟨q, n₁, rfl, heq, hhistory⟩
    · rw [heq] at hanswer
      cases hanswer
      exact ⟨new, hhistory.trans hnew, hnotin⟩
    · rw [heq] at hanswer
      cases hanswer
      refine ⟨new ++ [q], ?_, ?_⟩
      · rw [hhistory, hnew, List.append_assoc]
      · intro hmem
        rcases List.mem_append.mp hmem with hmem | hmem
        · exact hnotin hmem
        · obtain rfl := List.mem_singleton.mp hmem
          exact hnot ⟨⟨head, rfl, hk⟩, n', ⟨1, congrArg Outcome.answer? heq⟩, hhistory⟩
  apply comesUp_of_lost (J := J) (fun {registry j} => @hnote registry j) hdefine hrun
  · exact ⟨hkept, [], (List.append_nil _).symm, List.not_mem_nil⟩
  · intro hlost
    obtain ⟨_, new, hnew, hnotin⟩ := hlost
    exact hnotin ((Journal.definedSince_iff hnew).mp hp)

/-- And what is made there is defined from then on. -/
theorem definedSince_of_comesUp {limits : Limits} {e : Value} {m m' : Machine}
    {r : Except Fault Value} (hrun : Finishes (evaluate limits · e) m r m') {p : Procedure Value}
    (hmakes : ComesUp (Moment.Makes limits p) limits e m) :
    m'.journal.DefinedSince m.journal.definitions p := by
  apply hmakes.past hrun
  · intro n n' hn hprecedes
    obtain ⟨new, hnew, hp⟩ := hn
    obtain ⟨rest, hrest⟩ := hprecedes.definitions
    refine ⟨new ++ rest, ?_, List.mem_append_left _ hp⟩
    rw [← hrest, hnew, List.append_assoc]
  · intro moment hmoment hprecedes
    cases moment with
    | begins e' n =>
        obtain ⟨_, n₁, hfinishes, hhistory⟩ := hmoment
        intro r' n' hrun'
        obtain ⟨_, rfl⟩ := (steady_evaluate limits e').finishes_unique hfinishes hrun'
        obtain ⟨new, hnew⟩ := hprecedes.definitions
        refine ⟨new ++ [p], ?_, List.mem_append_right _ List.mem_cons_self⟩
        rw [hhistory, ← List.append_assoc, hnew]
        rfl
    | _ => exact hmoment.elim

end PocketLisp
