import PocketLisp.Proofs.Timeline

/-!
# The registry over whole runs

Every entry of the registry has the name that it is registered under, no entry is ever lost, and an
entry changes only where a definition of its name is evaluated and returns. Where redefinition is
not allowed, the first procedure of a name is its last, and every later definition of the name is
refused: at any depth, and also inside of that procedure. The machines spoken of are all that
evaluations lead to, those in the middle of an evaluation included. A journal, if it is kept, shows
the definitions made so far, also those of an evaluation that is still going on.
-/

namespace PocketLisp

open Evaluation

/-- What a later registry and journal have kept of earlier ones. If it is `strict`, a procedure that
has been registered is still the one that is. -/
structure Upheld (strict : Prop) (r : Registry) (j : Journal) (r' : Registry) (j' : Journal) :
    Prop where
  names : ∀ name p, r'.get? name = some p → p.name = name ∨ r.get? name = some p
  stays : ∀ name p, r.get? name = some p → ∃ p', r'.get? name = some p' ∧ (strict → p' = p)
  shown : ∀ p, .defining p ∈ j'.events → .defining p ∈ j.events ∨
    ∃ p', r'.get? p.name = some p' ∧ (strict → p' = p)

theorem Upheld.refl (strict : Prop) (r : Registry) (j : Journal) : Upheld strict r j r j where
  names _ _ hp := Or.inr hp
  stays _ p hp := ⟨p, hp, fun _ => rfl⟩
  shown _ hp := Or.inl hp

theorem Registry.get?_define (r : Registry) (name other : Symbol) (parameters : List Symbol)
    (body : Value) :
    (r.define name parameters body).get? other =
      if other = name then some (r.fresh name parameters body) else r.get? other :=
  Table.get?_insert _ _ _ _

/-- An entry stays an entry when a procedure is defined, and stays the same one if it is not
defined again. -/
theorem entry_of_define {strict : Prop} {r : Registry} {name : Symbol}
    (hrefused : strict → r.contains name = false) (parameters : List Symbol) (body : Value)
    {other : Symbol} {p : Procedure Value} (h : ∃ p', r.get? other = some p' ∧ (strict → p' = p)) :
    ∃ p', (r.define name parameters body).get? other = some p' ∧ (strict → p' = p) := by
  obtain ⟨p', hp', hsame⟩ := h
  rw [Registry.get?_define]
  by_cases heq : other = name
  · rw [if_pos heq]
    refine ⟨_, rfl, ?_⟩
    intro hstrict
    have hnone := Registry.get?_eq_none (hrefused hstrict)
    rw [← heq, hp'] at hnone
    cases hnone
  · rw [if_neg heq]
    exact ⟨p', hp', hsame⟩

theorem lasting_upheld {P : Limits → Prop} {strict : Prop}
    (hstrict : strict → ∀ limits, P limits → limits.allowRedefinition = false) (r₀ : Registry)
    (j₀ : Journal) : Lasting P (Upheld strict r₀ j₀) where
  note {r j} e he h := by
    refine ⟨h.names, h.stays, ?_⟩
    intro p hp
    rcases Journal.mem_record hp with hp | rfl
    · exact h.shown p hp
    · cases he
  define {limits r j} name parameters body hlimits hallow h := by
    have hrefused : strict → r.contains name = false := by
      intro hs
      have hno := hstrict hs limits hlimits
      cases hcontains : r.contains name with
      | false => rfl
      | true =>
          rw [hallow hcontains] at hno
          cases hno
    refine ⟨?_, ?_, ?_⟩
    · intro other p hp
      rw [Registry.get?_define] at hp
      split at hp
      · rename_i heq
        cases hp
        exact Or.inl heq.symm
      · exact h.names other p hp
    · intro other p hp
      exact entry_of_define hrefused parameters body (h.stays other p hp)
    · intro p hp
      rcases Journal.mem_record hp with hp | hp
      · exact (h.shown p hp).imp_right (entry_of_define hrefused parameters body)
      · cases hp
        right
        refine ⟨r.fresh name parameters body, ?_, fun _ => rfl⟩
        rw [Registry.get?_define]
        exact if_pos rfl

/-- The machines that evolve from a machine uphold what it has. -/
theorem Machine.Evolves.upheld {P : Limits → Prop} {m m' : Machine} (h : m.Evolves P m')
    {strict : Prop} (hstrict : strict → ∀ limits, P limits → limits.allowRedefinition = false) :
    Upheld strict m.registry m.journal m'.registry m'.journal :=
  (lasting_upheld hstrict m.registry m.journal).evolves (.refl strict _ _) h

/-- A well-formed definition of the name begins, and returns. -/
def Moment.Registers (limits : Limits) (name : Symbol) : Moment → Prop
  | .begins e m => e.IsDefinitionOf name ∧
      ∃ m', Finishes (evaluate limits · e) m (.ok (.symbol name)) m'
  | _ => False

/-- An entry that is another one after an evaluation has been defined in the course of it. -/
theorem comesUp_of_changed {limits : Limits} {e : Value} {m m' : Machine} {r : Except Fault Value}
    (hrun : Finishes (evaluate limits · e) m r m') {name : Symbol}
    (hchanged : m'.registry.get? name ≠ m.registry.get? name) :
    ComesUp (Moment.Registers limits name) limits e m := by
  let J : Registry → Journal → Prop := fun registry _ => registry.get? name = m.registry.get? name
  apply comesUp_of_lost (J := J) (fun _ _ hn => hn) _ hrun rfl hchanged
  intro e' n he' hn hnot r n' hanswer
  obtain ⟨head, operands, rfl, hk⟩ := he'
  rcases definition_cases hk limits operands n with
    ⟨fault, heq⟩ | ⟨other, parameters, body, rfl, _, heq⟩
  · rw [heq] at hanswer
    cases hanswer
    exact hn
  · have hne : name ≠ other := by
      rintro rfl
      exact hnot ⟨⟨head, parameters, body, rfl, hk⟩, _, 1, congrArg Outcome.answer? heq⟩
    rw [heq] at hanswer
    cases hanswer
    show (Machine.registering _ _ _ _).registry.get? name = _
    rw [(Machine.registering_twin _ _ _ _).registry]
    show (n.registry.define other parameters body).get? name = _
    rw [Registry.get?_define, if_neg hne]
    exact hn

/-- Whatever a definition answers, with any fuel, it leaves the environment and the sink as they
were, and the registry too if it answers with a fault. -/
theorem definition_answers {e : Value} (he : e.IsDefinition) (limits : Limits) (m : Machine) :
    ∃ r m', (∀ fuel, (evaluate limits (fuel + 1) e m).answer? = some (r, m')) ∧
      m'.environment = m.environment ∧ m'.sink = m.sink ∧
      ∀ fault, r = .error fault → m'.registry = m.registry := by
  have hfuel := evaluate_definition he limits
  obtain ⟨head, operands, rfl, hk⟩ := he
  rcases definition_cases hk limits operands m with
    ⟨fault, heq⟩ | ⟨name, parameters, body, _, _, heq⟩
  · refine ⟨.error fault, m.begun (.list (head :: operands)), ?_, rfl, rfl, fun _ _ => rfl⟩
    intro fuel
    rw [hfuel fuel, heq]
    rfl
  · have htwin := (m.begun (.list (head :: operands))).registering_twin name parameters body
    refine ⟨.ok (.symbol name), _, ?_, htwin.environment, htwin.sink, nofun⟩
    intro fuel
    rw [hfuel fuel, heq]
    rfl

/-- From an empty registry, whatever is evaluated: entries have their own names and stay, they
change only through definitions of their names that return, and a definition changes nothing else,
nor anything at all if it fails. Where redefinition is never allowed, entries stay as they are, and
a definition of a registered name is refused. -/
theorem registry_discipline {P : Limits → Prop} {start m : Machine}
    (hempty : ∀ name, start.registry.get? name = none) (h : start.Evolves P m) :
    (∀ name p, m.registry.get? name = some p → p.name = name) ∧
    (∀ m', m.Evolves P m' → ∀ name, m.registry.contains name = true →
      m'.registry.contains name = true) ∧
    (∀ p, .defining p ∈ m.journal.events → .defining p ∈ start.journal.events ∨
      m.registry.contains p.name = true) ∧
    (∀ limits e r m' name, Finishes (evaluate limits · e) m r m' →
      m'.registry.get? name ≠ m.registry.get? name →
      ComesUp (Moment.Registers limits name) limits e m) ∧
    (∀ limits (e : Value), e.IsDefinition →
      (∃ r m', (∀ fuel, (evaluate limits (fuel + 1) e m).answer? = some (r, m')) ∧
        m'.environment = m.environment ∧ m'.sink = m.sink ∧
        ∀ fault, r = .error fault → m'.registry = m.registry) ∧
      ∀ e' n, ComesUp (· = .begins e' n) limits e m → e' = e ∧ n = m) ∧
    ((∀ limits, P limits → limits.allowRedefinition = false) →
      (∀ p, .defining p ∈ m.journal.events → .defining p ∈ start.journal.events ∨
        m.registry.get? p.name = some p) ∧
      ∀ m', m.Evolves P m' → ∀ name p, m.registry.get? name = some p →
        m'.registry.get? name = some p ∧
        ∀ limits (e : Value) fuel, P limits → e.IsDefinitionOf name →
          ∃ n, evaluate limits (fuel + 1) e m' = .failed (.redefinition name) n ∧ n.Twin m') := by
  have hloose : False → ∀ limits, P limits → limits.allowRedefinition = false := False.elim
  refine ⟨?_, ?_, ?_, ?_, ?_, ?_⟩
  · intro name p hp
    rcases (h.upheld hloose).names name p hp with hname | hstart
    · exact hname
    · rw [hempty] at hstart
      cases hstart
  · intro m' hm' name hname
    obtain ⟨p, hp⟩ := Option.isSome_iff_exists.mp hname
    obtain ⟨p', hp', _⟩ := (hm'.upheld hloose).stays name p hp
    exact Option.isSome_iff_exists.mpr ⟨p', hp'⟩
  · intro p hp
    apply ((h.upheld hloose).shown p hp).imp_right
    rintro ⟨p', hp', _⟩
    exact Option.isSome_iff_exists.mpr ⟨p', hp'⟩
  · intro limits e r m' name hrun hchanged
    exact comesUp_of_changed hrun hchanged
  · intro limits e he
    exact ⟨definition_answers he limits m, fun e' n hbegins => begins_of_definition he hbegins⟩
  · intro hstrict
    refine ⟨?_, ?_⟩
    · intro p hp
      apply ((h.upheld fun _ : True => hstrict).shown p hp).imp_right
      rintro ⟨p', hp', hsame⟩
      rw [hp', hsame trivial]
    · intro m' hm' name p hp
      obtain ⟨p', hp', hsame⟩ := (hm'.upheld fun _ : True => hstrict).stays name p hp
      rw [hsame trivial] at hp'
      refine ⟨hp', ?_⟩
      intro limits e fuel hlimits he
      have hname : m'.registry.contains name = true := Option.isSome_iff_exists.mpr ⟨p, hp'⟩
      refine ⟨m'.begun e, ?_, m'.begun_twin e⟩
      rw [evaluate_definition he.isDefinition limits fuel]
      exact definition_refused he (hstrict limits hlimits) hname

/-- `(DEFINE F () (DEFINE F () 7))` -/
def selfDefining : Procedure Value :=
  ⟨0, "F", [], .list [.symbol "DEFINE", .symbol "F", .list [], seven]⟩

def defineF : Value :=
  .list [.symbol "DEFINE", .symbol "F", .list [], selfDefining.body]

/-- Nothing is defined, and a journal is kept. -/
def blank : Machine :=
  ⟨.empty, .empty, {}, { kept := true }⟩

/-- Nothing may be defined twice. -/
def once : Limits :=
  { allowRedefinition := false }

/-- A procedure that defines itself again is refused in its call, and stays what it is; from the
outside it cannot be defined again either. -/
theorem registry_discipline_selfDefining :
    (∀ name, blank.registry.get? name = none) ∧
    ComesUp (Moment.Registers once "F") once defineF blank ∧
    ∃ m m', blank.Evolves (· = once) m ∧ m.registry.get? "F" = some selfDefining ∧
      Finishes (evaluate once · (.list [.symbol "F"])) m (.error (.redefinition "F")) m' ∧
      m'.registry.get? "F" = some selfDefining ∧
      ∃ n, evaluate once 1 defineF m' = .failed (.redefinition "F") n ∧ n.Twin m' := by
  have hempty : ∀ name, blank.registry.get? name = none := fun _ => rfl
  let m := (blank.begun defineF).registering "F" [] selfDefining.body
  have hdefine : Finishes (evaluate once · defineF) blank (.ok (.symbol "F")) m := ⟨1, rfl⟩
  have hm : blank.Evolves (· = once) m := .finished .refl rfl hdefine
  have hF : m.registry.get? "F" = some selfDefining := rfl
  let m' := ((inCall selfDefining [] (m.record (.evaluating (.list [.symbol "F"])))).begun
    selfDefining.body).pop
  have hcall : Finishes (evaluate once · (.list [.symbol "F"])) m (.error (.redefinition "F")) m' :=
    ⟨2, rfl⟩
  obtain ⟨_, _, _, hchanged, _, _⟩ := registry_discipline hempty (.refl (P := (· = once)))
  obtain ⟨_, _, _, _, _, hstrict⟩ := registry_discipline hempty hm
  have hallow : ∀ limits, limits = once → limits.allowRedefinition = false := by
    intro limits heq
    rw [heq]
    rfl
  obtain ⟨hkept, hrefused⟩ := (hstrict hallow).2 m' (.finished .refl rfl hcall) "F" selfDefining hF
  refine ⟨hempty, hchanged once defineF _ m "F" hdefine nofun, m, m', hm, hF, hcall, hkept, ?_⟩
  exact hrefused once defineF 0 rfl ⟨.symbol "DEFINE", [], selfDefining.body, rfl, by decide +kernel⟩

end PocketLisp
