import PocketLisp.Proofs.History
import PocketLisp.Proofs.Operators
import PocketLisp.Proofs.Shapes

/-!
# The identity of procedures

A procedure is as old as the execution of the definition that made it, and no copy of it is another
one: what variables, lists, results and the registry have are the procedures that a journal shows as
defined, each at one place, and two of them are equal if and only if they have the same place. What
a name stands for is the procedure that was defined last under it. So a procedure that was read from
a name differs from the one that is read later exactly if the name has been defined in between,
be it with the same text, and calling the first one still evaluates its own body.

The places are those in the journal of a session that keeps one; a session that does not goes
through the same machines but for the journal.
-/

namespace PocketLisp

open Evaluation

namespace Session

/-- The second session has the limits, and its machine has evolved under them from the machine of
the first. -/
structure Evolves (bounds : Limits) (s s' : Session) : Prop where
  limits : s'.limits = bounds
  machine : s.machine.Evolves (· = bounds) s'.machine

namespace Evolves

variable {limits : Limits} {s s' : Session}

theorem trans {s'' : Session} (h : s.Evolves limits s') (h' : s'.Evolves limits s'') :
    s.Evolves limits s'' :=
  ⟨h'.limits, h.machine.trans h'.machine⟩

theorem of_evaluate (hs : s.limits = limits) {fuel : Nat} {e : Value}
    {result : Except Fault Value} (hrun : s.evaluate fuel e = some (result, s')) :
    s.Evolves limits s' := by
  obtain ⟨r, m', hanswer, _, rfl⟩ := evaluate_eq_some.mp hrun
  exact ⟨hs, .elsewhere (.finished .refl hs ⟨fuel, hanswer⟩) rfl rfl⟩

theorem of_evaluateEach (hs : s.limits = limits) {fuel : Nat} {es : List Value}
    {results : List (Except Fault Value)} (hrun : s.evaluateEach fuel es = some (results, s')) :
    s.Evolves limits s' := by
  induction es generalizing s results with
  | nil =>
      cases hrun
      exact ⟨hs, .refl⟩
  | cons e es ih =>
      obtain ⟨result, s₁, rest, hfirst, hrest, rfl⟩ := evaluateEach_cons.mp hrun
      have hevolves := of_evaluate hs hfirst
      exact hevolves.trans (ih hevolves.limits hrest)

theorem of_statements (hs : s.limits = limits) {count fuel : Nat} {es : List Value}
    {results : List (Except Fault Value)}
    (hrun : (s.record (.runningStatements count)).evaluateEach fuel es = some (results, s')) :
    s.Evolves limits s' := by
  have hnoted : s.Evolves limits (s.record (.runningStatements count)) := ⟨hs, .noted .refl rfl⟩
  exact hnoted.trans (of_evaluateEach hs hrun)

theorem of_reaches (hs : s.limits = limits) (h : s.Reaches s') : s.Evolves limits s' := by
  induction h with
  | refl => exact ⟨hs, .refl⟩
  | @text s₁ s₂ fuel text result _ hrun ih =>
      unfold evaluateText at hrun
      split at hrun
      · cases hrun
        exact ih
      · obtain ⟨answer, hanswer, heq⟩ := Option.map_eq_some_iff.mp hrun
        cases heq
        exact ih.trans (of_evaluate ih.limits hanswer)
  | @program s₁ s₂ fuel text result _ hrun ih =>
      cases hread : Value.readAll text with
      | error cause =>
          rw [runProgram_of_unread hread] at hrun
          cases hrun
          exact ih
      | ok forms =>
          obtain ⟨results, hr, _⟩ := (runProgram_eq_some hread).mp hrun
          exact ih.trans (of_statements ih.limits hr)

theorem of_evaluates (hs : s.limits = limits) {e : Value} (h : s.Evaluates e s') :
    s.Evolves limits s' := by
  cases h with
  | text _ => exact ⟨hs, .refl⟩
  | statement _ _ hearlier => exact of_statements hs hearlier

end Evolves

end Session

/-- What a machine has in its variables, global or of a call in progress, and in its registry. -/
inductive Machine.Keeps (m : Machine) : Value → Prop
  | global {name : Symbol} {v : Value} (h : m.environment.globals.get? name = some v) : Keeps m v
  | ofCall {frame : Frame} {name : Symbol} {v : Value} (hframe : frame ∈ m.environment.calls)
      (h : frame.get? name = some v) : Keeps m v
  | registered {name : Symbol} {p : Procedure Value} (h : m.registry.get? name = some p) :
      Keeps m (.procedure p)

theorem Machine.Holds.of_keeps {P : Value → Prop} {m : Machine} (h : m.Holds P) {v : Value}
    (hv : m.Keeps v) : P v := by
  cases hv with
  | global hv => exact h.globals _ v hv
  | ofCall hframe hv => exact h.calls _ hframe _ v hv
  | registered hp => exact h.procedures _ _ hp

/-- What there is at a moment: all that the machine keeps, and the value returned, if any. -/
def Moment.Offers (v : Value) : Moment → Prop
  | .begins _ m | .fails _ m => m.Keeps v
  | .returns u m => u = v ∨ m.Keeps v

theorem Moment.Shapely.of_offers {moment : Moment} (h : moment.Shapely) {v : Value}
    (hv : moment.Offers v) : v.Shaped moment.machine.defined := by
  cases moment with
  | begins e m => exact Machine.Holds.of_keeps h hv
  | returns u m =>
      rcases hv with rfl | hv
      · exact h.2
      · exact h.1.of_keeps hv
  | fails fault m => exact Machine.Holds.of_keeps h hv

namespace Session

/-- The values that come to light in a history of texts and programs, each with the machine at that
time: between two of them, as an answer, and at the moments of every evaluation, finished or not;
and the elements of lists that come to light. -/
inductive Shows (fresh : Session) : Value → Machine → Prop
  | kept {s : Session} {v : Value} (h : fresh.Reaches s) (hv : s.machine.Keeps v) :
      Shows fresh v s.machine
  | answer {s s' : Session} {fuel : Nat} {text : String} {v : Value} (h : fresh.Reaches s)
      (hrun : s.evaluateText fuel text = some (.ok v, s')) : Shows fresh v s'.machine
  | result {s s' : Session} {fuel : Nat} {text : String} {results : List (Except Fault Value)}
      {v : Value} (h : fresh.Reaches s) (hrun : s.runProgram fuel text = some (.ok results, s'))
      (hv : .ok v ∈ results) : Shows fresh v s'.machine
  | during {s u : Session} {e v : Value} {moment : Moment} (h : fresh.Reaches s)
      (he : s.Evaluates e u) (hmoment : ComesUp (· = moment) fresh.limits e u.machine)
      (hv : moment.Offers v) : Shows fresh v moment.machine
  | element {vs : List Value} {v : Value} {m : Machine} (h : Shows fresh (.list vs) m)
      (hv : v ∈ vs) : Shows fresh v m

theorem Shows.evolves {fresh : Session} {v : Value} {m : Machine} (h : fresh.Shows v m) :
    fresh.machine.Evolves (· = fresh.limits) m := by
  induction h with
  | kept h _ => exact (Evolves.of_reaches rfl h).machine
  | answer h hrun => exact (Evolves.of_reaches rfl (.text h hrun)).machine
  | result h hrun _ => exact (Evolves.of_reaches rfl (.program h hrun)).machine
  | during h he hmoment _ =>
      have hs := Evolves.of_reaches rfl h
      exact .during (hs.trans (.of_evaluates hs.limits he)).machine rfl hmoment
  | element _ _ ih => exact ih

theorem sound_of_reaches {limits : Limits} {sink : Sink} {s : Session}
    (h : (start limits sink { kept := true }).Reaches s) : ∃ d, Sound d s s := by
  induction h with
  | refl => exact ⟨_, sound_start limits sink true⟩
  | text _ hrun ih =>
      obtain ⟨d, hsound⟩ := ih
      obtain ⟨d', t', hrun', hsound', _⟩ := hsound.evaluateText hrun
      cases hrun.symm.trans hrun'
      exact ⟨d', hsound'⟩
  | program _ hrun ih =>
      obtain ⟨d, hsound⟩ := ih
      obtain ⟨d', t', hrun', hsound', _⟩ := hsound.runProgram hrun
      cases hrun.symm.trans hrun'
      exact ⟨d', hsound'⟩

/-- A session that is like itself is so when the turn of an expression comes. -/
theorem Sound.evaluates_self {d : Defined} {s u : Session} (h : Sound d s s) {e : Value}
    (he : s.Evaluates e u) : e.IsSource ∧ ∃ d', Sound d' u u := by
  cases he with
  | text hread => exact ⟨isSource_of_read hread, d, h⟩
  | statement hread hsplit hearlier =>
      have hsource := isSource_of_mem_statements hread
      rw [hsplit, List.forall_mem_append, List.forall_mem_cons] at hsource
      obtain ⟨d', u', hrun, hsound, _, _⟩ := (h.record _).evaluateEach hsource.1 hearlier
      cases hearlier.symm.trans hrun
      exact ⟨hsource.2.1, d', hsound⟩

/-- What comes to light is built from what the journal shows as defined by then. -/
theorem Shows.shaped {limits : Limits} {sink : Sink} {v : Value} {m : Machine}
    (h : (start limits sink { kept := true }).Shows v m) : v.Shaped m.defined := by
  induction h with
  | kept h hv =>
      obtain ⟨d, hsound⟩ := sound_of_reaches h
      exact hsound.machine.holds_defined.of_keeps hv
  | answer h hrun =>
      obtain ⟨d, hsound⟩ := sound_of_reaches h
      obtain ⟨d', t', hrun', hsound', hshaped⟩ := hsound.evaluateText hrun
      cases hrun.symm.trans hrun'
      exact (hshaped _ rfl).mono hsound'.later_defined
  | result h hrun hv =>
      obtain ⟨d, hsound⟩ := sound_of_reaches h
      obtain ⟨d', t', hrun', hsound', hshaped⟩ := hsound.runProgram hrun
      cases hrun.symm.trans hrun'
      exact (hshaped _ rfl _ hv).mono hsound'.later_defined
  | @during s u e v moment h he hmoment hv =>
      obtain ⟨d, hsound⟩ := sound_of_reaches h
      obtain ⟨hsource, d', hsound'⟩ := hsound.evaluates_self he
      have hcode : shapes.Code () e e := ⟨rfl, hsource⟩
      obtain ⟨_, rfl, hshapely⟩ := Correspondence.given_of_comesUp
        (fun _ => shapes_quiet) hcode hsound'.machine hmoment
      exact Moment.Shapely.of_offers hshapely hv
  | element _ hv ih =>
      cases ih with
      | list _ elements => exact elements _ hv

theorem Shows.mem_definitions {limits : Limits} {sink : Sink} {p : Procedure Value} {m : Machine}
    (h : (start limits sink { kept := true }).Shows (.procedure p) m) :
    p ∈ m.journal.definitions := by
  cases h.shaped with
  | procedure hp => exact Journal.mem_definitions.mpr hp

end Session

theorem accounted_start (limits : Limits) (sink : Sink) :
    Accounted (Session.start limits sink { kept := true }).machine.registry
      (Session.start limits sink { kept := true }).machine.journal where
  kept := rfl
  numbered := rfl
  current _ := rfl

/-- Comparing two values changes nothing but the journal. -/
theorem callPrimitive_equal (a b : Value) (m : Machine) :
    ∃ n, callPrimitive .equal [a, b] m = .returned (.ofBool (a.equal b)) n ∧ n.Twin m :=
  ⟨_, rfl, rfl, rfl, rfl⟩

theorem equal_procedure_iff {p q : Procedure Value} {m : Machine} :
    (∃ n, callPrimitive .equal [.procedure p, .procedure q] m = .returned .truth n) ↔
      p.id = q.id := by
  obtain ⟨n, heq, _⟩ := callPrimitive_equal (.procedure p) (.procedure q) m
  rw [heq, Value.equal]
  by_cases hid : p.id = q.id
  · rw [beq_iff_eq.mpr hid]
    exact iff_of_true ⟨n, rfl⟩ hid
  · rw [beq_eq_false_iff_ne.mpr hid]
    refine iff_of_false ?_ hid
    intro h
    obtain ⟨n', hn'⟩ := h
    cases hn'

theorem evaluate_symbol (limits : Limits) (fuel : Nat) (name : Symbol) (m : Machine) :
    evaluate limits (fuel + 1) (.symbol name) m =
      match m.lookup? name with
      | some v => .returned v (m.record (.evaluating (.symbol name)))
      | none => .failed (.unknownSymbol name) (m.record (.evaluating (.symbol name))) := by
  show valueOf name (m.record (.evaluating (.symbol name))) = _
  simp only [valueOf, Run.bind_apply, Run.gets, (m.twin_record _).lookup? name]
  cases m.lookup? name with
  | some v => rfl
  | none => rfl

/-- Evaluating a name that is no variable gives the procedure that is registered under it. -/
theorem finishes_symbol_iff {m : Machine} {name : Symbol}
    (hfree : m.environment.get? name = none) {limits : Limits} {p : Procedure Value} :
    (∃ n, Finishes (evaluate limits · (.symbol name)) m (.ok (.procedure p)) n) ↔
      m.registry.get? name = some p := by
  have hlookup : m.lookup? name = (m.registry.get? name).map .procedure := by
    rw [Machine.lookup?, hfree, Option.none_or]
  constructor
  · intro h
    obtain ⟨n, fuel, hrun⟩ := h
    cases fuel with
    | zero => cases hrun
    | succ fuel =>
        simp only [evaluate_symbol, hlookup] at hrun
        cases hp : m.registry.get? name with
        | none =>
            rw [hp] at hrun
            cases hrun
        | some q =>
            rw [hp] at hrun
            cases hrun
            rfl
  · intro hp
    refine ⟨m.record (.evaluating (.symbol name)), 1, ?_⟩
    simp only [evaluate_symbol, hlookup, hp, Option.map_some]
    rfl

theorem OperandsEnd.unique {limits : Limits} {es : List Value} {m m₁ m₂ : Machine}
    {r₁ r₂ : Except Fault (List Value)} (h₁ : OperandsEnd limits es m r₁ m₁)
    (h₂ : OperandsEnd limits es m r₂ m₂) : r₁ = r₂ ∧ m₁ = m₂ :=
  (steady_evaluateSequence limits es).finishes_unique (finishes_of_operandsEnd h₁)
    (finishes_of_operandsEnd h₂)

/-- Calling a procedure evaluates the body that it was made with. -/
theorem applicationEnds_procedure {limits : Limits} {p : Procedure Value}
    {operands args : List Value} {m n : Machine}
    (hargs : OperandsEnd limits operands m (.ok args) n)
    (hcount : args.length = p.parameters.length) (hdepth : limits.brokenByCall n.depth = none)
    (r : Except Fault Value) (m' : Machine) :
    ApplicationEnds limits (.procedure p) operands m r m' ↔
      ∃ k, Finishes (evaluate limits · p.body) (inCall p args n) r k ∧ m' = k.pop := by
  constructor
  · intro h
    cases h with
    | operandFailed hfailed => cases (hargs.unique hfailed).1
    | applied hargs' happly =>
        obtain ⟨hr, rfl⟩ := hargs.unique hargs'
        cases hr
        obtain ⟨fuel, happly⟩ := happly
        rcases answer?_callProcedure.mp happly with
          ⟨hne, _⟩ | ⟨_, limit, hbroken, _⟩ | ⟨_, _, k, hk, rfl⟩
        · exact absurd hcount hne
        · rw [hdepth] at hbroken
          cases hbroken
        · exact ⟨k, ⟨fuel, hk⟩, rfl⟩
  · intro h
    obtain ⟨k, ⟨fuel, hk⟩, rfl⟩ := h
    exact .applied hargs
      ⟨fuel, answer?_callProcedure.mpr (Or.inr (Or.inr ⟨hcount, hdepth, k, hk, rfl⟩))⟩

/-- A procedure has the identity of the execution of the definition that made it. Of all that comes
to light in a session, two procedures are equal if and only if they stem from the same execution,
and then they are the same; the history has what evaluations have made, and nothing else. What is
read from a name that is no variable equals what is read from it later if and only if nothing has
been defined under the name in between. Whatever way a procedure is found, a call of it evaluates
its own body. Sessions that keep no journal go through the same machines but for the journal. -/
theorem procedures_keep_identity {limits : Limits} {sink : Sink} {fresh : Session}
    (hfresh : fresh = .start limits sink { kept := true }) :
    (∀ p q m m', fresh.Shows (.procedure p) m → fresh.Shows (.procedure q) m' →
      m.journal.definitions <+: m'.journal.definitions →
      (∃! k, m'.journal.Stems p k) ∧ (∃! k, m'.journal.Stems q k) ∧
      ((∃ n, callPrimitive .equal [.procedure p, .procedure q] m' = .returned .truth n) ↔
        ∃ k, m'.journal.Stems p k ∧ m'.journal.Stems q k) ∧
      ((∃ n, callPrimitive .equal [.procedure p, .procedure q] m' = .returned .truth n) → p = q)) ∧
    (∀ v m, fresh.Shows v m → fresh.machine.Evolves (· = limits) m) ∧
    (∀ s s', fresh.Reaches s → s.Reaches s' → fresh.machine.Evolves (· = limits) s.machine ∧
      s.machine.Evolves (· = limits) s'.machine) ∧
    (∀ m e r m', fresh.machine.Evolves (· = limits) m → Finishes (evaluate limits · e) m r m' →
      ∃ new, m'.journal.definitions = m.journal.definitions ++ new ∧
        ∀ p, p ∈ new ↔ ComesUp (Moment.Makes limits p) limits e m) ∧
    (∀ m m', fresh.machine.Evolves (· = limits) m → m.Evolves (· = limits) m' →
      ∃ new, m'.journal.definitions = m.journal.definitions ++ new ∧
        ∀ name p n, m.environment.get? name = none → m'.environment.get? name = none →
          Finishes (evaluate limits · (.symbol name)) m (.ok (.procedure p)) n →
          ∃ p' n', Finishes (evaluate limits · (.symbol name)) m' (.ok (.procedure p')) n' ∧
            ((Value.procedure p).equal (.procedure p') = true ↔ ∀ q ∈ new, q.name ≠ name)) ∧
    (∀ m head p operands args n, StandsFor limits m head (.procedure p) →
      OperandsEnd limits operands m (.ok args) n → args.length = p.parameters.length →
      limits.brokenByCall n.depth = none →
      ∀ r m', Yields (evaluate limits · (.list (head :: operands))) m r m' ↔
        ∃ k, Finishes (evaluate limits · p.body) (inCall p args n) r k ∧ k.pop.Twin m') ∧
    ∀ kept s, (Session.start limits sink { kept }).Reaches s →
      ∃ t, (Session.start limits sink { kept }).Alongside fresh s t ∧ s.Twin t := by
  subst hfresh
  have haccounted : ∀ {m : Machine},
      (Session.start limits sink { kept := true }).machine.Evolves (· = limits) m →
      Accounted m.registry m.journal :=
    fun hm => (lasting_accounted _).evolves (accounted_start limits sink) hm
  refine ⟨?_, fun v m h => h.evolves, ?_, ?_, ?_, ?_, ?_⟩
  · intro p q m m' hp hq hearlier
    have haccount := haccounted hq.evolves
    have hmem : p ∈ m'.journal.definitions := hearlier.subset hp.mem_definitions
    have hid := haccount.id_eq_iff hmem hq.mem_definitions
    refine ⟨haccount.existsUnique_stems hmem, haccount.existsUnique_stems hq.mem_definitions,
      equal_procedure_iff.trans hid, ?_⟩
    intro hequal
    obtain ⟨k, hk, hk'⟩ := hid.mp (equal_procedure_iff.mp hequal)
    exact Option.some.inj (hk.symm.trans hk')
  · intro s s' hs hs'
    have hevolves := Session.Evolves.of_reaches rfl hs
    exact ⟨hevolves.machine, (Session.Evolves.of_reaches hevolves.limits hs').machine⟩
  · intro m e r m' hm hrun
    obtain ⟨fuel, hanswer⟩ := id hrun
    obtain ⟨new, hnew⟩ := (effects_precedes.evaluate limits fuel e m r m' hanswer).definitions
    refine ⟨new, hnew.symm, fun p => ?_⟩
    rw [← Journal.definedSince_iff hnew.symm]
    exact ⟨comesUp_of_definedSince (haccounted hm).kept hrun, definedSince_of_comesUp hrun⟩
  · intro m m' hm hm'
    obtain ⟨new, hnew⟩ := (lasting_definitions _ m.journal.definitions).evolves List.prefix_rfl hm'
    refine ⟨new, hnew.symm, ?_⟩
    intro name p n hfree hfree' hrun
    obtain ⟨p', hp', hsame⟩ := (haccounted hm).same_iff_not_redefined (haccounted (hm.trans hm'))
      hnew.symm ((finishes_symbol_iff hfree).mp ⟨n, hrun⟩)
    obtain ⟨n', hrun'⟩ := (finishes_symbol_iff hfree').mpr hp'
    refine ⟨p', n', hrun', ?_⟩
    rw [Value.equal, beq_iff_eq]
    exact hsame
  · intro m head p operands args n hhead hargs hcount hdepth r m'
    rw [hhead.yields_iff]
    constructor
    · intro h
      obtain ⟨n', hends, htwin⟩ := h
      obtain ⟨k, hk, rfl⟩ := (applicationEnds_procedure hargs hcount hdepth r n').mp hends
      exact ⟨k, hk, htwin⟩
    · intro h
      obtain ⟨k, hk, htwin⟩ := h
      exact ⟨k.pop, (applicationEnds_procedure hargs hcount hdepth r k.pop).mpr ⟨k, hk, rfl⟩, htwin⟩
  · intro kept s hs
    obtain ⟨d, t, halong, hsound⟩ := Session.exists_alongside hs
    exact ⟨t, halong, hsound.twin⟩

/-- Whether `X` and `F` have procedures that differ in nothing but their numbers. -/
def hasLookalikes (s : Session) : Bool :=
  match s.machine.environment.globals.get? "X", s.machine.registry.get? "F" with
  | some (.procedure p), some q =>
      p.id != q.id && p.name == q.name && p.parameters == q.parameters &&
        p.body.text == q.body.text
  | _, _ => false

/-- A procedure that is defined again with the same text is another one than before. -/
theorem procedures_keep_identity_lookalikes :
    ∃ s p q, (Session.start {} {} { kept := true }).Reaches s ∧
      s.machine.environment.globals.get? "X" = some (.procedure p) ∧
      s.machine.registry.get? "F" = some q ∧ p.name = q.name ∧ p.parameters = q.parameters ∧
      p.body.text = q.body.text ∧ (∃! k, s.machine.journal.Stems p k) ∧
      (∃! k, s.machine.journal.Stems q k) ∧
      (¬ ∃ k, s.machine.journal.Stems p k ∧ s.machine.journal.Stems q k) ∧
      ¬ ∃ n, callPrimitive .equal [.procedure p, .procedure q] s.machine = .returned .truth n := by
  have hprogram : (((Session.start {} {} { kept := true }).runProgram 4
      "(DEFINE F () 1) (SET X F) (DEFINE F () 1)").any fun answer => hasLookalikes answer.2) =
      true := by decide +kernel
  obtain ⟨⟨result, s⟩, hrun, hlookalikes⟩ := (Option.any_eq_true _ _).mp hprogram
  have hreaches : (Session.start {} {} { kept := true }).Reaches s := .program .refl hrun
  unfold hasLookalikes at hlookalikes
  split at hlookalikes
  · rename_i p q hX hF
    simp only [Bool.and_eq_true, bne_iff_ne, beq_iff_eq] at hlookalikes
    obtain ⟨⟨⟨hid, hname⟩, hparameters⟩, hbody⟩ := hlookalikes
    obtain ⟨hidentity, _⟩ := procedures_keep_identity
      (show Session.start {} {} { kept := true } = .start {} {} { kept := true } from rfl)
    obtain ⟨hp, hq, hequal, hsame⟩ := hidentity p q s.machine s.machine
      (.kept hreaches (.global hX)) (.kept hreaches (.registered hF)) List.prefix_rfl
    have hdiffer : ¬ ∃ n, callPrimitive .equal [.procedure p, .procedure q] s.machine =
        .returned .truth n := fun h => hid (congrArg Procedure.id (hsame h))
    exact ⟨s, p, q, hreaches, hX, hF, hname, hparameters, hbody, hp, hq,
      fun hstems => hdiffer (hequal.mpr hstems), hdiffer⟩
  · cases hlookalikes

end PocketLisp
