import PocketLisp.Proofs.Journals

/-!
# The ways to an operator

A procedure or a primitive can be called under a name of its own, through a variable, or through an
expression that yields it. The evaluator takes another way for each of these, and the ways agree:
whatever is called is found before the operands are evaluated, and what follows is the same. The
operands are evaluated from left to right up to the first fault, and then it is applied to their
values. Operands that define or assign the very name that was used come too late. The journal, which
shows the names, is left out of account.
-/

namespace PocketLisp

open Evaluation

/-- The operands are evaluated from left to right, each in the machine that the one before it left;
the first fault is the answer for all of them. -/
inductive OperandsEnd (limits : Limits) :
    List Value → Machine → Except Fault (List Value) → Machine → Prop
  | nil (m : Machine) : OperandsEnd limits [] m (.ok []) m
  | failed {e : Value} {es : List Value} {m m' : Machine} {fault : Fault}
      (h : Finishes (evaluate limits · e) m (.error fault) m') :
      OperandsEnd limits (e :: es) m (.error fault) m'
  | cons {e v : Value} {es : List Value} {m m₁ m' : Machine} {r : Except Fault (List Value)}
      (h : Finishes (evaluate limits · e) m (.ok v) m₁) (hrest : OperandsEnd limits es m₁ r m') :
      OperandsEnd limits (e :: es) m (r.map (v :: ·)) m'

/-- What comes of applying a callable to operands, which are evaluated before. -/
inductive ApplicationEnds (limits : Limits) (callable : Value) (operands : List Value)
    (m : Machine) : Except Fault Value → Machine → Prop
  | operandFailed {fault : Fault} {m' : Machine}
      (h : OperandsEnd limits operands m (.error fault) m') :
      ApplicationEnds limits callable operands m (.error fault) m'
  | applied {args : List Value} {n m' : Machine} {r : Except Fault Value}
      (hargs : OperandsEnd limits operands m (.ok args) n)
      (h : Finishes (applyTo limits · callable args) n r m') :
      ApplicationEnds limits callable operands m r m'

theorem steady_evaluateSequence (limits : Limits) (es : List Value) :
    Steady (evaluateSequence limits · es) := by
  intro n n' hle
  have hes : ∀ e ∈ es, (matching_eq.congruence limits).Holds
      fun side => Side.pick (evaluate limits n) (evaluate limits n') side e :=
    fun e _ => steady_evaluate limits e n n' hle
  exact (matching_eq.congruence limits).evaluateAll hes

theorem steady_applyTo (limits : Limits) (callable : Value) (args : List Value) :
    Steady (applyTo limits · callable args) := by
  intro n n' hle
  have hcall : ∀ p args, (matching_eq.congruence limits).Holds fun side =>
      callProcedure limits (Side.pick (evaluate limits n) (evaluate limits n') side) p args :=
    fun p args => steady_call limits p args n n' hle
  exact (matching_eq.congruence limits).apply hcall callable args

theorem operandsEnd_of_answer {limits : Limits} {fuel : Nat} {es : List Value} {m m' : Machine}
    {r : Except Fault (List Value)}
    (h : (evaluateSequence limits fuel es m).answer? = some (r, m')) :
    OperandsEnd limits es m r m' := by
  induction es generalizing m r with
  | nil =>
      cases h
      exact .nil _
  | cons e es ih =>
      rcases Run.answer?_bind.mp h with ⟨v, m₁, hfirst, hrest⟩ | ⟨fault, hfirst, rfl⟩
      · rcases Run.answer?_bind.mp hrest with ⟨vs, m₂, hvs, hlast⟩ | ⟨fault, hvs, rfl⟩
        · cases hlast
          exact .cons ⟨fuel, hfirst⟩ (ih hvs)
        · exact .cons ⟨fuel, hfirst⟩ (ih hvs)
      · exact .failed ⟨fuel, hfirst⟩

/-- One amount of fuel serves for all operands. -/
theorem finishes_of_operandsEnd {limits : Limits} {es : List Value} {m m' : Machine}
    {r : Except Fault (List Value)} (h : OperandsEnd limits es m r m') :
    Finishes (evaluateSequence limits · es) m r m' := by
  induction h with
  | nil m => exact ⟨0, rfl⟩
  | failed h =>
      obtain ⟨fuel, h⟩ := h
      exact ⟨fuel, Run.answer?_bind.mpr (Or.inr ⟨_, h, rfl⟩)⟩
  | @cons e v es m m₁ m' r h _ ih =>
      obtain ⟨n₁, hfirst⟩ := h
      obtain ⟨n₂, hrest⟩ := ih
      have hfirst' := (steady_evaluate limits e).answer? (Nat.le_max_left n₁ n₂) hfirst
      have hrest' := (steady_evaluateSequence limits es).answer? (Nat.le_max_right n₁ n₂) hrest
      refine ⟨max n₁ n₂, Run.answer?_bind.mpr (Or.inl ⟨v, m₁, hfirst', ?_⟩)⟩
      cases r with
      | ok vs => exact Run.answer?_bind.mpr (Or.inl ⟨vs, m', hrest', rfl⟩)
      | error fault => exact Run.answer?_bind.mpr (Or.inr ⟨fault, hrest', rfl⟩)

/-- A callable is applied to operands. -/
def applyToOperands (limits : Limits) (fuel : Nat) (callable : Value) (operands : List Value) :
    Run Value := do
  let args ← evaluateSequence limits fuel operands
  applyTo limits fuel callable args

theorem steady_applyToOperands (limits : Limits) (callable : Value) (operands : List Value) :
    Steady (applyToOperands limits · callable operands) :=
  (steady_evaluateSequence limits operands).bind fun args => steady_applyTo limits callable args

theorem finishes_applyToOperands {limits : Limits} {callable : Value} {operands : List Value}
    {m m' : Machine} {r : Except Fault Value} :
    Finishes (applyToOperands limits · callable operands) m r m' ↔
      ApplicationEnds limits callable operands m r m' := by
  constructor
  · rintro ⟨fuel, h⟩
    rcases Run.answer?_bind.mp h with ⟨args, n, hargs, happly⟩ | ⟨fault, hargs, rfl⟩
    · exact .applied (operandsEnd_of_answer hargs) ⟨fuel, happly⟩
    · exact .operandFailed (operandsEnd_of_answer hargs)
  · intro h
    cases h with
    | operandFailed hargs =>
        obtain ⟨fuel, hargs⟩ := finishes_of_operandsEnd hargs
        exact ⟨fuel, Run.answer?_bind.mpr (Or.inr ⟨_, hargs, rfl⟩)⟩
    | @applied args n _ _ hargs happly =>
        obtain ⟨n₁, hargs⟩ := finishes_of_operandsEnd hargs
        obtain ⟨n₂, happly⟩ := happly
        have hargs' :=
          (steady_evaluateSequence limits operands).answer? (Nat.le_max_left n₁ n₂) hargs
        have happly' :=
          (steady_applyTo limits callable args).answer? (Nat.le_max_right n₁ n₂) happly
        exact ⟨max n₁ n₂, Run.answer?_bind.mpr (Or.inl ⟨args, n, hargs', happly'⟩)⟩

/-- Machines that differ in their journals apply alike. -/
theorem twin_applyToOperands (limits : Limits) (fuel : Nat) (callable : Value)
    (operands : List Value) :
    (applyToOperands limits fuel callable operands).Simulates Machine.Twin
      (applyToOperands limits fuel callable operands) := by
  have hes : ∀ e ∈ operands, (matching_twin.congruence limits).Holds
      fun _ => evaluate limits fuel e := fun e _ => twin_evaluate limits fuel e
  have hcall : ∀ p args, (matching_twin.congruence limits).Holds
      fun _ => callProcedure limits (evaluate limits fuel) p args :=
    fun p args => twin_callProcedure limits (twin_evaluate limits fuel p.body) args
  apply Matching.bind ((matching_twin.congruence limits).evaluateAll hes)
  intro args
  exact (matching_twin.congruence limits).apply hcall callable args

/-- What the head of a list stands for in a machine: the callable that is found there under its
name, in a variable, or by evaluating an expression, which leaves the machine as it was. -/
inductive StandsFor (limits : Limits) (m : Machine) : (head callable : Value) → Prop
  | registered {name : Symbol} {p : Procedure Value} (hk : keyword? (.symbol name) = none)
      (h : m.registry.get? name = some p) : StandsFor limits m (.symbol name) (.procedure p)
  | primitive {name : Symbol} {p : Primitive} (hr : m.registry.get? name = none)
      (h : Primitive.ofName? (Text.upperCase name) = some p) :
      StandsFor limits m (.symbol name) (.primitive p)
  | bound {name : Symbol} {v : Value} (hk : keyword? (.symbol name) = none)
      (hr : m.registry.get? name = none)
      (hp : Primitive.ofName? (Text.upperCase name) = none)
      (h : m.environment.get? name = some v) (hv : v.isCallable = true) :
      StandsFor limits m (.symbol name) v
  | computed {e v : Value} {n : Machine} (he : e.isSymbol = false)
      (h : Finishes (evaluate limits · e) m (.ok v) n) (hn : n.Twin m)
      (hv : v.isCallable = true) : StandsFor limits m e v

theorem evaluate_call {head : Value} (hk : keyword? head = none) (limits : Limits) (fuel : Nat)
    (operands : List Value) (m : Machine) :
    evaluate limits (fuel + 1) (.list (head :: operands)) m =
      callOperator limits (evaluate limits fuel) head operands
        (m.record (.evaluating (.list (head :: operands)))) := by
  rw [← evaluateCall_eq]
  show step limits fuel (evaluate limits fuel) _ m = _
  simp only [step, evaluateList, hk]
  rfl

theorem eq_returned_of_answer? {α : Type} {o : Outcome α} {a : α} {m : Machine}
    (h : o.answer? = some (.ok a, m)) : o = .returned a m := by
  cases o <;> cases h
  rfl

/-- A name stands for its operator in the machine in which the call begins. -/
theorem evaluate_named {name : Symbol} (hk : keyword? (.symbol name) = none) {callable : Value}
    (hcallable : callable.isCallable = true) {m : Machine}
    (hfound : operatorNamed? m name = some callable) (limits : Limits) (operands : List Value)
    (fuel : Nat) :
    evaluate limits (fuel + 1) (.list (.symbol name :: operands)) m =
      applyToOperands limits fuel callable operands
        (m.record (.evaluating (.list (.symbol name :: operands)))) := by
  have hbegun := m.twin_record (.evaluating (.list (.symbol name :: operands)))
  rw [evaluate_call hk]
  apply callOperator_found limits _ operands _ hcallable
  exact operator_named _ ((hbegun.operatorNamed? name).trans hfound)

/-- With enough fuel, what a head stands for is applied to the operands. All that has happened up
to then shows in the journal and nowhere else. -/
theorem StandsFor.evaluate {limits : Limits} {m : Machine} {head callable : Value}
    (h : StandsFor limits m head callable) (operands : List Value) :
    ∃ enough n, n.Twin m ∧ ∀ fuel, enough ≤ fuel →
      evaluate limits (fuel + 1) (.list (head :: operands)) m =
        applyToOperands limits fuel callable operands n := by
  have hbegun := m.twin_record (.evaluating (.list (head :: operands)))
  cases h with
  | @registered name p hk h =>
      have hfound : operatorNamed? m name = some (.procedure p) := by simp only [operatorNamed?, h]
      exact ⟨0, _, hbegun, fun fuel _ => evaluate_named hk rfl hfound limits operands fuel⟩
  | @primitive name p hr h =>
      have hfound : operatorNamed? m name = some (.primitive p) := by
        simp only [operatorNamed?, hr, h]
      have hk := keyword?_of_primitive h
      exact ⟨0, _, hbegun, fun fuel _ => evaluate_named hk rfl hfound limits operands fuel⟩
  | @bound name v hk hr hp h hv =>
      have hfound : operatorNamed? m name = some callable := by
        simp only [operatorNamed?, hr, hp, Machine.lookup?, h, Option.some_or]
      exact ⟨0, _, hbegun, fun fuel _ => evaluate_named hk hv hfound limits operands fuel⟩
  | @computed e v n he h hn hv =>
      obtain ⟨enough, hrun⟩ := h
      obtain ⟨n', hrun', htwin⟩ := twin_evaluate limits enough head m _ _ n hbegun.symm hrun
      have hk : keyword? head = none := by
        cases head with
        | symbol name => cases he
        | _ => rfl
      refine ⟨enough, n', htwin.symm.trans hn, ?_⟩
      intro fuel hle
      rw [evaluate_call hk]
      apply callOperator_found limits _ operands _ hv
      have hself : operator (PocketLisp.evaluate limits fuel) head =
          PocketLisp.evaluate limits fuel head := by
        cases head with
        | symbol name => cases he
        | _ => rfl
      rw [hself]
      exact eq_returned_of_answer? ((steady_evaluate limits head).answer? hle hrun')

/-- The program answers `r` and leaves the machine `m'`, the journal not considered. -/
def Yields (program : Nat → Run Value) (m : Machine) (r : Except Fault Value) (m' : Machine) :
    Prop :=
  ∃ n, Finishes program m r n ∧ n.Twin m'

/-- A call yields what comes of applying to the operands whatever its head stands for before any
operand is evaluated. -/
theorem StandsFor.yields_iff {limits : Limits} {m : Machine} {head callable : Value}
    (h : StandsFor limits m head callable) (operands : List Value) (r : Except Fault Value)
    (m' : Machine) :
    Yields (PocketLisp.evaluate limits · (.list (head :: operands))) m r m' ↔
      ∃ n, ApplicationEnds limits callable operands m r n ∧ n.Twin m' := by
  obtain ⟨enough, start, hstart, happlied⟩ := h.evaluate operands
  constructor
  · rintro ⟨n, ⟨fuel, hrun⟩, hn⟩
    have hle : fuel ≤ max enough fuel + 1 := by omega
    have hrun' := (steady_evaluate limits _).answer? hle hrun
    rw [happlied _ (Nat.le_max_left enough fuel)] at hrun'
    obtain ⟨n', hrun'', htwin⟩ :=
      twin_applyToOperands limits _ callable operands _ _ r n hstart hrun'
    exact ⟨n', finishes_applyToOperands.mp ⟨_, hrun''⟩, htwin.symm.trans hn⟩
  · rintro ⟨n, hends, hn⟩
    obtain ⟨fuel, hrun⟩ := finishes_applyToOperands.mpr hends
    have hrun' :=
      (steady_applyToOperands limits callable operands).answer? (Nat.le_max_right enough fuel) hrun
    obtain ⟨n', hrun'', htwin⟩ :=
      twin_applyToOperands limits _ callable operands _ _ r n hstart.symm hrun'
    refine ⟨n', ⟨max enough fuel + 1, ?_⟩, htwin.symm.trans hn⟩
    dsimp only
    rw [happlied _ (Nat.le_max_left enough fuel)]
    exact hrun''

/-- All heads that stand for one callable make the same call of it: the callable that is found
before the operands are evaluated is the one that is applied to their values, whatever they define
or assign. -/
theorem call_paths_agree (limits : Limits) (m : Machine) (callable : Value)
    (operands : List Value) :
    (∀ head, StandsFor limits m head callable → ∀ r m',
      Yields (evaluate limits · (.list (head :: operands))) m r m' ↔
        ∃ n, ApplicationEnds limits callable operands m r n ∧ n.Twin m') ∧
    ∀ head head', StandsFor limits m head callable → StandsFor limits m head' callable → ∀ r m',
      Yields (evaluate limits · (.list (head :: operands))) m r m' ↔
        Yields (evaluate limits · (.list (head' :: operands))) m r m' := by
  refine ⟨fun head h r m' => h.yields_iff operands r m', ?_⟩
  intro head head' h h' r m'
  exact (h.yields_iff operands r m').trans (h'.yields_iff operands r m').symm

/-- `(DEFINE F (N) N)` -/
def identity : Procedure Value :=
  ⟨0, "F", ["N"], .symbol "N"⟩

/-- `F` is defined, and two variables hold callables. -/
def threeWays : Machine :=
  ⟨⟨⟨[("G", .procedure identity), ("P", .primitive .isNull)]⟩, []⟩, ⟨⟨[("F", identity)]⟩, 1⟩,
    {}, {}⟩

/-- `(BEGIN (SET var ()) (DEFINE name (N) 7))` -/
def upheaval (var name : Symbol) : Value :=
  .list [.symbol "BEGIN", .list [.symbol "SET", .symbol var, .null],
    .list [.symbol "DEFINE", .symbol name, .list [.symbol "N"], seven]]

/-- A procedure that its operand replaces, and takes out of the variable, is still the one that is
called: in all three ways it returns its operand and not 7. The same goes for a primitive under
whose name, as it is spelled there, the operand defines a procedure. -/
theorem call_paths_agree_upheaval :
    (∀ head ∈ [.symbol "F", .symbol "G", .list [.symbol "BEGIN", .symbol "F"]],
      Yields (evaluate {} · (.list [head, upheaval "G" "F"])) threeWays (.ok (.symbol "F"))
        ((threeWays.set "G" .null).define "F" ["N"] seven)) ∧
    ∀ head ∈ [.symbol "null?", .symbol "P", .list [.symbol "BEGIN", .symbol "P"]],
      Yields (evaluate {} · (.list [head, upheaval "P" "null?"])) threeWays (.ok .null)
        ((threeWays.set "P" .null).define "null?" ["N"] seven) := by
  have hidentity : ∀ head ∈ [.symbol "F", .symbol "G", .list [.symbol "BEGIN", .symbol "F"]],
      StandsFor {} threeWays head (.procedure identity) := by
    simp only [List.forall_mem_cons]
    exact ⟨.registered (by decide +kernel) rfl,
      .bound (by decide +kernel) rfl (by decide +kernel) rfl rfl,
      .computed rfl ⟨3, rfl⟩ ⟨rfl, rfl, rfl⟩ rfl, nofun⟩
  have hprimitive : ∀ head ∈ [.symbol "null?", .symbol "P", .list [.symbol "BEGIN", .symbol "P"]],
      StandsFor {} threeWays head (.primitive .isNull) := by
    simp only [List.forall_mem_cons]
    exact ⟨.primitive rfl (by decide +kernel),
      .bound (by decide +kernel) rfl (by decide +kernel) rfl rfl,
      .computed rfl ⟨3, rfl⟩ ⟨rfl, rfl, rfl⟩ rfl, nofun⟩
  refine ⟨?_, ?_⟩
  · intro head hhead
    apply ((call_paths_agree {} threeWays _ _).2 _ _ (hidentity (.symbol "F") (by simp))
      (hidentity head hhead) _ _).mp
    exact ⟨_, ⟨5, rfl⟩, ⟨rfl, rfl, rfl⟩⟩
  · intro head hhead
    apply ((call_paths_agree {} threeWays _ _).2 _ _ (hprimitive (.symbol "null?") (by simp))
      (hprimitive head hhead) _ _).mp
    exact ⟨_, ⟨5, rfl⟩, ⟨rfl, rfl, rfl⟩⟩

end PocketLisp
