import PocketLisp.Proofs.Congruence

/-!
# Where the faults of limits come from

A run ends with the fault of a limit or of the policy only if that limit is set, and the fault then
names the bound that is set. Nothing is said here about when a limit is reached.
-/

namespace PocketLisp

open Evaluation

/-- The fault is that of a limit which is set, to the bound that the fault names, or no fault of a
limit at all. -/
def Limits.CanRaise (limits : Limits) : Fault → Prop
  | .iterationLimit bound => limits.maxIterations = some bound
  | .recursionLimit bound => limits.maxDepth = some bound
  | .redefinition _ => limits.allowRedefinition = false
  | _ => True

namespace Limits

theorem canRaise_of_isRestriction {limits : Limits} {fault : Fault}
    (h : fault.isRestriction = false) : limits.CanRaise fault := by
  cases fault with
  | iterationLimit bound => cases h
  | recursionLimit bound => cases h
  | redefinition name => cases h
  | _ => trivial

theorem maxIterations_of_brokenByPass {limits : Limits} {pass bound : Nat}
    (h : limits.brokenByPass pass = some bound) : limits.maxIterations = some bound :=
  (Option.filter_eq_some_iff.mp h).1

theorem maxDepth_of_brokenByCall {limits : Limits} {depth bound : Nat}
    (h : limits.brokenByCall depth = some bound) : limits.maxDepth = some bound :=
  (Option.filter_eq_some_iff.mp h).1

end Limits

/-- No arguments make the operation fail with the fault of a limit. -/
def Operation.Unrestricted : Operation → Prop
  | .unary f => ∀ x fault, f x = .error fault → fault.isRestriction = false
  | .binary f => ∀ x y fault, f x y = .error fault → fault.isRestriction = false
  | .last | .print => True

namespace Primitive

theorem isRestriction_of_numberOf {v : Value} {fault : Fault} (h : numberOf v = .error fault) :
    fault.isRestriction = false := by
  cases v with
  | number n => cases h
  | _ => cases h; rfl

theorem unrestricted_onNumber {f : Number → Except Fault Value}
    (hf : ∀ n fault, f n = .error fault → fault.isRestriction = false) :
    (onNumber f).Unrestricted := by
  intro x fault h
  change (numberOf x).bind f = .error fault at h
  cases hx : numberOf x with
  | error cause =>
      rw [hx] at h
      cases h
      exact isRestriction_of_numberOf hx
  | ok n =>
      rw [hx] at h
      exact hf n fault h

theorem unrestricted_onNumbers {f : Number → Number → Except Fault Value}
    (hf : ∀ a b fault, f a b = .error fault → fault.isRestriction = false) :
    (onNumbers f).Unrestricted := by
  intro x y fault h
  change (numberOf x).bind (fun a => (numberOf y).bind (f a)) = .error fault at h
  cases hx : numberOf x with
  | error cause =>
      rw [hx] at h
      cases h
      exact isRestriction_of_numberOf hx
  | ok a =>
      rw [hx] at h
      exact unrestricted_onNumber (hf a) y fault h

theorem isRestriction_of_numberOr {cause fault : Fault} (hcause : cause.isRestriction = false)
    {n : Option Number} (h : numberOr cause n = .error fault) : fault.isRestriction = false := by
  cases n with
  | some n => cases h
  | none =>
      cases h
      exact hcause

/-- Outside its domain a function fails with a fault of its own, and everywhere else it returns. -/
theorem isRestriction_of_domain {p : Primitive} {outside : Bool} {v : Value} {fault : Fault}
    (h : (if outside then .error (.outsideDomain p) else .ok v : Except Fault Value) =
      .error fault) : fault.isRestriction = false := by
  cases outside with
  | false => cases h
  | true =>
      cases h
      rfl

theorem unrestricted_onFloat (p : Primitive) (f : Float → Float) : (p.onFloat f).Unrestricted :=
  unrestricted_onNumber fun _ _ h => isRestriction_of_domain h

theorem unrestricted_operation (p : Primitive) : p.operation.Unrestricted := by
  have hresult : ∀ (f : Number → Number → Value),
      (onNumbers fun a b => .ok (f a b)).Unrestricted :=
    fun f => unrestricted_onNumbers fun _ _ _ h => by cases h
  have hpartial : ∀ (cause : Fault) (f : Number → Number → Option Number),
      cause.isRestriction = false → (onNumbers fun a b => numberOr cause (f a b)).Unrestricted :=
    fun cause f hc => unrestricted_onNumbers fun _ _ _ h => isRestriction_of_numberOr hc h
  have hrounded : ∀ f : Number → Option Number,
      (onNumber fun n => numberOr .overflow (f n)).Unrestricted :=
    fun f => unrestricted_onNumber fun _ _ h => isRestriction_of_numberOr rfl h
  cases p with
  | add => exact hpartial .overflow _ rfl
  | subtract => exact hpartial .overflow _ rfl
  | multiply => exact hpartial .overflow _ rfl
  | divide => exact hpartial .divisionByZero _ rfl
  | equal => exact fun _ _ _ h => by cases h
  | less => exact hresult _
  | greater => exact hresult _
  | sequence => trivial
  | isNull => exact fun _ _ h => by cases h
  | print => trivial
  | sqrt => exact unrestricted_onFloat _ _
  | exp => exact unrestricted_onFloat _ _
  | log =>
      apply unrestricted_onNumber
      intro n fault h
      split at h
      · cases h
        rfl
      · cases h
  | sin => exact unrestricted_onFloat _ _
  | cos => exact unrestricted_onFloat _ _
  | tan => exact unrestricted_onFloat _ _
  | abs => exact hrounded _
  | floor => exact hrounded _
  | ceil => exact hrounded _
  | pow => exact hresult _

end Primitive

theorem Operation.isRestriction_of_onArguments? {op : Operation} (hop : op.Unrestricted)
    {args : List Value} {action : Sink → Except Fault Value × Sink}
    (h : op.onArguments? args = some action) {s : Sink} {fault : Fault}
    (hfault : (action s).1 = .error fault) : fault.isRestriction = false := by
  unfold onArguments? at h
  split at h <;> cases h
  · exact hop _ _ hfault
  · exact hop _ _ _ hfault
  · cases hfault
  · unfold printLine at hfault
    split at hfault
    · cases hfault
    · cases hfault
      rfl

/-- The run ends with no other faults than those that the limits can raise. -/
def Run.Raises {α : Type} (limits : Limits) (x : Run α) : Prop :=
  ∀ m fault m', (x m).answer? = some (.error fault, m') → limits.CanRaise fault

namespace Run.Raises

variable {α β : Type} {limits : Limits}

theorem of_returned {x : Run α} (h : ∀ m, ∃ a m', x m = .returned a m') : x.Raises limits := by
  intro m fault m' hrun
  obtain ⟨a, n, hx⟩ := h m
  rw [hx] at hrun
  cases hrun

theorem fail {fault : Fault} (h : limits.CanRaise fault) :
    (Run.fail fault : Run α).Raises limits := by
  intro m fault' m' hrun
  cases hrun
  exact h

theorem bind {x : Run α} {f : α → Run β} (hx : x.Raises limits)
    (hf : ∀ a, (f a).Raises limits) : (x >>= f).Raises limits := by
  intro m fault m'' hrun
  rcases Run.answer?_bind.mp hrun with ⟨a, m', _, hb⟩ | ⟨fault', hfault, he⟩
  · exact hf a m' fault m'' hb
  · cases he
    exact hx m fault m'' hfault

theorem callPrimitive (p : Primitive) (args : List Value) :
    (Evaluation.callPrimitive p args).Raises limits := by
  intro m fault m' hrun
  cases ho : p.operation.onArguments? args with
  | none =>
      rw [answer?_callPrimitive_none ho] at hrun
      cases hrun
      trivial
  | some action =>
      rw [answer?_callPrimitive ho] at hrun
      have hfault := congrArg Prod.fst (Option.some.inj hrun)
      exact Limits.canRaise_of_isRestriction
        (Operation.isRestriction_of_onArguments? p.unrestricted_operation ho hfault)

theorem callProcedure {self : Value → Run Value} {p : Procedure Value}
    (hbody : (self p.body).Raises limits) (args : List Value) :
    (Evaluation.callProcedure limits self p args).Raises limits := by
  intro m fault m' hrun
  rcases answer?_callProcedure.mp hrun with
    ⟨_, he, _⟩ | ⟨_, limit, hb, he, _⟩ | ⟨_, _, n, hn, _⟩
  · cases he
    trivial
  · cases he
    exact Limits.maxDepth_of_brokenByCall hb
  · exact hbody _ fault n hn

variable (limits) in
/-- Raising nothing else is a property that every construct passes on. -/
def congruence : Congruence fun _ : Unit => limits where
  Holds X := (X ()).Raises limits
  pure a := of_returned fun m => ⟨a, m, rfl⟩
  fail _ h := fail (Limits.canRaise_of_isRestriction h)
  bind hx hf := hx.bind hf
  lookup name := of_returned fun m => ⟨_, m, rfl⟩
  named name := of_returned fun m => ⟨_, m, rfl⟩
  registry := of_returned fun m => ⟨_, m, rfl⟩
  record e _ := of_returned fun m => ⟨_, m.record e, rfl⟩
  assign name value := of_returned fun m => ⟨_, m.set name value, rfl⟩
  register name parameters body := of_returned fun m => ⟨_, m.define name parameters body, rfl⟩
  primitive p args := callPrimitive p args
  pass n hx := by
    cases hb : limits.brokenByPass n with
    | none => exact hx
    | some limit => exact fail (Limits.maxIterations_of_brokenByPass hb)
  policy name registry hx := by
    dsimp only
    split
    · rename_i hrefused
      simp only [Bool.and_eq_true, Bool.not_eq_true'] at hrefused
      exact fail hrefused.2
    · exact hx

end Run.Raises

/-- Every fault of an evaluation is one that its limits can raise. -/
theorem raises_evaluate (limits : Limits) (fuel : Nat) (e : Value) :
    (evaluate limits fuel e).Raises limits := by
  apply (Run.Raises.congruence limits).evaluate
  · intro m fault m' hrun
    cases hrun
  · intro fuel p args hbody
    exact hbody.callProcedure args

end PocketLisp
