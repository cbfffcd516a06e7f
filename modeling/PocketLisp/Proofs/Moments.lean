import PocketLisp.Proofs.Lockstep

/-!
# Moments of an evaluation

What a watcher sees who is called whenever the evaluation of an expression begins or ends, at every
depth, and who may put any outcome in place of the one that is due. That such a watcher changes
nothing, if it holds back wherever some property is given, says that the property is given at every
moment of the evaluation: also of one that fails, or that is never finished.
-/

namespace PocketLisp

inductive Moment where
  | begins (expression : Value) (m : Machine)
  | returns (value : Value) (m : Machine)
  | fails (fault : Fault) (m : Machine)

/-- Evaluation under the eyes of a watcher, who interrupts where there is an outcome. -/
def watched (interrupt : Moment → Option (Outcome Value)) (limits : Limits) :
    (fuel : Nat) → (expression : Value) → Run Value
  | 0, _ => Run.outOfFuel
  | fuel + 1, expression => fun m =>
    match interrupt (.begins expression m) with
    | some outcome => outcome
    | none =>
      match Evaluation.step limits fuel (watched interrupt limits fuel) expression m with
      | .returned v m' => (interrupt (.returns v m')).getD (.returned v m')
      | .failed fault m' => (interrupt (.fails fault m')).getD (.failed fault m')
      | .exhausted => .exhausted

namespace Correspondence

variable {World Place : Type} (C : Correspondence World Place)

/-- The watcher does not interrupt as long as there is something on the other side. -/
structure Quiet (interrupt : Moment → Option (Outcome Value)) : Prop where
  begins : ∀ {place w m n e e'}, C.Machines place w m n → C.Code place e e' →
    interrupt (.begins e m) = none
  returns : ∀ {place w m n v v'}, C.Machines place w m n → C.Values w v v' →
    interrupt (.returns v m) = none
  fails : ∀ {place w m n fault}, C.Machines place w m n → interrupt (.fails fault m) = none

variable {C}

/-- Being watched makes no difference if the watcher is quiet. -/
theorem Quiet.follows {interrupt : Moment → Option (Outcome Value)} (h : C.Quiet interrupt)
    (limits : Limits) (fuel : Nat) :
    C.Follows (watched interrupt limits fuel) (evaluate limits fuel) := by
  induction fuel with
  | zero => exact fun _ _ _ _ _ => .outOfFuel
  | succ fuel ih =>
      intro place w e e' hcode m n hm
      have hstep := ih.step limits fuel place w e e' hcode m n hm
      unfold watched evaluate
      simp only [h.begins hm hcode]
      generalize Evaluation.step limits fuel (watched interrupt limits fuel) e m = x,
        Evaluation.step limits fuel (evaluate limits fuel) e' n = y at hstep
      cases hstep with
      | returned later value machines =>
          dsimp only
          rw [h.returns machines value, Option.getD_none]
          exact .returned later value machines
      | failed later fault machines =>
          dsimp only
          rw [h.fails machines, Option.getD_none]
          exact .failed later fault machines
      | exhausted => exact .exhausted

end Correspondence

end PocketLisp
