/-!
# Limits

Bounds and policies of an evaluation. A bound that is absent never stops anything.
-/

namespace PocketLisp

structure Limits where
  /-- Passes through the body of a single loop. -/
  maxIterations : Option Nat := none
  /-- Procedure calls in progress at one time. -/
  maxDepth : Option Nat := some 256
  /-- Whether a procedure may be defined again under its name. -/
  allowRedefinition : Bool := true
  deriving DecidableEq, Repr

namespace Limits

/-- The bound that entering a loop body for the `pass`-th time would break. -/
def brokenByPass (limits : Limits) (pass : Nat) : Option Nat :=
  limits.maxIterations.filter (· < pass)

/-- The bound that one more call would break when `depth` calls are in progress. -/
def brokenByCall (limits : Limits) (depth : Nat) : Option Nat :=
  limits.maxDepth.filter (· ≤ depth)

theorem brokenByPass_eq_none {limits : Limits} {pass : Nat} :
    limits.brokenByPass pass = none ↔
      ∀ bound, limits.maxIterations = some bound → pass ≤ bound := by
  unfold brokenByPass
  cases limits.maxIterations <;> simp [Option.filter_some]

theorem brokenByCall_eq_none {limits : Limits} {depth : Nat} :
    limits.brokenByCall depth = none ↔
      ∀ bound, limits.maxDepth = some bound → depth < bound := by
  unfold brokenByCall
  cases limits.maxDepth <;> simp [Option.filter_some]

end Limits

end PocketLisp
