import PocketLisp.Proofs.Faults
import PocketLisp.Proofs.Simulation

/-!
# Loops are bounded iteration

A loop evaluates its test and its body by turns, each in the machine that the one before it left,
and counts the passes through its body. The count belongs to the one execution of the loop: no
machine carries it, so that a loop inside a loop, or the same loop once more, starts from zero. That
a loop ends is not claimed; without a bound it need not.
-/

namespace PocketLisp

open Evaluation

theorem Value.isTruth_iff {v : Value} : v.isTruth = true ↔ v = .truth := by
  cases v with
  | symbol name => simp [isTruth, truth]
  | _ => simp [isTruth, truth]

/-- From one machine to another by so many passes: every time the test is true, and the body
returns a value. -/
inductive Passes (limits : Limits) (test body : Value) : Nat → Machine → Machine → Prop
  | zero (m : Machine) : Passes limits test body 0 m m
  | succ {k : Nat} {m m₁ m₂ m' : Machine} {v : Value}
      (htest : Finishes (evaluate limits · test) m (.ok .truth) m₁)
      (hbody : Finishes (evaluate limits · body) m₁ (.ok v) m₂)
      (hrest : Passes limits test body k m₂ m') : Passes limits test body (k + 1) m m'

/-- How a loop ends once it has made so many passes. -/
inductive LoopEnds (limits : Limits) (test body : Value) (passes : Nat) (m : Machine) :
    Except Fault Value → Machine → Prop
  | finished {v : Value} {m₁ : Machine}
      (htest : Finishes (evaluate limits · test) m (.ok v) m₁) (hv : v ≠ .truth) :
      LoopEnds limits test body passes m (.ok .null) (m₁.record (.loopFinished passes))
  | testFailed {fault : Fault} {m₁ : Machine}
      (htest : Finishes (evaluate limits · test) m (.error fault) m₁) :
      LoopEnds limits test body passes m (.error fault) m₁
  | bodyFailed {fault : Fault} {m₁ m₂ : Machine}
      (htest : Finishes (evaluate limits · test) m (.ok .truth) m₁)
      (hbound : ∀ bound, limits.maxIterations = some bound → passes < bound)
      (hbody : Finishes (evaluate limits · body) m₁ (.error fault) m₂) :
      LoopEnds limits test body passes m (.error fault) m₂
  | stopped {m₁ : Machine} (htest : Finishes (evaluate limits · test) m (.ok .truth) m₁)
      (hbound : limits.maxIterations = some passes) :
      LoopEnds limits test body passes m (.error (.iterationLimit passes)) m₁

/-- All that one pass through a loop can answer: what ends the loop, or what the passes after it
answer. -/
theorem answer?_repeatWhile {limits : Limits} {self : Value → Run Value} {test body : Value}
    {fuel passes : Nat} {m m' : Machine} {r : Except Fault Value} :
    (repeatWhile limits self test body (fuel + 1) passes m).answer? = some (r, m') ↔
      (∃ v m₁, (self test m).answer? = some (.ok v, m₁) ∧ v ≠ .truth ∧ r = .ok .null ∧
        m' = m₁.record (.loopFinished passes)) ∨
      (∃ fault, (self test m).answer? = some (.error fault, m') ∧ r = .error fault) ∨
      (∃ bound, (self test m).answer? = some (.ok .truth, m') ∧
        limits.brokenByPass (passes + 1) = some bound ∧ r = .error (.iterationLimit bound)) ∨
      (∃ m₁ fault, (self test m).answer? = some (.ok .truth, m₁) ∧
        limits.brokenByPass (passes + 1) = none ∧
        (self body m₁).answer? = some (.error fault, m') ∧ r = .error fault) ∨
      ∃ m₁ v m₂, (self test m).answer? = some (.ok .truth, m₁) ∧
        limits.brokenByPass (passes + 1) = none ∧ (self body m₁).answer? = some (.ok v, m₂) ∧
        (repeatWhile limits self test body fuel (passes + 1) m₂).answer? = some (r, m') := by
  rw [repeatWhile, Run.answer?_bind]
  constructor
  · rintro (⟨v, m₁, htest, hnext⟩ | hfault)
    · by_cases hv : v.isTruth = true
      · rw [if_pos hv] at hnext
        obtain rfl := Value.isTruth_iff.mp hv
        cases hb : limits.brokenByPass (passes + 1) with
        | some bound =>
            rw [hb] at hnext
            cases hnext
            exact Or.inr (Or.inr (Or.inl ⟨bound, htest, rfl, rfl⟩))
        | none =>
            rw [hb] at hnext
            rcases Run.answer?_bind.mp hnext with ⟨w, m₂, hbody, hrest⟩ | ⟨fault, hbody, he⟩
            · exact Or.inr (Or.inr (Or.inr (Or.inr ⟨m₁, w, m₂, htest, rfl, hbody, hrest⟩)))
            · exact Or.inr (Or.inr (Or.inr (Or.inl ⟨m₁, fault, htest, rfl, hbody, he⟩)))
      · rw [if_neg hv] at hnext
        cases hnext
        exact Or.inl ⟨v, m₁, htest, fun he => hv (Value.isTruth_iff.mpr he), rfl, rfl⟩
    · exact Or.inr (Or.inl hfault)
  · have htruth : Value.truth.isTruth = true := rfl
    rintro (⟨v, m₁, htest, hv, rfl, rfl⟩ | hfault | ⟨bound, htest, hb, rfl⟩ |
      ⟨m₁, fault, htest, hb, hbody, rfl⟩ | ⟨m₁, v, m₂, htest, hb, hbody, hrest⟩)
    · refine Or.inl ⟨v, m₁, htest, ?_⟩
      rw [if_neg fun h => hv (Value.isTruth_iff.mp h)]
      rfl
    · exact Or.inr hfault
    · refine Or.inl ⟨.truth, m', htest, ?_⟩
      rw [if_pos htruth, hb]
      rfl
    · refine Or.inl ⟨.truth, m₁, htest, ?_⟩
      rw [if_pos htruth, hb]
      exact Run.answer?_bind.mpr (Or.inr ⟨fault, hbody, rfl⟩)
    · refine Or.inl ⟨.truth, m₁, htest, ?_⟩
      rw [if_pos htruth, hb]
      exact Run.answer?_bind.mpr (Or.inl ⟨v, m₂, hbody, hrest⟩)

section Counting

variable {limits : Limits} {test body : Value}

/-- A bound that is broken by the next pass, and not before, is the number of passes made. -/
theorem Limits.eq_of_brokenByPass {passes bound : Nat}
    (hwithin : ∀ bound, limits.maxIterations = some bound → passes ≤ bound)
    (h : limits.brokenByPass (passes + 1) = some bound) :
    limits.maxIterations = some passes ∧ bound = passes := by
  obtain ⟨hset, hlt⟩ := Option.filter_eq_some_iff.mp h
  have hle := hwithin bound hset
  have hlt' : bound < passes + 1 := by simpa using hlt
  have heq : bound = passes := by omega
  exact ⟨heq ▸ hset, heq⟩

theorem Limits.brokenByPass_of_eq {passes : Nat} (h : limits.maxIterations = some passes) :
    limits.brokenByPass (passes + 1) = some passes := by
  unfold brokenByPass
  rw [h]
  simp

/-- A loop that has an answer has made some passes and ended after them. The bound is never behind
the count, so it can only be met and not passed. -/
theorem passes_of_repeatWhile {fuel loopFuel passes : Nat} {m m' : Machine}
    {r : Except Fault Value}
    (hwithin : ∀ bound, limits.maxIterations = some bound → passes ≤ bound)
    (h : (repeatWhile limits (evaluate limits fuel) test body loopFuel passes m).answer? =
      some (r, m')) :
    ∃ k n, Passes limits test body k m n ∧
      (∀ bound, limits.maxIterations = some bound → passes + k ≤ bound) ∧
      LoopEnds limits test body (passes + k) n r m' := by
  induction loopFuel generalizing passes m with
  | zero => cases h
  | succ loopFuel ih =>
      rcases answer?_repeatWhile.mp h with ⟨v, m₁, htest, hv, rfl, rfl⟩ | ⟨fault, htest, rfl⟩ |
        ⟨bound, htest, hb, rfl⟩ | ⟨m₁, fault, htest, hb, hbody, rfl⟩ |
        ⟨m₁, v, m₂, htest, hb, hbody, hrest⟩
      · exact ⟨0, m, .zero m, hwithin, .finished ⟨fuel, htest⟩ hv⟩
      · exact ⟨0, m, .zero m, hwithin, .testFailed ⟨fuel, htest⟩⟩
      · obtain ⟨hset, rfl⟩ := Limits.eq_of_brokenByPass hwithin hb
        exact ⟨0, m, .zero m, hwithin, .stopped ⟨fuel, htest⟩ hset⟩
      · exact ⟨0, m, .zero m, hwithin,
          .bodyFailed ⟨fuel, htest⟩ (Limits.brokenByPass_eq_none.mp hb) ⟨fuel, hbody⟩⟩
      · obtain ⟨k, n, hpasses, hwithin', hends⟩ := ih (Limits.brokenByPass_eq_none.mp hb) hrest
        have hcount : passes + 1 + k = passes + (k + 1) := by omega
        rw [hcount] at hends hwithin'
        exact ⟨k + 1, n, .succ ⟨fuel, htest⟩ ⟨fuel, hbody⟩ hpasses, hwithin', hends⟩

theorem repeatWhile_of_loopEnds {passes : Nat} {m m' : Machine} {r : Except Fault Value}
    (h : LoopEnds limits test body passes m r m') :
    ∃ fuel, (repeatWhile limits (evaluate limits fuel) test body 1 passes m).answer? =
      some (r, m') := by
  cases h with
  | finished htest hv =>
      obtain ⟨fuel, htest⟩ := htest
      exact ⟨fuel, answer?_repeatWhile.mpr (Or.inl ⟨_, _, htest, hv, rfl, rfl⟩)⟩
  | testFailed htest =>
      obtain ⟨fuel, htest⟩ := htest
      exact ⟨fuel, answer?_repeatWhile.mpr (Or.inr (Or.inl ⟨_, htest, rfl⟩))⟩
  | bodyFailed htest hbound hbody =>
      obtain ⟨n₁, htest⟩ := htest
      obtain ⟨n₂, hbody⟩ := hbody
      have htest' := (steady_evaluate limits test).answer? (Nat.le_max_left n₁ n₂) htest
      have hbody' := (steady_evaluate limits body).answer? (Nat.le_max_right n₁ n₂) hbody
      have hb : limits.brokenByPass (passes + 1) = none := Limits.brokenByPass_eq_none.mpr hbound
      exact ⟨max n₁ n₂, answer?_repeatWhile.mpr
        (Or.inr (Or.inr (Or.inr (Or.inl ⟨_, _, htest', hb, hbody', rfl⟩))))⟩
  | stopped htest hbound =>
      obtain ⟨fuel, htest⟩ := htest
      exact ⟨fuel, answer?_repeatWhile.mpr
        (Or.inr (Or.inr (Or.inl ⟨passes, htest, Limits.brokenByPass_of_eq hbound, rfl⟩)))⟩

/-- Passes and an end make up a loop. The fuel for the parts has to be enough for all of them at
once, and the fuel of the loop counts its passes. -/
theorem repeatWhile_of_passes {k : Nat} {m n : Machine} (hpasses : Passes limits test body k m n) :
    ∀ {passes : Nat} {m' : Machine} {r : Except Fault Value},
      (∀ bound, limits.maxIterations = some bound → passes + k ≤ bound) →
      LoopEnds limits test body (passes + k) n r m' →
      ∃ fuel, (repeatWhile limits (evaluate limits fuel) test body (k + 1) passes m).answer? =
        some (r, m') := by
  induction hpasses with
  | zero m =>
      intro passes m' r _ hends
      exact repeatWhile_of_loopEnds hends
  | @succ k m m₁ m₂ n v htest hbody _ ih =>
      intro passes m' r hwithin hends
      have hcount : passes + (k + 1) = passes + 1 + k := by omega
      rw [hcount] at hends hwithin
      obtain ⟨n₀, hrest⟩ := ih hwithin hends
      obtain ⟨n₁, htest⟩ := htest
      obtain ⟨n₂, hbody⟩ := hbody
      let fuel := max n₀ (max n₁ n₂)
      have h₀ : n₀ ≤ fuel := Nat.le_max_left _ _
      have h₁ : n₁ ≤ fuel := by omega
      have h₂ : n₂ ≤ fuel := by omega
      have hb : limits.brokenByPass (passes + 1) = none := by
        apply Limits.brokenByPass_eq_none.mpr
        intro bound hset
        have hle := hwithin bound hset
        omega
      obtain ⟨_, hrest', rfl⟩ := steady_repeatWhile limits (steady_evaluate limits test n₀ fuel h₀)
        (steady_evaluate limits body n₀ fuel h₀) (Nat.le_refl (k + 1)) (passes + 1) _ _ r m' rfl
        hrest
      have htest' := (steady_evaluate limits test).answer? h₁ htest
      have hbody' := (steady_evaluate limits body).answer? h₂ hbody
      exact ⟨fuel, answer?_repeatWhile.mpr
        (Or.inr (Or.inr (Or.inr (Or.inr ⟨m₁, v, m₂, htest', hb, hbody', hrest'⟩))))⟩

end Counting

/-- The machine in which the first test of a loop is evaluated: two events are noted. -/
def Machine.looping (m : Machine) (e : Value) : Machine :=
  (m.record (.evaluating e)).record (.specialForm .loop)

theorem evaluate_loop {head : Value} (hk : keyword? head = some .loop) (limits : Limits)
    (fuel : Nat) (test body : Value) (m : Machine) :
    evaluate limits (fuel + 1) (.list [head, test, body]) m =
      repeatWhile limits (evaluate limits fuel) test body fuel 0
        (m.looping (.list [head, test, body])) := by
  show step limits fuel (evaluate limits fuel) _ m = _
  simp only [step, evaluateList, hk]
  rfl

/-- A loop makes passes, as many as it can and never more than the bound, and ends: with the empty
list right after the first test that is not true, with the fault of a test or of a body, or, where
there is a bound and as many passes have been made, with the fault of the bound right after one more
test that is true. Without a bound no loop ends with such a fault, whatever is evaluated in it. -/
theorem loop_iterates {head : Value} (hk : keyword? head = some .loop) (limits : Limits)
    (test body : Value) (m : Machine) :
    (∀ r m', Finishes (evaluate limits · (.list [head, test, body])) m r m' ↔
      ∃ k n, Passes limits test body k (m.looping (.list [head, test, body])) n ∧
        (∀ bound, limits.maxIterations = some bound → k ≤ bound) ∧
        LoopEnds limits test body k n r m') ∧
    (limits.maxIterations = none → ∀ m' bound,
      ¬ Finishes (evaluate limits · (.list [head, test, body])) m
        (.error (.iterationLimit bound)) m') := by
  refine ⟨?_, ?_⟩
  · intro r m'
    constructor
    · rintro ⟨fuel, hrun⟩
      cases fuel with
      | zero => cases hrun
      | succ fuel =>
          dsimp only at hrun
          rw [evaluate_loop hk] at hrun
          obtain ⟨k, n, hpasses, hwithin, hends⟩ :=
            passes_of_repeatWhile (fun bound _ => Nat.zero_le bound) hrun
          rw [Nat.zero_add] at hends hwithin
          exact ⟨k, n, hpasses, hwithin, hends⟩
    · rintro ⟨k, n, hpasses, hwithin, hends⟩
      rw [← Nat.zero_add k] at hwithin hends
      obtain ⟨fuel, hrun⟩ := repeatWhile_of_passes hpasses hwithin hends
      let enough := max fuel (k + 1)
      have hparts : fuel ≤ enough := Nat.le_max_left _ _
      obtain ⟨_, hrun', rfl⟩ := steady_repeatWhile limits
        (steady_evaluate limits test fuel enough hparts)
        (steady_evaluate limits body fuel enough hparts) (Nat.le_max_right fuel (k + 1)) 0 _ _ r m'
        rfl hrun
      refine ⟨enough + 1, ?_⟩
      dsimp only
      rw [evaluate_loop hk]
      exact hrun'
  · rintro hnone m' bound ⟨fuel, hrun⟩
    have hset : limits.maxIterations = some bound := raises_evaluate limits fuel _ m _ m' hrun
    rw [hnone] at hset
    cases hset

/-- `(SET name ())` -/
def clearing (name : Symbol) : Value :=
  .list [.symbol "SET", .symbol name, .null]

/-- `(while X (SET X ()))` -/
def innerLoop : Value :=
  .list [.symbol "while", .symbol "X", clearing "X"]

/-- `X` and `Y` are true. -/
def bothTrue : Machine :=
  ⟨⟨⟨[("X", .truth), ("Y", .truth)]⟩, []⟩, .empty, {}, {}⟩

/-- Two loops, one in the body of the other, each make the one pass that is allowed; if none is,
the outer one is stopped with its test evaluated and nothing changed, and if there is no bound, it
is not stopped. -/
theorem loop_iterates_nested :
    keyword? (.symbol "while") = some .loop ∧
    Finishes (evaluate { maxIterations := some 1 } ·
        (.list [.symbol "while", .symbol "Y", .list [.symbol "BEGIN", innerLoop, clearing "Y"]]))
      bothTrue (.ok .null) ((bothTrue.set "X" .null).set "Y" .null) ∧
    Finishes (evaluate { maxIterations := some 0 } ·
        (.list [.symbol "while", .symbol "Y", .list [.symbol "BEGIN", innerLoop, clearing "Y"]]))
      bothTrue (.error (.iterationLimit 0)) bothTrue ∧
    ¬ Finishes (evaluate {} ·
        (.list [.symbol "while", .symbol "Y", .list [.symbol "BEGIN", innerLoop, clearing "Y"]]))
      bothTrue (.error (.iterationLimit 0)) bothTrue := by
  have hk : keyword? (.symbol "while") = some .loop := by decide +kernel
  refine ⟨hk, ?_, ?_, (loop_iterates hk _ _ _ _).2 rfl _ _⟩
  · have htest : Finishes (evaluate { maxIterations := some 1 } · (.symbol "Y")) bothTrue
        (.ok .truth) bothTrue := ⟨1, rfl⟩
    have hbody : Finishes (evaluate { maxIterations := some 1 } ·
        (.list [.symbol "BEGIN", innerLoop, clearing "Y"])) bothTrue (.ok .null)
        ((bothTrue.set "X" .null).set "Y" .null) := ⟨4, rfl⟩
    have hlast : Finishes (evaluate { maxIterations := some 1 } · (.symbol "Y"))
        ((bothTrue.set "X" .null).set "Y" .null) (.ok .null)
        ((bothTrue.set "X" .null).set "Y" .null) := ⟨1, rfl⟩
    refine ((loop_iterates hk _ _ _ _).1 _ _).mpr
      ⟨1, _, .succ htest hbody (.zero _), ?_, .finished hlast nofun⟩
    intro bound hset
    exact Nat.le_of_eq (Option.some.inj hset)
  · have htest : Finishes (evaluate { maxIterations := some 0 } · (.symbol "Y")) bothTrue
        (.ok .truth) bothTrue := ⟨1, rfl⟩
    exact ((loop_iterates hk _ _ _ _).1 _ _).mpr
      ⟨0, _, .zero _, fun bound _ => Nat.zero_le bound, .stopped htest rfl⟩

end PocketLisp
