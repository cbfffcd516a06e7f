import Mathlib.Data.List.Forall2
import PocketLisp.Proofs.Operators

/-!
# Integer calculations

Sums, differences, products and absolute values of integers, nested to any depth, are calculated
exactly: the value is the mathematical one, or the calculation overflows. An overflow anywhere inside
is an overflow of the whole, also where the whole would fit again. Floats are left out.
-/

namespace PocketLisp

open Evaluation

namespace Number

/-- The integers of 64 bits: from `-2 ^ 63` to `2 ^ 63 - 1`. -/
def InRange (n : Int) : Prop :=
  Int64.minValue.toInt ≤ n ∧ n ≤ Int64.maxValue.toInt

instance (n : Int) : Decidable (InRange n) :=
  inferInstanceAs (Decidable (_ ∧ _))

theorem inRange_toInt (n : Int64) : InRange n.toInt :=
  ⟨n.minValue_le_toInt, n.toInt_le⟩

theorem ofInt?_of_inRange {n : Int} (h : InRange n) :
    ∃ k : Int64, k.toInt = n ∧ ofInt? n = some (.integer k) := by
  have hlow : Int64.minValue.toInt ≤ n := h.1
  have hhigh : n ≤ Int64.maxValue.toInt := h.2
  rw [Int64.toInt_minValue] at hlow
  rw [Int64.toInt_maxValue] at hhigh
  exact ⟨Int64.ofInt n, Int64.toInt_ofInt_of_le hlow (by omega), if_pos h⟩

theorem ofInt?_of_not_inRange {n : Int} (h : ¬ InRange n) : ofInt? n = none :=
  if_neg h

end Number

namespace Primitive

/-- To these arguments the primitive answers `r`, in every machine, and leaves no trace but in the
journal. -/
def Answers (p : Primitive) (args : List Value) (r : Except Fault Value) : Prop :=
  ∀ m, ∃ m', (callPrimitive p args m).answer? = some (r, m') ∧ m'.Twin m

theorem answers_of_onArguments? {p : Primitive} {args : List Value} {r : Except Fault Value}
    (h : p.operation.onArguments? args = some fun s => (r, s)) : p.Answers args r :=
  fun m => ⟨_, answer?_callPrimitive h m, ⟨rfl, rfl, rfl⟩⟩

theorem Answers.unique {p : Primitive} {args : List Value} {r r' : Except Fault Value}
    (h : p.Answers args r) (h' : p.Answers args r') : r = r' := by
  obtain ⟨m, hm, _⟩ := h ⟨.empty, .empty, {}, {}⟩
  obtain ⟨m', hm', _⟩ := h' ⟨.empty, .empty, {}, {}⟩
  exact congrArg Prod.fst (Option.some.inj (hm.symm.trans hm'))

theorem answers_onNumber {p : Primitive} {f : Number → Except Fault Value}
    (hp : p.operation = onNumber f) {n : Number} {r : Except Fault Value} (h : f n = r) :
    p.Answers [.number n] r :=
  answers_of_onArguments? (by rw [hp, ← h]; rfl)

theorem answers_onNumbers {p : Primitive} {f : Number → Number → Except Fault Value}
    (hp : p.operation = onNumbers f) {a b : Number} {r : Except Fault Value} (h : f a b = r) :
    p.Answers [.number a, .number b] r :=
  answers_of_onArguments? (by rw [hp, ← h]; rfl)

/-- The result of exact arithmetic. -/
def exactResult (n : Int) : Except Fault Value :=
  numberOr .overflow (Number.ofInt? n)

theorem exactResult_of_inRange {n : Int} (h : Number.InRange n) :
    ∃ k : Int64, k.toInt = n ∧ exactResult n = .ok (.number (.integer k)) := by
  obtain ⟨k, hk, hsome⟩ := Number.ofInt?_of_inRange h
  refine ⟨k, hk, ?_⟩
  rw [exactResult, hsome]
  rfl

theorem exactResult_of_not_inRange {n : Int} (h : ¬ Number.InRange n) :
    exactResult n = .error .overflow := by
  rw [exactResult, Number.ofInt?_of_not_inRange h]
  rfl

theorem answers_abs (a : Int64) :
    Primitive.abs.Answers [.number (.integer a)] (exactResult a.toInt.natAbs) :=
  answers_onNumber rfl rfl

end Primitive

section Operands

variable {limits : Limits} {m : Machine}

/-- The expression answers `r` in this machine, and leaves no trace but in the journal. -/
def Quietly (limits : Limits) (m : Machine) (e : Value) (r : Except Fault Value) : Prop :=
  Yields (evaluate limits · e) m r m

/-- What is answered without a trace is answered again, whatever the journal says by then. -/
theorem Quietly.finishes {e : Value} {r : Except Fault Value} (h : Quietly limits m e r)
    {n : Machine} (hn : n.Twin m) : ∃ n', Finishes (evaluate limits · e) n r n' ∧ n'.Twin m := by
  obtain ⟨m', ⟨fuel, hrun⟩, htwin⟩ := h
  obtain ⟨n', hrun', htwin'⟩ := twin_evaluate limits fuel e m n r m' hn.symm hrun
  exact ⟨n', ⟨fuel, hrun'⟩, htwin'.symm.trans htwin⟩

theorem operandsEnd_of_quietly {es args : List Value}
    (h : List.Forall₂ (fun e v => Quietly limits m e (.ok v)) es args) {n : Machine}
    (hn : n.Twin m) : ∃ n', OperandsEnd limits es n (.ok args) n' ∧ n'.Twin m := by
  induction h generalizing n with
  | nil => exact ⟨n, .nil n, hn⟩
  | cons hfirst _ ih =>
      obtain ⟨n₁, hrun, hn₁⟩ := hfirst.finishes hn
      obtain ⟨n₂, hrest, hn₂⟩ := ih hn₁
      exact ⟨n₂, .cons hrun hrest, hn₂⟩

/-- The first operand that fails is the last one that is evaluated. -/
theorem operandsEnd_of_fault {before args : List Value}
    (h : List.Forall₂ (fun e v => Quietly limits m e (.ok v)) before args) {e : Value}
    {fault : Fault} (he : Quietly limits m e (.error fault)) (after : List Value) {n : Machine}
    (hn : n.Twin m) :
    ∃ n', OperandsEnd limits (before ++ e :: after) n (.error fault) n' ∧ n'.Twin m := by
  induction h generalizing n with
  | nil =>
      obtain ⟨n', hrun, hn'⟩ := he.finishes hn
      exact ⟨n', .failed hrun, hn'⟩
  | cons hfirst _ ih =>
      obtain ⟨n₁, hrun, hn₁⟩ := hfirst.finishes hn
      obtain ⟨n₂, hrest, hn₂⟩ := ih hn₁
      exact ⟨n₂, .cons hrun hrest, hn₂⟩

/-- A call of a primitive under a name for it, which no procedure has taken. -/
theorem quietly_of_answers {p : Primitive} {name : Symbol} (hfree : m.registry.get? name = none)
    (hspells : Primitive.ofName? (Text.upperCase name) = some p) {es args : List Value}
    (h : List.Forall₂ (fun e v => Quietly limits m e (.ok v)) es args) {r : Except Fault Value}
    (hanswers : p.Answers args r) : Quietly limits m (.list (.symbol name :: es)) r := by
  obtain ⟨n, hends, hn⟩ := operandsEnd_of_quietly h ⟨rfl, rfl, rfl⟩
  obtain ⟨n', hcall, hn'⟩ := hanswers n
  have happlied : ApplicationEnds limits (.primitive p) es m r n' := .applied hends ⟨0, hcall⟩
  exact ((StandsFor.primitive hfree hspells).yields_iff es r m).mpr ⟨n', happlied, hn'.trans hn⟩

theorem quietly_of_fault {p : Primitive} {name : Symbol} (hfree : m.registry.get? name = none)
    (hspells : Primitive.ofName? (Text.upperCase name) = some p) {before args : List Value}
    (h : List.Forall₂ (fun e v => Quietly limits m e (.ok v)) before args) {e : Value}
    {fault : Fault} (he : Quietly limits m e (.error fault)) (after : List Value) :
    Quietly limits m (.list (.symbol name :: (before ++ e :: after))) (.error fault) := by
  obtain ⟨n, hends, hn⟩ := operandsEnd_of_fault h he after ⟨rfl, rfl, rfl⟩
  have hfailed : ApplicationEnds limits (.primitive p) _ m (.error fault) n := .operandFailed hends
  exact ((StandsFor.primitive hfree hspells).yields_iff _ _ m).mpr ⟨n, hfailed, hn⟩

end Operands

/-- A name under which a primitive is found, if no procedure has taken it. -/
structure Spelling (p : Primitive) where
  name : Symbol
  spells : Primitive.ofName? (Text.upperCase name) = some p

inductive Operator where
  | plus
  | minus
  | times
  deriving DecidableEq, Repr

namespace Operator

def primitive : Operator → Primitive
  | .plus => .add
  | .minus => .subtract
  | .times => .multiply

def exactly : Operator → Int → Int → Int
  | .plus => (· + ·)
  | .minus => (· - ·)
  | .times => (· * ·)

theorem answers_primitive (op : Operator) (a b : Int64) :
    op.primitive.Answers [.number (.integer a), .number (.integer b)]
      (Primitive.exactResult (op.exactly a.toInt b.toInt)) := by
  cases op with
  | plus => exact Primitive.answers_onNumbers rfl rfl
  | minus => exact Primitive.answers_onNumbers rfl rfl
  | times => exact Primitive.answers_onNumbers rfl rfl

end Operator

inductive Calculation where
  | literal (n : Int64)
  | magnitude (head : Spelling .abs) (operand : Calculation)
  | combination (op : Operator) (head : Spelling op.primitive) (left right : Calculation)

namespace Calculation

/-- The calculation as a program. -/
def expression : Calculation → Value
  | .literal n => .number (.integer n)
  | .magnitude head operand => .list [.symbol head.name, operand.expression]
  | .combination _ head left right =>
    .list [.symbol head.name, left.expression, right.expression]

/-- The names that the program uses as heads. -/
def heads : Calculation → List Symbol
  | .literal _ => []
  | .magnitude head operand => head.name :: operand.heads
  | .combination _ head left right => head.name :: (left.heads ++ right.heads)

/-- The mathematical value. -/
def value : Calculation → Int
  | .literal n => n.toInt
  | .magnitude _ operand => operand.value.natAbs
  | .combination op _ left right => op.exactly left.value right.value

/-- The values of the calculation and of all its parts are in range. -/
def Fits : Calculation → Prop
  | .literal n => Number.InRange n.toInt
  | .magnitude _ operand => Number.InRange operand.value.natAbs ∧ operand.Fits
  | .combination op _ left right =>
    Number.InRange (op.exactly left.value right.value) ∧ left.Fits ∧ right.Fits

instance decidableFits : (c : Calculation) → Decidable c.Fits
  | .literal n => inferInstanceAs (Decidable (Number.InRange n.toInt))
  | .magnitude _ operand =>
    have := decidableFits operand
    inferInstanceAs (Decidable (Number.InRange operand.value.natAbs ∧ operand.Fits))
  | .combination op _ left right =>
    have := decidableFits left
    have := decidableFits right
    inferInstanceAs (Decidable
      (Number.InRange (op.exactly left.value right.value) ∧ left.Fits ∧ right.Fits))

/-- No procedure has the name of an operation. -/
def Free (c : Calculation) (m : Machine) : Prop :=
  ∀ name ∈ c.heads, m.registry.contains name = false

section Parts

variable {m : Machine}

theorem Free.operand {head : Spelling .abs} {operand : Calculation}
    (h : (magnitude head operand).Free m) :
    m.registry.get? head.name = none ∧ operand.Free m := by
  obtain ⟨hhead, hoperand⟩ := List.forall_mem_cons.mp h
  exact ⟨Registry.get?_eq_none hhead, hoperand⟩

theorem Free.operands {op : Operator} {head : Spelling op.primitive} {left right : Calculation}
    (h : (combination op head left right).Free m) :
    m.registry.get? head.name = none ∧ left.Free m ∧ right.Free m := by
  obtain ⟨hhead, hoperands⟩ := List.forall_mem_cons.mp h
  obtain ⟨hleft, hright⟩ := List.forall_mem_append.mp hoperands
  exact ⟨Registry.get?_eq_none hhead, hleft, hright⟩

end Parts

section Runs

variable {m : Machine} (limits : Limits)

theorem quietly_literal (n : Int64) :
    Quietly limits m (.number (.integer n)) (.ok (.number (.integer n))) :=
  ⟨m.record (.evaluating (.number (.integer n))), ⟨1, rfl⟩, m.twin_record _⟩

/-- What fits is calculated. The induction is on the calculation: its operands fit, so that their
values are integers, and the operation is exact on these. -/
theorem quietly_of_fits {c : Calculation} (hfree : c.Free m) (h : c.Fits) :
    ∃ n : Int64, n.toInt = c.value ∧
      Quietly limits m c.expression (.ok (.number (.integer n))) := by
  induction c with
  | literal n => exact ⟨n, rfl, quietly_literal limits n⟩
  | magnitude head operand ih =>
      obtain ⟨hhead, hoperand⟩ := hfree.operand
      obtain ⟨hrange, hfits⟩ := h
      obtain ⟨a, ha, hrun⟩ := ih hoperand hfits
      rw [← ha] at hrange
      obtain ⟨n, hn, hresult⟩ := Primitive.exactResult_of_inRange hrange
      have hanswers := Primitive.answers_abs a
      rw [hresult] at hanswers
      refine ⟨n, by rw [hn, ha]; rfl, ?_⟩
      exact quietly_of_answers hhead head.spells (.cons hrun .nil) hanswers
  | combination op head left right ihleft ihright =>
      obtain ⟨hhead, hleft, hright⟩ := hfree.operands
      obtain ⟨hrange, hfits, hfits'⟩ := h
      obtain ⟨a, ha, hrun⟩ := ihleft hleft hfits
      obtain ⟨b, hb, hrun'⟩ := ihright hright hfits'
      rw [← ha, ← hb] at hrange
      obtain ⟨n, hn, hresult⟩ := Primitive.exactResult_of_inRange hrange
      have hanswers := op.answers_primitive a b
      rw [hresult] at hanswers
      refine ⟨n, by rw [hn, ha, hb]; rfl, ?_⟩
      exact quietly_of_answers hhead head.spells (.cons hrun (.cons hrun' .nil)) hanswers

/-- What does not fit overflows: in the first operand that does not fit, or in the operation. -/
theorem quietly_of_not_fits {c : Calculation} (hfree : c.Free m) (h : ¬ c.Fits) :
    Quietly limits m c.expression (.error .overflow) := by
  induction c with
  | literal n => exact absurd (Number.inRange_toInt n) h
  | magnitude head operand ih =>
      obtain ⟨hhead, hoperand⟩ := hfree.operand
      by_cases hfits : operand.Fits
      · obtain ⟨a, ha, hrun⟩ := quietly_of_fits limits hoperand hfits
        have hrange : ¬ Number.InRange a.toInt.natAbs := by
          rw [ha]
          exact fun hrange => h ⟨hrange, hfits⟩
        have hanswers := Primitive.answers_abs a
        rw [Primitive.exactResult_of_not_inRange hrange] at hanswers
        exact quietly_of_answers hhead head.spells (.cons hrun .nil) hanswers
      · exact quietly_of_fault hhead head.spells .nil (ih hoperand hfits) []
  | combination op head left right ihleft ihright =>
      obtain ⟨hhead, hleft, hright⟩ := hfree.operands
      by_cases hfits : left.Fits
      · obtain ⟨a, ha, hrun⟩ := quietly_of_fits limits hleft hfits
        by_cases hfits' : right.Fits
        · obtain ⟨b, hb, hrun'⟩ := quietly_of_fits limits hright hfits'
          have hrange : ¬ Number.InRange (op.exactly a.toInt b.toInt) := by
            rw [ha, hb]
            exact fun hrange => h ⟨hrange, hfits, hfits'⟩
          have hanswers := op.answers_primitive a b
          rw [Primitive.exactResult_of_not_inRange hrange] at hanswers
          exact quietly_of_answers hhead head.spells (.cons hrun (.cons hrun' .nil)) hanswers
        · exact quietly_of_fault hhead head.spells (.cons hrun .nil) (ihright hright hfits') []
      · exact quietly_of_fault hhead head.spells .nil (ihleft hleft hfits) [right.expression]

end Runs

/-- A calculation under names that no procedure has taken ends, with its mathematical value if all
parts of it are in range and with an overflow if not, and the machine is as it was but for the
journal. No variable and no limit makes a difference. -/
theorem calculation_exact (c : Calculation) (limits : Limits) (m : Machine)
    (hfree : ∀ name ∈ c.heads, m.registry.contains name = false) :
    (∃ r m', Finishes (evaluate limits · c.expression) m r m') ∧
    ∀ r m', Finishes (evaluate limits · c.expression) m r m' →
      (m'.environment = m.environment ∧ m'.registry = m.registry ∧ m'.sink = m.sink) ∧
      (c.Fits → ∃ n : Int64, r = .ok (.number (.integer n)) ∧ n.toInt = c.value) ∧
      (¬ c.Fits → r = .error .overflow) := by
  have hsteady := steady_evaluate limits c.expression
  by_cases hfits : c.Fits
  · obtain ⟨n, hn, m₁, hrun, htwin⟩ := quietly_of_fits limits hfree hfits
    refine ⟨⟨_, m₁, hrun⟩, ?_⟩
    intro r m' hrun'
    obtain ⟨rfl, rfl⟩ := hsteady.finishes_unique hrun hrun'
    exact ⟨⟨htwin.environment, htwin.registry, htwin.sink⟩, fun _ => ⟨n, rfl, hn⟩,
      fun hnot => absurd hfits hnot⟩
  · obtain ⟨m₁, hrun, htwin⟩ := quietly_of_not_fits limits hfree hfits
    refine ⟨⟨_, m₁, hrun⟩, ?_⟩
    intro r m' hrun'
    obtain ⟨rfl, rfl⟩ := hsteady.finishes_unique hrun hrun'
    exact ⟨⟨htwin.environment, htwin.registry, htwin.sink⟩, fun hyes => absurd hyes hfits,
      fun _ => rfl⟩

/-- `(- -9223372036854775807 1)`, the least integer. -/
def least : Calculation :=
  .combination .minus ⟨"-", by decide +kernel⟩ (.literal (-9223372036854775807)) (.literal 1)

/-- `(- (Abs …) 1)` of the least integer, which would be the greatest. -/
def greatestThroughAbs : Calculation :=
  .combination .minus ⟨"-", by decide +kernel⟩ (.magnitude ⟨"Abs", by decide +kernel⟩ least)
    (.literal 1)

/-- The least integer is reached by subtraction. Its absolute value overflows, although one less
would be in range. -/
theorem calculation_exact_least :
    (∃ m' n, Finishes (evaluate {} · least.expression) (Session.start {} {} {}).machine
      (.ok (.number (.integer n))) m' ∧ n.toInt = -9223372036854775808) ∧
    (Number.InRange greatestThroughAbs.value ∧
      ∃ m', Finishes (evaluate {} · greatestThroughAbs.expression)
        (Session.start {} {} {}).machine (.error .overflow) m') := by
  have hleast := calculation_exact least {} (Session.start {} {} {}).machine fun _ _ => rfl
  have habs := calculation_exact greatestThroughAbs {} (Session.start {} {} {}).machine
    fun _ _ => rfl
  refine ⟨?_, by decide, ?_⟩
  · obtain ⟨⟨r, m', hrun⟩, hall⟩ := hleast
    obtain ⟨_, hfits, _⟩ := hall r m' hrun
    obtain ⟨n, rfl, hn⟩ := hfits (by decide)
    exact ⟨m', n, hrun, hn⟩
  · obtain ⟨⟨r, m', hrun⟩, hall⟩ := habs
    obtain ⟨_, _, hover⟩ := hall r m' hrun
    obtain rfl := hover (by decide)
    exact ⟨m', hrun⟩

end Calculation

end PocketLisp
