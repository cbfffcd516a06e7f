import PocketLisp.Proofs.Calculation
import PocketLisp.Proofs.Conversion

/-!
# Comparison of numbers

Two integers are compared exactly, and a mixed pair where the integer stands once it is a float.
Conversion keeps the order of the integers, so that the two ways do not contradict each other:
"less" is a strict order of the numbers of both kinds, and of "less", "equal" and "greater" just one
holds unless there is a NaN. Chains of equalities are left out: two integers may equal one float.
-/

namespace PocketLisp

namespace Number

/-- A NaN, which only a float can be. -/
def isNaN : Number → Bool
  | .integer _ => false
  | .float x => x.isNaN

/-- Where the number stands once it is a float. -/
def place? (a : Number) : Option (WithBot (WithTop ℚ)) :=
  (Binary.ofFloat a.toFloat).place?

/-- How two numbers compare, if they do. -/
def order? : Number → Number → Option Ordering
  | .integer m, .integer n => some (compare m.toInt n.toInt)
  | a, b => (Binary.ofFloat a.toFloat).order? (Binary.ofFloat b.toFloat)

theorem order?_swap (a b : Number) : b.order? a = (a.order? b).map Ordering.swap := by
  cases a with
  | integer m =>
      cases b with
      | integer n => exact congrArg some Std.OrientedCmp.eq_swap
      | float y => exact Binary.order?_swap
  | float x => cases b <;> exact Binary.order?_swap

theorem compareFloats?_eq (x y : Float) :
    compareFloats? x y = (Binary.ofFloat x).order? (Binary.ofFloat y) := by
  unfold compareFloats?
  simp only [Binary.lt_iff_order?, Binary.beq_iff_order?]
  rw [Binary.order?_swap (a := Binary.ofFloat x)]
  cases (Binary.ofFloat x).order? (Binary.ofFloat y) with
  | none => rfl
  | some o => cases o <;> rfl

theorem compare?_eq (a b : Number) : a.compare? b = a.order? b := by
  cases a with
  | integer m =>
      cases b with
      | integer n => rfl
      | float y => exact compareFloats?_eq _ y
  | float x => exact compareFloats?_eq x _

theorem equal_iff {a b : Number} : a.equal b = true ↔ a.order? b = some .eq := by
  cases a with
  | integer m =>
      cases b with
      | integer n =>
          simp only [equal, order?, beq_iff_eq, Option.some.injEq, compare_eq_iff_eq]
          exact Int64.toInt_inj.symm
      | float y => exact Binary.beq_iff_order?
  | float x => exact Binary.beq_iff_order?

theorem order?_self_ne_lt (a : Number) : a.order? a ≠ some .lt := by
  intro h
  have hswap := order?_swap a a
  rw [h] at hswap
  cases hswap

theorem place?_integer (n : Int64) :
    ∃ q : ℚ, (Number.integer n).place? = some (q : WithTop ℚ) ∧ Rounds n.toInt q := by
  have hlow := n.le_toInt
  have hhigh := n.toInt_lt
  obtain ⟨q, hq, hrounds⟩ := rational?_floatOfInt (n := n.toInt) (by omega)
  exact ⟨q, Binary.place?_of_rational? hq, hrounds⟩

theorem place?_eq_none {a : Number} : a.place? = none ↔ a.isNaN = true := by
  cases a with
  | integer n =>
      obtain ⟨q, hq, -⟩ := place?_integer n
      simp [hq, isNaN]
  | float x => exact Binary.place?_eq_none

theorem order?_eq_none {a b : Number} : a.order? b = none ↔ a.isNaN = true ∨ b.isNaN = true := by
  have hplaces : (Binary.ofFloat a.toFloat).order? (Binary.ofFloat b.toFloat) = none ↔
      a.isNaN = true ∨ b.isNaN = true := by
    rw [← place?_eq_none, ← place?_eq_none]
    exact Binary.order?_eq_none
  cases a with
  | integer m =>
      cases b with
      | integer n => simp [order?, isNaN]
      | float y => exact hplaces
  | float x => exact hplaces

/-- A greater integer does not stand before a smaller one. -/
theorem place_le_of_le {m n : Int64} {p q : WithBot (WithTop ℚ)}
    (hp : (Number.integer m).place? = some p) (hq : (Number.integer n).place? = some q)
    (h : m.toInt ≤ n.toInt) : p ≤ q := by
  obtain ⟨p', hp', hm⟩ := place?_integer m
  obtain ⟨q', hq', hn⟩ := place?_integer n
  obtain rfl := Option.some.inj (hp.symm.trans hp')
  obtain rfl := Option.some.inj (hq.symm.trans hq')
  exact WithBot.coe_le_coe.mpr (WithTop.coe_le_coe.mpr (hm.mono hn h))

theorem order?_of_place_lt {a b : Number} {p q : WithBot (WithTop ℚ)} (hp : a.place? = some p)
    (hq : b.place? = some q) (h : p < q) : a.order? b = some .lt := by
  have hplaces : (Binary.ofFloat a.toFloat).order? (Binary.ofFloat b.toFloat) = some .lt := by
    rw [Binary.order?_of_place? hp hq, compare_lt_iff_lt.mpr h]
  cases a with
  | integer m =>
      cases b with
      | integer n =>
          have hlt : m.toInt < n.toInt := by
            by_contra hle
            exact absurd (place_le_of_le hq hp (by omega)) (not_le.mpr h)
          rw [order?, compare_lt_iff_lt.mpr hlt]
      | float y => exact hplaces
  | float x => exact hplaces

/-- What is less stands before, or is the smaller one of two integers: these may have one place. -/
theorem less_cases {a b : Number} (h : a.order? b = some .lt) :
    (∃ m n, a = .integer m ∧ b = .integer n ∧ m.toInt < n.toInt) ∨
      ∃ p q, a.place? = some p ∧ b.place? = some q ∧ p < q := by
  have hplaces (hlt : (Binary.ofFloat a.toFloat).order? (Binary.ofFloat b.toFloat) = some .lt) :
      ∃ p q, a.place? = some p ∧ b.place? = some q ∧ p < q := by
    obtain ⟨p, hp, hrest⟩ := Option.bind_eq_some_iff.mp hlt
    obtain ⟨q, hq, hpq⟩ := Option.map_eq_some_iff.mp hrest
    exact ⟨p, q, hp, hq, compare_lt_iff_lt.mp hpq⟩
  cases a with
  | integer m =>
      cases b with
      | integer n => exact Or.inl ⟨m, n, rfl, rfl, compare_lt_iff_lt.mp (Option.some.inj h)⟩
      | float y => exact Or.inr (hplaces h)
  | float x => exact Or.inr (hplaces h)

/-- Of two steps one may be made within one place, by integers; then the other one leads out of that
place, or is made by integers too. -/
theorem less_trans {a b c : Number} (hab : a.order? b = some .lt) (hbc : b.order? c = some .lt) :
    a.order? c = some .lt := by
  rcases less_cases hab with ⟨k, m, rfl, rfl, hkm⟩ | ⟨p, q, hp, hq, hpq⟩
  · rcases less_cases hbc with ⟨_, n, hm, rfl, hmn⟩ | ⟨q, r, hq, hr, hqr⟩
    · cases hm
      rw [order?, compare_lt_iff_lt.mpr (hkm.trans hmn)]
    · obtain ⟨p, hp, -⟩ := place?_integer k
      exact order?_of_place_lt hp hr ((place_le_of_le hp hq hkm.le).trans_lt hqr)
  · rcases less_cases hbc with ⟨m, n, rfl, rfl, hmn⟩ | ⟨_, r, hq', hr, hqr⟩
    · obtain ⟨r, hr, -⟩ := place?_integer n
      exact order?_of_place_lt hp hr (hpq.trans_le (place_le_of_le hq hr hmn.le))
    · obtain rfl := Option.some.inj (hq.symm.trans hq')
      exact order?_of_place_lt hp hr (hpq.trans hqr)

end Number

namespace Primitive

/-- The primitive that asks whether its operands compare so. -/
def comparison : Ordering → Primitive
  | .lt => .less
  | .eq => .equal
  | .gt => .greater

theorem comparison_mem (o : Ordering) : comparison o ∈ [less, equal, greater] := by
  cases o <;> decide

theorem exists_comparison {p : Primitive} (h : p ∈ [less, equal, greater]) :
    ∃ o, comparison o = p := by
  revert p
  decide

/-- A test that only one ordering passes. -/
theorem any_compare? {test : Ordering → Bool} {o : Ordering}
    (htest : ∀ o', test o' = decide (o' = o)) (a b : Number) :
    (a.compare? b).any test = decide (a.order? b = some o) := by
  rw [Number.compare?_eq]
  cases a.order? b with
  | none => rfl
  | some o' => simp only [Option.any_some, htest, Option.some.injEq]

theorem answers_onComparison {p : Primitive} {test : Ordering → Bool} {o : Ordering}
    (hp : p.operation = onComparison test) (htest : ∀ o', test o' = decide (o' = o))
    (a b : Number) :
    p.Answers [.number a, .number b] (.ok (.ofBool (decide (a.order? b = some o)))) := by
  rw [← any_compare? htest]
  exact answers_onNumbers hp rfl

theorem answers_comparison (o : Ordering) (a b : Number) :
    (comparison o).Answers [.number a, .number b]
      (.ok (.ofBool (decide (a.order? b = some o)))) := by
  cases o with
  | lt => exact answers_onComparison rfl (fun o' => by cases o' <;> rfl) a b
  | eq =>
      simp only [← Number.equal_iff, Bool.decide_eq_true]
      exact answers_of_onArguments? rfl
  | gt => exact answers_onComparison rfl (fun o' => by cases o' <;> rfl) a b

theorem answers_truth {o : Ordering} {a b : Number} (h : a.order? b = some o) :
    (comparison o).Answers [.number a, .number b] (.ok .truth) := by
  have hanswers := answers_comparison o a b
  rwa [decide_eq_true h] at hanswers

theorem answers_null {o : Ordering} {a b : Number} (h : a.order? b ≠ some o) :
    (comparison o).Answers [.number a, .number b] (.ok .null) := by
  have hanswers := answers_comparison o a b
  rwa [decide_eq_false h] at hanswers

theorem order?_of_answers {o : Ordering} {a b : Number}
    (h : (comparison o).Answers [.number a, .number b] (.ok .truth)) : a.order? b = some o := by
  by_contra hne
  cases h.unique (answers_null hne)

theorem answers_less_iff (a b : Number) (r : Except Fault Value) :
    less.Answers [.number a, .number b] r ↔ greater.Answers [.number b, .number a] r := by
  have hmirror : b.order? a = some .gt ↔ a.order? b = some .lt := by
    rw [Number.order?_swap a b]
    cases a.order? b with
    | none => decide
    | some o => cases o <;> decide
  have hless := answers_comparison .lt a b
  have hgreater := answers_comparison .gt b a
  rw [decide_eq_decide.mpr hmirror] at hgreater
  constructor
  · intro h
    rw [h.unique hless]
    exact hgreater
  · intro h
    rw [h.unique hgreater]
    exact hless

/-- With a NaN every comparison answers no; without, just one answers yes. "Less" and "greater"
exchange their operands, and "less" is a strict order of the numbers of both kinds. -/
theorem comparisons_coherent :
    (∀ a b : Number, a.isNaN = true ∨ b.isNaN = true →
      ∀ p ∈ [less, equal, greater], p.Answers [.number a, .number b] (.ok .null)) ∧
    (∀ a b : Number, a.isNaN = false → b.isNaN = false →
      ∃ p ∈ [less, equal, greater], p.Answers [.number a, .number b] (.ok .truth) ∧
        ∀ p' ∈ [less, equal, greater], p' ≠ p →
          p'.Answers [.number a, .number b] (.ok .null)) ∧
    (∀ (a b : Number) (r : Except Fault Value),
      less.Answers [.number a, .number b] r ↔ greater.Answers [.number b, .number a] r) ∧
    (∀ a : Number, less.Answers [.number a, .number a] (.ok .null)) ∧
    ∀ a b c : Number, less.Answers [.number a, .number b] (.ok .truth) →
      less.Answers [.number b, .number c] (.ok .truth) →
      less.Answers [.number a, .number c] (.ok .truth) := by
  refine ⟨?_, ?_, answers_less_iff, ?_, ?_⟩
  · intro a b hnan p hp
    obtain ⟨o, rfl⟩ := exists_comparison hp
    apply answers_null
    rw [Number.order?_eq_none.mpr hnan]
    exact (Option.some_ne_none o).symm
  · intro a b ha hb
    obtain ⟨o, ho⟩ : ∃ o, a.order? b = some o := by
      rw [← Option.ne_none_iff_exists', ne_eq, Number.order?_eq_none, ha, hb]
      decide
    refine ⟨comparison o, comparison_mem o, answers_truth ho, ?_⟩
    intro p' hp' hne
    obtain ⟨o', rfl⟩ := exists_comparison hp'
    apply answers_null
    rw [ho]
    intro heq
    obtain rfl := Option.some.inj heq
    exact hne rfl
  · intro a
    exact answers_null (o := .lt) a.order?_self_ne_lt
  · intro a b c hab hbc
    have hab' := order?_of_answers (o := .lt) hab
    have hbc' := order?_of_answers (o := .lt) hbc
    exact answers_truth (o := .lt) (Number.less_trans hab' hbc')

/-- Beyond `2 ^ 53` an integer equals the float at its place, which a smaller integer may share; both
are less than the next float. A NaN is not compared. -/
theorem comparisons_coherent_onePlace :
    less.Answers [.number (.integer 9007199254740992), .number (.float 9007199254740994.0)]
      (.ok .truth) ∧
    (equal.Answers [.number (.integer 9007199254740993), .number (.float 9007199254740992.0)]
        (.ok .truth) ∧
      greater.Answers [.number (.integer 9007199254740993), .number (.float 9007199254740992.0)]
        (.ok .null)) ∧
    equal.Answers [.number (.integer 9007199254740993), .number (.float (0.0 / 0.0))]
      (.ok .null) := by
  obtain ⟨hnan, hone, _, _, htrans⟩ := comparisons_coherent
  refine ⟨?_, ?_, ?_⟩
  · have hfirst : (Number.integer 9007199254740992).compare? (.integer 9007199254740993) =
        some .lt := by
      decide
    have hsecond : (Number.integer 9007199254740993).compare? (.float 9007199254740994.0) =
        some .lt := by
      decide +kernel
    rw [Number.compare?_eq] at hfirst hsecond
    exact htrans _ _ _ (answers_truth (o := .lt) hfirst) (answers_truth (o := .lt) hsecond)
  · have hequal : (Number.integer 9007199254740993).equal (.float 9007199254740992.0) = true := by
      decide +kernel
    have htruth := answers_truth (o := .eq) (Number.equal_iff.mp hequal)
    obtain ⟨p, _, _, hothers⟩ := hone (.integer 9007199254740993) (.float 9007199254740992.0)
      rfl (by decide +kernel)
    obtain rfl : equal = p := by
      by_contra hne
      cases htruth.unique (hothers equal (by decide) hne)
    exact ⟨htruth, hothers greater (by decide) (by decide)⟩
  · exact hnan _ _ (Or.inr (by decide +kernel)) equal (by decide)

end Primitive

end PocketLisp
