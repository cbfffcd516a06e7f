import PocketLisp.Proofs.Calculation
import PocketLisp.Proofs.Conversion

/-!
# Integral floats as integers

A float that is an integer becomes one of 64 bits by a test and a cast. The test compares its
absolute value with the greatest integer as a float, which is `2 ^ 63` and no integer of 64 bits any
more. So what passes the test is less than `2 ^ 63` on either side of zero, and there the cast loses
nothing; the least integer of all lies on the bound and does not pass. How the float came about is
left out here.
-/

namespace PocketLisp

open Float.Model Float.Model.UnpackedFloat

namespace Binary

theorem value_eq_fraction (m : Nat) (e : Int) :
    value m e = (fraction m e).1 / (fraction m e).2 := by
  unfold value fraction
  split
  · rename_i he
    obtain ⟨k, rfl⟩ := Int.eq_ofNat_of_zero_le he
    simp
  · rename_i he
    obtain ⟨k, rfl⟩ := Int.exists_eq_neg_ofNat (by omega : e ≤ 0)
    simp [div_eq_mul_inv]

theorem fraction_pos (m : Nat) (e : Int) : 0 < (fraction m e).2 := by
  unfold fraction
  split
  · exact Nat.one_pos
  · exact Nat.two_pow_pos _

theorem value_nonneg (m : Nat) (e : Int) : 0 ≤ value m e := by
  unfold value
  positivity

theorem abs_signed (negative : Bool) (m : Nat) (e : Int) : |signed negative m e| = value m e := by
  cases negative with
  | false => exact abs_of_nonneg (value_nonneg m e)
  | true => exact (abs_neg _).trans (abs_of_nonneg (value_nonneg m e))

/-- A float without digits behind the point is an integer. -/
theorem exists_intCast (negative : Bool) (m : Nat) {e : Int} (he : 0 ≤ e) :
    ∃ n : Int, signed negative m e = n := by
  obtain ⟨k, rfl⟩ := Int.eq_ofNat_of_zero_le he
  cases negative with
  | false => exact ⟨m * 2 ^ k, by simp [signed, value]⟩
  | true => exact ⟨-(m * 2 ^ k), by simp [signed, value]⟩

theorem fits_of_ofFloat {x : Float} {negative : Bool} {m : Nat} {e : Int}
    (h : ofFloat x = .finite negative m e) : m < 2 ^ 53 := by
  cases hx : x.toModel.unpack with
  | notANumber =>
      rw [ofFloat_notANumber hx] at h
      cases h
  | infinity s =>
      rw [ofFloat_infinity hx] at h
      cases h
  | zero s =>
      rw [ofFloat_zero hx] at h
      cases h
      decide
  | finite s m' e' hm =>
      rw [ofFloat_finite hx] at h
      cases h
      exact (canonical_of_unpack hx).fits

theorem rational?_isSome (x : Float) : (ofFloat x).rational?.isSome = x.isFinite := by
  change _ = x.toModel.unpack.isFinite
  cases h : x.toModel.unpack with
  | notANumber => simp [ofFloat_notANumber h, rational?, UnpackedFloat.isFinite]
  | infinity s => simp [ofFloat_infinity h, rational?, UnpackedFloat.isFinite]
  | zero s => simp [ofFloat_zero h, rational?, UnpackedFloat.isFinite]
  | finite s m e hm => simp [ofFloat_finite h, rational?, UnpackedFloat.isFinite]

theorem rational?_zero {x : Float} {s : Sign} (h : x.toModel.unpack = .zero s) :
    (ofFloat x).rational? = some 0 := by
  rw [ofFloat_zero h, rational?, signed_zero]

theorem rational?_abs {x : Float} {q : ℚ} (h : (ofFloat x).rational? = some q) :
    (ofFloat x.abs).rational? = some |q| := by
  have habs : x.abs.toModel.unpack = (Float.Model.pack x.toModel.unpack.abs).unpack := rfl
  cases hx : x.toModel.unpack with
  | notANumber =>
      rw [ofFloat_notANumber hx] at h
      cases h
  | infinity s =>
      rw [ofFloat_infinity hx] at h
      cases h
  | zero s =>
      rw [hx] at habs
      rw [rational?_zero hx] at h
      obtain rfl := Option.some.inj h
      rw [rational?_zero (habs.trans Exact.unpack_zero), abs_zero]
  | finite s m e hm =>
      rw [hx] at habs
      rw [ofFloat_finite hx] at h
      obtain rfl := Option.some.inj h
      have hpack := unpack_pack (s := .positive) (canonical_of_unpack hx)
      rw [ofFloat_finite (habs.trans hpack), abs_signed]
      rfl

theorem lt_iff_of_rational? {x y : Float} {p q : ℚ} (hx : (ofFloat x).rational? = some p)
    (hy : (ofFloat y).rational? = some q) : x < y ↔ p < q := by
  rw [lt_iff_order?, order?_of_place? (place?_of_rational? hx) (place?_of_rational? hy),
    compare_coe, Option.some.injEq, compare_lt_iff_lt]

/-- A value that is an integer in range is cast to that integer. -/
theorem toInt_toInt64 {b : Binary} {n : Int} (h : b.rational? = some (n : ℚ))
    (hn : Number.InRange n) : b.toInt64.toInt = n := by
  cases b with
  | notANumber => cases h
  | infinite negative => cases h
  | finite negative m e =>
      have hsigned : signed negative m e = n := Option.some.inj h
      have hnum : (fraction m e).1 = n.natAbs * (fraction m e).2 := by
        have hden : ((fraction m e).2 : ℚ) ≠ 0 := by
          exact_mod_cast (fraction_pos m e).ne'
        have hvalue := abs_signed negative m e
        rw [hsigned, value_eq_fraction, eq_div_iff hden, ← Int.cast_abs,
          Int.abs_eq_natAbs] at hvalue
        exact_mod_cast hvalue.symm
      have hquotient : (fraction m e).1 / (fraction m e).2 = n.natAbs := by
        rw [hnum, Nat.mul_div_cancel _ (fraction_pos m e)]
      have hcast : (if negative then -((n.natAbs : Nat) : Int) else (n.natAbs : Nat)) = n := by
        have hnonneg := value_nonneg m e
        cases negative with
        | false =>
            have hle : (0 : ℚ) ≤ n := hsigned ▸ hnonneg
            have hle' : 0 ≤ n := by exact_mod_cast hle
            simp only [Bool.false_eq_true, ↓reduceIte]
            omega
        | true =>
            have hle : (n : ℚ) ≤ 0 := by
              rw [← hsigned]
              exact neg_nonpos_of_nonneg hnonneg
            have hle' : n ≤ 0 := by exact_mod_cast hle
            simp only [↓reduceIte]
            omega
      change (Int64.ofIntClamp
        (if negative then -(((fraction m e).1 / (fraction m e).2 : Nat) : Int)
        else ((fraction m e).1 / (fraction m e).2 : Nat))).toInt = n
      rw [hquotient, hcast]
      exact Int64.toInt_ofIntClamp hn.1 hn.2

end Binary

namespace Number

/-- The greatest integer is not a float; the float next to it is `2 ^ 63`. -/
theorem rational?_greatest :
    (Binary.ofFloat (toFloat (.integer Int64.maxValue))).rational? = some (2 ^ 63) := by
  have hfields : Binary.ofFloat (toFloat (.integer Int64.maxValue)) =
      .finite false 4503599627370496 11 := by
    decide +kernel
  rw [hfields]
  norm_num [Binary.rational?, Binary.signed, Binary.value]

theorem natAbs_lt_iff {n : Int} :
    n.natAbs < 2 ^ 63 ↔ InRange n ∧ n ≠ Int64.minValue.toInt := by
  unfold InRange
  rw [Int64.toInt_minValue, Int64.toInt_maxValue]
  omega

/-- The test by which a rounded float is accepted. -/
theorem abs_lt_greatest_iff {x : Float} {n : Int}
    (h : (Binary.ofFloat x).rational? = some (n : ℚ)) :
    x.abs < toFloat (.integer Int64.maxValue) ↔ InRange n ∧ n ≠ Int64.minValue.toInt := by
  rw [Binary.lt_iff_of_rational? (Binary.rational?_abs h) rational?_greatest, ← natAbs_lt_iff,
    ← Int.cast_abs, Int.abs_eq_natAbs]
  exact_mod_cast Iff.rfl

theorem isFinite_of_rational? {x : Float} {q : ℚ} (h : (Binary.ofFloat x).rational? = some q) :
    x.isFinite = true := by
  rw [← Binary.rational?_isSome, h]
  rfl

theorem ofRounded?_of_inRange {x : Float} {n : Int}
    (h : (Binary.ofFloat x).rational? = some (n : ℚ)) (hn : InRange n)
    (hne : n ≠ Int64.minValue.toInt) :
    ∃ k : Int64, k.toInt = n ∧ ofRounded? x = some (.integer k) := by
  refine ⟨_, Binary.toInt_toInt64 h hn, ?_⟩
  have hlt := (abs_lt_greatest_iff h).mpr ⟨hn, hne⟩
  rw [ofRounded?, isFinite_of_rational? h, decide_eq_true hlt]
  rfl

theorem ofRounded?_of_outside {x : Float} {n : Int}
    (h : (Binary.ofFloat x).rational? = some (n : ℚ))
    (hn : ¬ InRange n ∨ n = Int64.minValue.toInt) : ofRounded? x = none := by
  have hlt : ¬ x.abs < toFloat (.integer Int64.maxValue) := by
    rw [abs_lt_greatest_iff h]
    intro hboth
    exact hn.elim (fun hout => hout hboth.1) hboth.2
  rw [ofRounded?, decide_eq_false hlt, Bool.and_false]
  rfl

theorem ofRounded?_of_not_finite {x : Float} (h : x.isFinite = false) : ofRounded? x = none := by
  rw [ofRounded?, h]
  rfl

end Number

end PocketLisp
