import PocketLisp.Number.Basic
import PocketLisp.Proofs.Magnitudes

/-!
# Integers as floats

An integer becomes the nearest float, a half going to the even neighbour; up to `2 ^ 53` that is the
integer itself. Beyond, neighbouring integers become one float, but none overtakes another: the
conversion is monotone, also across the powers of two, where the floats get sparser.
-/

namespace PocketLisp

open Float.Model Float.Model.UnpackedFloat

/-- No other whole number is nearer, and of two that are as near this is the even one. -/
structure IsNearest (q : ℚ) (r : Nat) : Prop where
  le_add_half : q ≤ r + 1 / 2
  sub_half_le : r - 1 / 2 ≤ q
  even : q = r + 1 / 2 ∨ q = r - 1 / 2 → r % 2 = 0

theorem isNearest_natCast (n : Nat) : IsNearest n n := by
  refine ⟨by linarith, by linarith, ?_⟩
  rintro (h | h) <;> linarith

/-- Two numbers in order that round in the opposite order meet half-way between two whole numbers,
and go to the even one of these both. -/
theorem IsNearest.mono {q q' : ℚ} {r r' : Nat} (h : IsNearest q r) (h' : IsNearest q' r')
    (hle : q ≤ q') : r ≤ r' := by
  by_contra hlt
  have hnext : (r' : ℚ) + 1 ≤ r := by exact_mod_cast not_le.mp hlt
  have hlow := h.sub_half_le
  have hhigh := h'.le_add_half
  have heq : (r : ℚ) = r' + 1 := by linarith
  have heven := h.even (Or.inr (by linarith))
  have heven' := h'.even (Or.inl (by linarith))
  have hsucc : r = r' + 1 := by exact_mod_cast heq
  omega

namespace Binary

/-- A number that a mantissa and its residual bits leave possible. -/
def Represents : ExtendedMantissa → ℚ → Prop
  | ⟨m, false, false⟩, q => q = m
  | ⟨m, false, true⟩, q => m < q ∧ q < m + 1 / 2
  | ⟨m, true, false⟩, q => q = m + 1 / 2
  | ⟨m, true, true⟩, q => m + 1 / 2 < q ∧ q < m + 1

namespace Represents

variable {em : ExtendedMantissa} {q : ℚ}

theorem shiftRightOne (h : Represents em q) : Represents em.shiftRightOne (q / 2) := by
  obtain ⟨m, roundBit, stickyBit⟩ := em
  obtain ⟨k, hk⟩ : ∃ k, m / 2 = k := ⟨_, rfl⟩
  rcases Nat.mod_two_eq_zero_or_one m with hm | hm
  · have hvalue : (m : ℚ) = 2 * k := by exact_mod_cast (by omega : m = 2 * k)
    cases roundBit <;> cases stickyBit <;>
      simp only [Represents, ExtendedMantissa.shiftRightOne, hk, hm, hvalue, bne_self_eq_false,
        Bool.or_self, Bool.or_true, Bool.true_or] at h ⊢
    · linarith
    · constructor <;> linarith
    · constructor <;> linarith
    · constructor <;> linarith
  · have hvalue : (m : ℚ) = 2 * k + 1 := by exact_mod_cast (by omega : m = 2 * k + 1)
    have hbit : (1 != 0) = true := rfl
    cases roundBit <;> cases stickyBit <;>
      simp only [Represents, ExtendedMantissa.shiftRightOne, hk, hm, hvalue, hbit,
        Bool.or_self, Bool.or_true, Bool.true_or] at h ⊢
    · linarith
    · constructor <;> linarith
    · constructor <;> linarith
    · constructor <;> linarith

theorem shiftRight (h : Represents em q) (k : Nat) : Represents (em >>> k) (q / 2 ^ k) := by
  change Represents (k.repeat ExtendedMantissa.shiftRightOne em) _
  induction k with
  | zero => simpa [Nat.repeat] using h
  | succ k ih =>
      rw [Nat.repeat, pow_succ, ← div_div]
      exact ih.shiftRightOne

theorem isNearest (h : Represents em q) : IsNearest q em.roundedMantissa := by
  obtain ⟨m, roundBit, stickyBit⟩ := em
  cases roundBit <;> cases stickyBit
  · obtain rfl : q = m := h
    exact isNearest_natCast m
  · obtain ⟨hlow, hhigh⟩ : m < q ∧ q < m + 1 / 2 := h
    change IsNearest q m
    refine ⟨by linarith, by linarith, ?_⟩
    rintro (heq | heq) <;> linarith
  · obtain rfl : q = m + 1 / 2 := h
    change IsNearest _ (m + m % 2)
    rcases Nat.mod_two_eq_zero_or_one m with hm | hm
    · rw [hm]
      exact ⟨by push_cast; linarith, by push_cast; linarith, fun _ => by omega⟩
    · rw [hm]
      exact ⟨by push_cast; linarith, by push_cast; linarith, fun _ => by omega⟩
  · obtain ⟨hlow, hhigh⟩ : m + 1 / 2 < q ∧ q < m + 1 := h
    change IsNearest q (m + 1)
    refine ⟨by push_cast; linarith, by push_cast; linarith, ?_⟩
    push_cast
    rintro (heq | heq) <;> linarith

end Represents

/-- How many digits are too many for a float. -/
def surplus (n : Nat) : Nat :=
  n.log2 - 52

/-- The number that `n` becomes as a float. -/
def Rounds (n : Nat) (q : ℚ) : Prop :=
  ∃ r, IsNearest (n / 2 ^ surplus n) r ∧ q = r * 2 ^ surplus n

theorem lt_two_pow_surplus (n : Nat) : (n : ℚ) / 2 ^ surplus n < (2 ^ 53 : Nat) := by
  have hlog := @Nat.lt_log2_self n
  have hle : 2 ^ (n.log2 + 1) ≤ 2 ^ 53 * 2 ^ surplus n := by
    rw [← Nat.pow_add]
    apply Nat.pow_le_pow_right (by omega)
    unfold surplus
    omega
  rw [div_lt_iff₀ (by positivity)]
  exact_mod_cast lt_of_lt_of_le hlog hle

theorem two_pow_surplus_le {n : Nat} (h : 0 < surplus n) :
    ((2 ^ 52 : Nat) : ℚ) ≤ n / 2 ^ surplus n := by
  unfold surplus at h
  have hne : n ≠ 0 := by
    rintro rfl
    simp at h
  have hpow : 2 ^ 52 * 2 ^ surplus n = 2 ^ n.log2 := by
    rw [← Nat.pow_add]
    congr 1
    unfold surplus
    omega
  have hlog := Nat.log2_self_le hne
  rw [← hpow] at hlog
  rw [le_div_iff₀ (by positivity)]
  exact_mod_cast hlog

theorem Rounds.nonneg {n : Nat} {q : ℚ} (h : Rounds n q) : 0 ≤ q := by
  obtain ⟨r, -, rfl⟩ := h
  positivity

/-- If the greater number has more digits to lose, a power of two stands between the two. -/
theorem Rounds.mono {n n' : Nat} {q q' : ℚ} (h : Rounds n q) (h' : Rounds n' q') (hle : n ≤ n') :
    q ≤ q' := by
  obtain ⟨r, hr, rfl⟩ := h
  obtain ⟨r', hr', rfl⟩ := h'
  have hcast : (n : ℚ) ≤ n' := by exact_mod_cast hle
  have hsurplus : surplus n ≤ surplus n' := by
    have hlog : n.log2 ≤ n'.log2 := by
      rw [Nat.log2_eq_log_two, Nat.log2_eq_log_two]
      exact Nat.log_mono_right hle
    unfold surplus
    omega
  rcases Nat.eq_or_lt_of_le hsurplus with heq | hlt
  · rw [← heq] at hr' ⊢
    have hmono : (r : ℚ) ≤ r' := by exact_mod_cast hr.mono hr' (by gcongr)
    gcongr
  · have hhigh : r ≤ 2 ^ 53 := hr.mono (isNearest_natCast _) (lt_two_pow_surplus n).le
    have hlow : 2 ^ 52 ≤ r' := (isNearest_natCast _).mono hr' (two_pow_surplus_le (by omega))
    have hpow : 2 ^ 53 * 2 ^ surplus n ≤ 2 ^ 52 * 2 ^ surplus n' := by
      rw [← Nat.pow_add, ← Nat.pow_add]
      exact Nat.pow_le_pow_right (by omega) (by omega)
    have hmain : r * 2 ^ surplus n ≤ r' * 2 ^ surplus n' :=
      calc r * 2 ^ surplus n ≤ 2 ^ 53 * 2 ^ surplus n := Nat.mul_le_mul_right _ hhigh
        _ ≤ 2 ^ 52 * 2 ^ surplus n' := hpow
        _ ≤ r' * 2 ^ surplus n' := Nat.mul_le_mul_right _ hlow
    exact_mod_cast hmain

/-- A mantissa that rounding has carried one digit too far is shifted once more, and loses nothing. -/
theorem exists_shiftToTargetExponent {r : Nat} {e : Int} (hlow : 2 ^ 52 ≤ r) (hhigh : r ≤ 2 ^ 53)
    (he : 0 ≤ e) (he' : e < 971) :
    ∃ m e', Canonical m e' ∧ value m e' = value r e ∧
      shiftToTargetExponent Format.binary64 r e .exact = (⟨m, false, false⟩, e') := by
  rcases Nat.lt_or_eq_of_le hhigh with hlt | rfl
  · have hc : Canonical r e := ⟨by omega, hlt, by omega, by omega, Or.inl hlow⟩
    have hshift := shiftToTargetExponent_exact hc 0
    rw [Nat.pow_zero, Nat.mul_one, Int.ofNat_zero, Int.sub_zero] at hshift
    exact ⟨r, e, hc, rfl, hshift⟩
  · have hc : Canonical (2 ^ 52) (e + 1) :=
      ⟨by omega, by omega, by omega, by omega, Or.inl le_rfl⟩
    have hshift := shiftToTargetExponent_exact hc 1
    rw [show e + 1 - ((1 : Nat) : Int) = e by omega] at hshift
    refine ⟨2 ^ 52, e + 1, hc, ?_, hshift⟩
    exact (value_mul_two_pow 1).symm

/-- A natural number with more digits than a float has loses the surplus ones. -/
theorem round_surplus {n : Nat} (hn : 0 < surplus n) (hlt : n < 2 ^ 64) :
    ∃ m e, ∃ h : Canonical m e, Rounds n (value m e) ∧
      UnpackedFloat.round Format.binary64 .positive n 0 = .finite .positive m e h.pos := by
  have hne : n ≠ 0 := by
    rintro rfl
    simp [surplus] at hn
  have hlog := (Nat.log2_lt hne).mpr hlt
  have htarget : Format.binary64.targetExponent (totalExponent n 0) = surplus n := by
    change max ((n.log2 : Int) + 1 + 0 - 53) (-1074) = _
    unfold surplus at hn ⊢
    omega
  have hexact : Represents ⟨n, false, false⟩ n := rfl
  have hnearest := (hexact.shiftRight (surplus n)).isNearest
  obtain ⟨r, hr⟩ : ∃ r, ((⟨n, false, false⟩ : ExtendedMantissa) >>> surplus n).roundedMantissa = r :=
    ⟨_, rfl⟩
  rw [hr] at hnearest
  have hhigh : r ≤ 2 ^ 53 := hnearest.mono (isNearest_natCast _) (lt_two_pow_surplus n).le
  have hlow : 2 ^ 52 ≤ r := (isNearest_natCast _).mono hnearest (two_pow_surplus_le hn)
  obtain ⟨m, e, hc, hvalue, hshift⟩ := exists_shiftToTargetExponent (e := surplus n) hlow hhigh
    (by omega) (by unfold surplus; omega)
  refine ⟨m, e, hc, ⟨r, hnearest, ?_⟩, ?_⟩
  · rw [hvalue, value, zpow_natCast]
  · have hfirst : shiftToTargetExponent Format.binary64 n 0 .exact =
        ((⟨n, false, false⟩ : ExtendedMantissa) >>> surplus n, (surplus n : Int)) := by
      unfold shiftToTargetExponent shiftToExponent
      rw [htarget]
      simp only [Int.sub_zero, Int.toNat_natCast, Int.zero_add]
      rfl
    have hdecrease : decreaseExponent n 0 (surplus n) = (n, 0) := by
      unfold decreaseExponent
      rw [show ((0 : Int) - surplus n).toNat = 0 by omega]
      rfl
    simp only [UnpackedFloat.round, htarget, hdecrease, roundWithAccuracy, hfirst, hr, hshift,
      hc.pos.ne', ↓reduceDIte]

/-- A natural number becomes the nearest float. -/
theorem ofNat_rounds {n : Nat} (hn : 0 < n) (hlt : n < 2 ^ 64) :
    ∃ q, Rounds n q ∧ Exact n.toUInt64.toFloat q := by
  rcases Nat.eq_zero_or_pos (surplus n) with hzero | hpos
  · have hshort : n < 2 ^ 53 := by
      apply (Nat.log2_lt hn.ne').mp
      unfold surplus at hzero
      omega
    refine ⟨n, ⟨n, ?_, ?_⟩, ofNat_exact hn hshort⟩
    · rw [hzero, pow_zero, div_one]
      exact isNearest_natCast n
    · rw [hzero, pow_zero, mul_one]
  · obtain ⟨m, e, hc, hrounds, hround⟩ := round_surplus hpos hlt
    exact ⟨value m e, hrounds, m, e, hc, unpack_toFloat hn hlt hc hround, rfl⟩

theorem Exact.rational? {x : Float} {q : ℚ} (h : Exact x q) : (ofFloat x).rational? = some q := by
  obtain ⟨m, e, hc, hx, rfl⟩ := h
  rw [ofFloat_finite hx]
  rfl

theorem Exact.rational?_neg {x : Float} {q : ℚ} (h : Exact x q) :
    (ofFloat (-x)).rational? = some (-q) := by
  obtain ⟨m, e, hc, hx, rfl⟩ := h
  have hneg : (-x).toModel.unpack = .finite .negative m e hc.pos := by
    change (Float.Model.pack x.toModel.unpack.neg).unpack = _
    rw [hx]
    exact unpack_pack hc
  rw [ofFloat_finite hneg]
  rfl

end Binary

namespace Number

/-- The number that `n` becomes as a float, whose sign is that of `n`. -/
def Rounds (n : Int) (q : ℚ) : Prop :=
  Binary.Rounds n.natAbs (if n < 0 then -q else q)

theorem rational?_floatOfInt {n : Int} (h : n.natAbs < 2 ^ 64) :
    ∃ q, (Binary.ofFloat (floatOfInt n)).rational? = some q ∧ Rounds n q := by
  rcases lt_trichotomy n 0 with hn | rfl | hn
  · obtain ⟨q, hrounds, hexact⟩ := Binary.ofNat_rounds (by omega : 0 < n.natAbs) h
    refine ⟨-q, ?_, ?_⟩
    · rw [floatOfInt, if_pos hn]
      exact hexact.rational?_neg
    · rw [Rounds, if_pos hn, neg_neg]
      exact hrounds
  · refine ⟨0, ?_, 0, ?_, ?_⟩
    · rw [show floatOfInt 0 = (Nat.toUInt64 0).toFloat from rfl,
        Binary.ofFloat_zero Binary.Exact.unpack_zero, Binary.rational?, Binary.signed_zero]
    · simpa using isNearest_natCast 0
    · simp
  · obtain ⟨q, hrounds, hexact⟩ := Binary.ofNat_rounds (by omega : 0 < n.natAbs) h
    refine ⟨q, ?_, ?_⟩
    · rw [floatOfInt, if_neg (by omega)]
      exact hexact.rational?
    · rw [Rounds, if_neg (by omega)]
      exact hrounds

/-- Conversion keeps the order of the integers, though not always strictly. -/
theorem Rounds.mono {n n' : Int} {q q' : ℚ} (h : Rounds n q) (h' : Rounds n' q') (hle : n ≤ n') :
    q ≤ q' := by
  unfold Rounds at h h'
  by_cases hn : n < 0
  · rw [if_pos hn] at h
    by_cases hn' : n' < 0
    · rw [if_pos hn'] at h'
      have := h'.mono h (by omega)
      linarith
    · rw [if_neg hn'] at h'
      have := h.nonneg
      have := h'.nonneg
      linarith
  · rw [if_neg hn] at h
    rw [if_neg (by omega)] at h'
    exact h.mono h' (by omega)

end Number

end PocketLisp
