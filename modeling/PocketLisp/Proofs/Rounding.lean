import PocketLisp.Number.Decimal
import PocketLisp.Proofs.Floats

/-!
# Numbers that need no rounding

Rounding leaves alone what a float can hold. So a product, a quotient or a scaling by a power of
ten whose exact result is a float answers that float, and a decimal that is a float reads as it.
Nothing is said about results that have to be rounded.
-/

namespace PocketLisp

open Float.Model Float.Model.UnpackedFloat

namespace Binary

variable {m m₁ m₂ : Nat} {e e₁ e₂ : Int}

/-- The number `m · 2 ^ e`. -/
def value (mantissa : Nat) (exponent : Int) : ℚ :=
  mantissa * 2 ^ exponent

theorem value_pos (hm : 0 < m) : 0 < value m e := by
  unfold value
  positivity

theorem value_mul : value m₁ e₁ * value m₂ e₂ = value (m₁ * m₂) (e₁ + e₂) := by
  unfold value
  rw [zpow_add₀ two_ne_zero, Nat.cast_mul]
  ring

theorem value_mul_two_pow (k : Nat) : value (m * 2 ^ k) e = value m (e + k) := by
  unfold value
  rw [zpow_add₀ two_ne_zero, zpow_natCast, Nat.cast_mul, Nat.cast_pow, Nat.cast_ofNat]
  ring

/-- The same number at a smaller exponent has a mantissa with zeros at its end. -/
theorem eq_shifted_of_value_eq (hv : value m₁ e₁ = value m e) (he : e₁ ≤ e) :
    m₁ = m * 2 ^ (e - e₁).toNat := by
  obtain ⟨k, rfl⟩ := Int.le.dest he
  have hk : (e₁ + (k : Int) - e₁).toNat = k := by omega
  have hpos : (0 : ℚ) < 2 ^ e₁ := by positivity
  rw [← value_mul_two_pow] at hv
  rw [hk]
  exact_mod_cast mul_right_cancel₀ hpos.ne' hv

theorem two_zpow_le_value (hm : 0 < m) : 2 ^ (totalExponent m e - 1) ≤ value m e := by
  have hlog : ((2 ^ m.log2 : Nat) : ℚ) ≤ m := Nat.cast_le.mpr (Nat.log2_self_le hm.ne')
  have htotal : totalExponent m e - 1 = (m.log2 : Int) + e := by
    unfold totalExponent
    omega
  rw [htotal, zpow_add₀ two_ne_zero, zpow_natCast]
  unfold value
  push_cast at hlog
  gcongr

theorem value_lt_two_zpow : value m e < 2 ^ totalExponent m e := by
  have hlog : (m : ℚ) < ((2 ^ (m.log2 + 1) : Nat) : ℚ) := Nat.cast_lt.mpr Nat.lt_log2_self
  have htotal : totalExponent m e = ((m.log2 + 1 : Nat) : Int) + e := by
    unfold totalExponent
    push_cast
    rfl
  rw [htotal, zpow_add₀ two_ne_zero, zpow_natCast]
  unfold value
  push_cast at hlog
  gcongr

theorem totalExponent_le_of_value_le (hm₁ : 0 < m₁) (h : value m₁ e₁ ≤ value m e * value m₂ e₂) :
    totalExponent m₁ e₁ - totalExponent m₂ e₂ ≤ totalExponent m e := by
  have hlt : (2 : ℚ) ^ (totalExponent m₁ e₁ - 1) <
      2 ^ (totalExponent m e + totalExponent m₂ e₂) := by
    rw [zpow_add₀ two_ne_zero]
    calc (2 : ℚ) ^ (totalExponent m₁ e₁ - 1) ≤ value m₁ e₁ := two_zpow_le_value hm₁
      _ ≤ value m e * value m₂ e₂ := h
      _ < 2 ^ totalExponent m e * 2 ^ totalExponent m₂ e₂ := by
        apply mul_lt_mul'' value_lt_two_zpow value_lt_two_zpow <;> unfold value <;> positivity
  have := (zpow_lt_zpow_iff_right₀ one_lt_two).mp hlt
  omega

theorem Canonical.targetExponent_eq (h : Canonical m e) :
    Format.binary64.targetExponent (totalExponent m e) = e := by
  have hlog := (Nat.log2_lt h.pos.ne').mpr h.fits
  change max ((m.log2 : Int) + 1 + e - 53) (-1074) = e
  rcases h.leading with hlow | heq
  · have hlog' := (Nat.le_log2 h.pos.ne').mpr hlow
    have hleast := h.least
    omega
  · omega

theorem targetExponent_mono {a b : Int} (h : a ≤ b) :
    Format.binary64.targetExponent a ≤ Format.binary64.targetExponent b := by
  change max (a - 53) (-1074) ≤ max (b - 53) (-1074)
  omega

theorem log2_mul_two_pow (hm : 0 < m) (k : Nat) : (m * 2 ^ k).log2 = m.log2 + k := by
  have hpos : 0 < m * 2 ^ k := Nat.mul_pos hm (Nat.two_pow_pos k)
  rw [Nat.log2_eq_iff hpos.ne']
  have h₁ := Nat.log2_self_le hm.ne'
  have h₂ := @Nat.lt_log2_self m
  constructor
  · rw [Nat.pow_add]
    exact Nat.mul_le_mul_right _ h₁
  · rw [show m.log2 + k + 1 = m.log2 + 1 + k by omega, Nat.pow_add]
    exact Nat.mul_lt_mul_of_pos_right h₂ (Nat.two_pow_pos k)

theorem shiftRight_exact (m k : Nat) :
    (⟨m * 2 ^ k, false, false⟩ : ExtendedMantissa) >>> k = ⟨m, false, false⟩ := by
  change k.repeat ExtendedMantissa.shiftRightOne _ = _
  induction k generalizing m with
  | zero => simp [Nat.repeat]
  | succ k ih =>
      rw [Nat.repeat, show m * 2 ^ (k + 1) = (m * 2) * 2 ^ k by ring, ih]
      simp [ExtendedMantissa.shiftRightOne]

theorem shiftToTargetExponent_exact (h : Canonical m e) (k : Nat) :
    shiftToTargetExponent Format.binary64 (m * 2 ^ k) (e - k) .exact = (⟨m, false, false⟩, e) := by
  have htotal : totalExponent (m * 2 ^ k) (e - k) = totalExponent m e := by
    unfold totalExponent
    rw [log2_mul_two_pow h.pos]
    push_cast
    omega
  have hshift : (e - (e - k)).toNat = k := by omega
  unfold shiftToTargetExponent shiftToExponent
  rw [htotal, h.targetExponent_eq]
  simp only [hshift, ExtendedMantissa.ofMantissaAndAccuracy, shiftRight_exact]
  rw [Int.sub_add_cancel]

/-- Rounding leaves alone what needs no rounding. -/
theorem roundWithAccuracy_exact (h : Canonical m e) (s : Sign) (hv : value m₁ e₁ = value m e)
    (he : e₁ ≤ e) :
    roundWithAccuracy Format.binary64 s m₁ e₁ .exact = .finite s m e h.pos := by
  have hfirst := shiftToTargetExponent_exact h (e - e₁).toNat
  have hsecond := shiftToTargetExponent_exact h 0
  rw [← eq_shifted_of_value_eq hv he, show e - ((e - e₁).toNat : Int) = e₁ by omega] at hfirst
  rw [Nat.pow_zero, Nat.mul_one, Int.ofNat_zero, Int.sub_zero] at hsecond
  unfold roundWithAccuracy
  simp only [hfirst, ExtendedMantissa.roundedMantissa, ExtendedMantissa.accuracy,
    Accuracy.roundToNearestEven, hsecond, h.pos.ne', ↓reduceDIte]

/-- A product that is a float is not rounded, if the factors have digits enough between them: at a
greater exponent it would have fewer digits than the mantissa. -/
theorem mul_exact (h : Canonical m e) (hwide : 2 ^ 53 ≤ m₁ * m₂)
    (hv : value m₁ e₁ * value m₂ e₂ = value m e) (s₁ s₂ : Sign) (hm₁ : 0 < m₁) (hm₂ : 0 < m₂) :
    UnpackedFloat.mul Format.binary64 (.finite s₁ m₁ e₁ hm₁) (.finite s₂ m₂ e₂ hm₂) =
      .finite (s₁ * s₂) m e h.pos := by
  rw [value_mul] at hv
  apply roundWithAccuracy_exact h _ hv
  by_contra hlt
  have hm := eq_shifted_of_value_eq hv.symm (by omega)
  have hfits := h.fits
  have hle := Nat.le_mul_of_pos_right (m₁ * m₂) (Nat.two_pow_pos (e₁ + e₂ - e).toNat)
  omega

/-- A quotient that is a float is not rounded. -/
theorem div_exact (h : Canonical m e) (hv : value m₁ e₁ = value m e * value m₂ e₂) (s₁ s₂ : Sign)
    (hm₁ : 0 < m₁) (hm₂ : 0 < m₂) :
    UnpackedFloat.div Format.binary64 (.finite s₁ m₁ e₁ hm₁) (.finite s₂ m₂ e₂ hm₂) =
      .finite (s₁ / s₂) m e h.pos := by
  obtain ⟨t, ht⟩ : ∃ t, t = min (e₁ - e₂)
      (Format.binary64.targetExponent (totalExponent m₁ e₁ - totalExponent m₂ e₂)) := ⟨_, rfl⟩
  have hle : t ≤ e := by
    have hmono := targetExponent_mono (totalExponent_le_of_value_le hm₁ hv.le)
    rw [h.targetExponent_eq] at hmono
    omega
  have hshifted : value (m₁ <<< (e₁ - e₂ - t).toNat) (t + e₂) = value (m * m₂) (e + e₂) := by
    rw [← value_mul, ← hv, Nat.shiftLeft_eq, value_mul_two_pow]
    congr 1
    omega
  have hm := eq_shifted_of_value_eq hshifted (by omega)
  rw [show m * m₂ * 2 ^ (e + e₂ - (t + e₂)).toNat = m * 2 ^ (e - t).toNat * m₂ by
    rw [show e + e₂ - (t + e₂) = e - t by omega]; ring] at hm
  have hcore : divCore Format.binary64 m₁ e₁ m₂ e₂ = (m * 2 ^ (e - t).toNat, t, .exact) := by
    simp only [divCore, ← ht]
    rw [hm, Nat.mul_div_cancel _ hm₂, Nat.mul_mod_left]
    rfl
  simp only [UnpackedFloat.div, hcore]
  apply roundWithAccuracy_exact h _ _ hle
  rw [value_mul_two_pow]
  congr 1
  omega

/-- The float is this positive number, with nothing lost. -/
def Exact (x : Float) (q : ℚ) : Prop :=
  ∃ (m : Nat) (e : Int) (h : Canonical m e),
    x.toModel.unpack = .finite .positive m e h.pos ∧ value m e = q

theorem Canonical.exact_pack (h : Canonical m e) :
    Exact (.ofModel (.pack (.finite .positive m e h.pos))) (value m e) :=
  ⟨m, e, h, unpack_pack h, rfl⟩

theorem eq_of_pack {x : Float} {u : UnpackedFloat} (h : x.toModel.unpack = u) :
    Float.ofModel (.pack u) = x := by
  rw [← h, pack_unpack]

theorem Canonical.leading_of_one_le (h : Canonical m e) (hone : 1 ≤ value m e) : 2 ^ 52 ≤ m := by
  apply h.leading.resolve_right
  intro he
  subst he
  have hlt : value m (-1074) < 2 ^ (53 : Int) * 2 ^ (-1074 : Int) := by
    have hfits : (m : ℚ) < 2 ^ (53 : Int) := by exact_mod_cast h.fits
    unfold value
    gcongr
  rw [← zpow_add₀ two_ne_zero] at hlt
  have hle : (2 : ℚ) ^ (53 + -1074 : Int) ≤ 2 ^ (0 : Int) :=
    zpow_le_zpow_right₀ one_le_two (by norm_num)
  rw [zpow_zero] at hle
  linarith

namespace Exact

variable {x y z : Float} {a b : ℚ}

theorem pos (hx : Exact x a) : 0 < a := by
  obtain ⟨m, e, h, -, rfl⟩ := hx
  exact value_pos h.pos

theorem mul_eq (hx : Exact x a) (hy : Exact y b) (hz : Exact z (a * b)) (ha : 1 ≤ a)
    (hb : 1 ≤ b) : x * y = z := by
  obtain ⟨m₁, e₁, h₁, hx, rfl⟩ := hx
  obtain ⟨m₂, e₂, h₂, hy, rfl⟩ := hy
  obtain ⟨m, e, h, hz, hv⟩ := hz
  have hwide : 2 ^ 53 ≤ m₁ * m₂ :=
    le_trans (by norm_num) (Nat.mul_le_mul (h₁.leading_of_one_le ha) (h₂.leading_of_one_le hb))
  change Float.ofModel (.pack (UnpackedFloat.mul _ x.toModel.unpack y.toModel.unpack)) = z
  rw [hx, hy, mul_exact h hwide hv.symm]
  exact eq_of_pack hz

theorem div_eq (hx : Exact x a) (hy : Exact y b) (hz : Exact z (a / b)) : x / y = z := by
  have hb := hy.pos
  obtain ⟨m₁, e₁, h₁, hx, rfl⟩ := hx
  obtain ⟨m₂, e₂, h₂, hy, rfl⟩ := hy
  obtain ⟨m, e, h, hz, hv⟩ := hz
  change Float.ofModel (.pack (UnpackedFloat.div _ x.toModel.unpack y.toModel.unpack)) = z
  rw [hx, hy, div_exact h (by rw [hv, div_mul_cancel₀ _ hb.ne'])]
  exact eq_of_pack hz

theorem unpack_zero : (Nat.toUInt64 0).toFloat.toModel.unpack = .zero .positive :=
  rfl

theorem zero_mul_eq (hx : Exact x a) :
    (Nat.toUInt64 0).toFloat * x = .ofModel (.pack (.zero .positive)) := by
  obtain ⟨m, e, h, hx, -⟩ := hx
  change Float.ofModel (.pack (UnpackedFloat.mul _ _ x.toModel.unpack)) = _
  rw [unpack_zero, hx]
  rfl

theorem zero_div_eq (hx : Exact x a) :
    (Nat.toUInt64 0).toFloat / x = .ofModel (.pack (.zero .positive)) := by
  obtain ⟨m, e, h, hx, -⟩ := hx
  change Float.ofModel (.pack (UnpackedFloat.div _ _ x.toModel.unpack)) = _
  rw [unpack_zero, hx]
  rfl

theorem ne_zero (hx : Exact x a) : x ≠ .ofModel (.pack (.zero .positive)) := by
  obtain ⟨m, e, h, hx, -⟩ := hx
  rintro rfl
  cases unpack_zero.symm.trans hx

end Exact

/-- Few enough digits fit, moved up to the leading place. -/
theorem canonical_of_lt {n : Nat} (hn : 0 < n) (hlt : n < 2 ^ 53) (k : Int) (hlow : -1022 ≤ k)
    (hhigh : k ≤ 971) : Canonical (n * 2 ^ (52 - n.log2)) (k - (52 - n.log2 : Nat)) := by
  have hlog := (Nat.log2_lt hn.ne').mpr hlt
  have hle := Nat.log2_self_le hn.ne'
  have hbelow := @Nat.lt_log2_self n
  have hpow : 2 ^ (n.log2) * 2 ^ (52 - n.log2) = 2 ^ 52 := by
    rw [← Nat.pow_add]
    congr 1
    omega
  have hfull : 2 ^ 52 ≤ n * 2 ^ (52 - n.log2) := by
    rw [← hpow]
    exact Nat.mul_le_mul_right _ hle
  refine ⟨by omega, ?_, by omega, by omega, Or.inl hfull⟩
  calc n * 2 ^ (52 - n.log2) < 2 ^ (n.log2 + 1) * 2 ^ (52 - n.log2) :=
        Nat.mul_lt_mul_of_pos_right hbelow (Nat.two_pow_pos _)
    _ = 2 ^ 53 := by rw [Nat.pow_succ, mul_right_comm, hpow, ← Nat.pow_succ]

theorem value_canonical_of_lt (n : Nat) (k : Int) :
    value (n * 2 ^ (52 - n.log2)) (k - (52 - n.log2 : Nat)) = value n k := by
  rw [value_mul_two_pow, Int.sub_add_cancel]

/-- A natural number becomes what rounding makes of it, if that is a float. -/
theorem unpack_toFloat {n : Nat} (hn : 0 < n) (hlt : n < 2 ^ 64) (h : Canonical m e)
    (hround : UnpackedFloat.round Format.binary64 .positive n 0 = .finite .positive m e h.pos) :
    n.toUInt64.toFloat.toModel.unpack = .finite .positive m e h.pos := by
  have hto : n.toUInt64.toNat = n := by
    rw [Nat.toUInt64, UInt64.toNat_ofNat', Nat.mod_eq_of_lt hlt]
  have hcompare : compare (n : Int) 0 = .gt := by
    rw [compare_gt_iff_gt]
    omega
  change (Float.Model.pack
    (UnpackedFloat.normalize Format.binary64 (n.toUInt64.toNat : Int) 0 .positive)).unpack = _
  rw [hto, UnpackedFloat.normalize, hcompare]
  simp only [Int.toNat_natCast, hround]
  exact unpack_pack h

theorem ofNat_exact {n : Nat} (hn : 0 < n) (hlt : n < 2 ^ 53) : Exact n.toUInt64.toFloat n := by
  have hlog := (Nat.log2_lt hn.ne').mpr hlt
  have hc := canonical_of_lt hn hlt 0 (by omega) (by omega)
  refine ⟨_, _, hc, ?_, by rw [value_canonical_of_lt]; simp [value]⟩
  have htarget : Format.binary64.targetExponent (totalExponent n 0) = 0 - (52 - n.log2 : Nat) := by
    change max ((n.log2 : Int) + 1 + 0 - 53) (-1074) = _
    omega
  have hround : UnpackedFloat.round Format.binary64 .positive n 0 =
      .finite .positive (n * 2 ^ (52 - n.log2)) (0 - (52 - n.log2 : Nat)) hc.pos := by
    simp only [UnpackedFloat.round, htarget, decreaseExponent]
    have hk : (0 - (0 - ((52 - n.log2 : Nat) : Int))).toNat = 52 - n.log2 := by omega
    rw [hk, Nat.shiftLeft_eq]
    exact roundWithAccuracy_exact hc _ rfl le_rfl
  exact unpack_toFloat hn (by omega) hc hround

theorem leading_pos {n : Nat} (hn : 0 < n) : 0 < n * 2 ^ (52 - n.log2) :=
  Nat.mul_pos hn (Nat.two_pow_pos _)

theorem powersOfTen_bits : ∀ k : Fin Float.exactlyRepresentablePowersOfTen.size,
    Float.exactlyRepresentablePowersOfTen[k].toBits =
      (Float.Model.pack (.finite .positive (5 ^ k.val * 2 ^ (52 - (5 ^ k.val).log2))
        (k.val - (52 - (5 ^ k.val).log2 : Nat)) (leading_pos (by positivity)))).toBits := by
  decide +kernel

/-- Only the factor `5 ^ k` takes binary digits, and up to the last entry they are few enough. -/
theorem powerOfTen_exact {k : Nat} (hk : k < Float.exactlyRepresentablePowersOfTen.size) :
    Exact Float.exactlyRepresentablePowersOfTen[k] (10 ^ k) := by
  have hfive : 5 ^ k < 2 ^ 53 :=
    lt_of_le_of_lt (Nat.pow_le_pow_right (by norm_num) (Nat.le_of_lt_succ hk)) (by norm_num)
  have hc := canonical_of_lt (by positivity) hfive k (by omega)
    (by change k < 23 at hk; omega)
  have hvalue := value_canonical_of_lt (5 ^ k) k
  have hten : value (5 ^ k) k = 10 ^ k := by
    unfold value
    rw [zpow_natCast, Nat.cast_pow, ← mul_pow]
    norm_num
  have hentry : Float.exactlyRepresentablePowersOfTen[k] = .ofModel (.pack (.finite .positive
      (5 ^ k * 2 ^ (52 - (5 ^ k).log2)) (k - (52 - (5 ^ k).log2 : Nat)) hc.pos)) :=
    Float.toBits_inj.mp (powersOfTen_bits ⟨k, hk⟩)
  rw [hentry, ← hten, ← hvalue]
  exact hc.exact_pack

theorem Canonical.le_value (h : Canonical m e) : (2 : ℚ) ^ (-1074 : Int) ≤ value m e := by
  have hone : (1 : ℚ) ≤ m := by exact_mod_cast h.pos
  unfold value
  calc (2 : ℚ) ^ (-1074 : Int) ≤ 2 ^ e := zpow_le_zpow_right₀ one_le_two h.least
    _ ≤ m * 2 ^ e := le_mul_of_one_le_left (by positivity) hone

theorem Canonical.value_lt (h : Canonical m e) : value m e < (2 : ℚ) ^ (1024 : Int) := by
  have hfits : (m : ℚ) < 2 ^ (53 : Int) := by exact_mod_cast h.fits
  have hgreatest := h.greatest
  unfold value
  calc (m : ℚ) * 2 ^ e < 2 ^ (53 : Int) * 2 ^ e := by gcongr
    _ = 2 ^ (53 + e) := by rw [zpow_add₀ two_ne_zero]
    _ ≤ 2 ^ (1024 : Int) := zpow_le_zpow_right₀ one_le_two (by omega)

/-- A decimal with a great exponent is beyond every float. -/
theorem Canonical.exponent_le_of_value_eq (h : Canonical m e) {n : Nat} {k : Int} (hn : 0 < n)
    (hv : value m e = n * 10 ^ k) : k ≤ 2 ^ 11 := by
  by_contra hk
  have hone : (1 : ℚ) ≤ n := by exact_mod_cast hn
  have hlt : (2 : ℚ) ^ (1024 : Int) < n * 10 ^ k :=
    calc (2 : ℚ) ^ (1024 : Int) < 2 ^ k := zpow_lt_zpow_right₀ one_lt_two (by omega)
      _ ≤ 10 ^ k := zpow_le_zpow_left₀ (by omega) (by norm_num) (by norm_num)
      _ ≤ n * 10 ^ k := le_mul_of_one_le_left (by positivity) hone
  have := h.value_lt
  linarith

/-- A decimal with a small exponent is below every float, whatever its digits. -/
theorem Canonical.le_exponent_of_value_eq (h : Canonical m e) {n : Nat} {k : Int}
    (hv : value m e = n * 10 ^ k) : -((2 ^ 11 : Int) + n.log2) ≤ k := by
  by_contra hk
  have hbase : (10 : ℚ) ^ k ≤ 2 ^ k := by
    obtain ⟨j, rfl⟩ := Int.exists_eq_neg_ofNat (by omega : k ≤ 0)
    rw [zpow_neg, zpow_neg, zpow_natCast, zpow_natCast]
    gcongr
    norm_num
  have hlt : n * 10 ^ k < (2 : ℚ) ^ (-1074 : Int) :=
    calc (n : ℚ) * 10 ^ k ≤ n * 2 ^ k := by gcongr
      _ < 2 ^ totalExponent n k := value_lt_two_zpow
      _ ≤ 2 ^ (-1074 : Int) := zpow_le_zpow_right₀ one_le_two (by unfold totalExponent; omega)
  have := h.le_value
  linarith

/-- Scaling by a power of ten leaves alone what needs no rounding. -/
theorem ofScientific_exact (h : Canonical m e) {n : Nat} {k : Int} (hn : 0 < n)
    (hv : value m e = n * 10 ^ k) :
    UnpackedFloat.ofScientific Format.binary64 n k = .finite .positive m e h.pos := by
  unfold UnpackedFloat.ofScientific
  rw [dif_neg hn.ne', if_neg (not_lt.mpr (h.exponent_le_of_value_eq hn hv)),
    if_neg (not_lt.mpr (h.le_exponent_of_value_eq hv))]
  split
  · rename_i hk
    obtain ⟨k, rfl⟩ := Int.eq_ofNat_of_zero_le hk
    have hwide : 2 ^ 53 ≤ n <<< 53 * 10 ^ k := by
      rw [Nat.shiftLeft_eq, mul_assoc, mul_left_comm]
      exact Nat.le_mul_of_pos_right _ (by positivity)
    apply mul_exact h hwide
    rw [hv]
    change value (n <<< 53) (-53) * value (10 ^ k) 0 = _
    rw [Nat.shiftLeft_eq, value_mul_two_pow]
    simp [value]
  · rename_i hk
    obtain ⟨k, rfl⟩ := Int.exists_eq_neg_ofNat (by omega : k ≤ 0)
    apply div_exact h
    rw [hv]
    simp [value]

end Binary

namespace Decimal

open Binary

/-- The number that the decimal writes. -/
def value (d : Decimal) : ℚ :=
  d.digits * 10 ^ d.exponent

/-- A decimal that is a float reads as that float. -/
theorem toFloat_of_exact {d : Decimal} {x : Float} (hx : Exact x d.value) : d.toFloat = x := by
  have hdigits : 0 < d.digits := by
    have hpos := hx.pos
    rcases Nat.eq_zero_or_pos d.digits with h | h
    · simp [value, h] at hpos
    · exact h
  have hone : (1 : ℚ) ≤ d.digits := by exact_mod_cast hdigits
  unfold toFloat Float.ofScientific
  split
  · rename_i hfast
    have hexact := ofNat_exact hdigits hfast.1
    unfold value at hx
    split
    · rename_i hneg
      apply hexact.div_eq (powerOfTen_exact _)
      rwa [div_eq_mul_inv, ← zpow_natCast, ← zpow_neg,
        show -(d.exponent.natAbs : Int) = d.exponent by simp at hneg; omega]
    · rename_i hneg
      apply hexact.mul_eq (powerOfTen_exact _) _ hone (one_le_pow₀ (by norm_num))
      rwa [← zpow_natCast, show (d.exponent.natAbs : Int) = d.exponent by simp at hneg; omega]
  · obtain ⟨m, e, h, hx, hv⟩ := hx
    have hexponent : (if decide (d.exponent < 0) then Int.negOfNat d.exponent.natAbs
        else Int.ofNat d.exponent.natAbs) = d.exponent := by
      by_cases hneg : d.exponent < 0
      · simp only [hneg, decide_true, ↓reduceIte, Int.negOfNat_eq, Int.ofNat_eq_natCast]
        omega
      · simp only [hneg, decide_false, Bool.false_eq_true, ↓reduceIte, Int.ofNat_eq_natCast]
        omega
    simp only [hexponent, Float.Model.ofScientific, ofScientific_exact h hdigits hv]
    exact eq_of_pack hx

/-- Zero reads as zero, at whatever place it is written. -/
theorem toFloat_of_digits_eq_zero {d : Decimal} (h : d.digits = 0) :
    d.toFloat = .ofModel (.pack (.zero .positive)) := by
  unfold toFloat Float.ofScientific
  rw [h]
  split
  · split
    · exact (powerOfTen_exact _).zero_div_eq
    · exact (powerOfTen_exact _).zero_mul_eq
  · rfl

end Decimal

end PocketLisp
