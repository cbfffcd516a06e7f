import PocketLisp.Proofs.Rounding

/-!
# Floats on the number line

A finite float is a rational number; the infinities stand at the two ends of the line, and what is
no number stands nowhere. Floats are compared by where they stand, so that both zeros are one. What
is computed with floats is left out here.
-/

namespace PocketLisp

open Float.Model Float.Model.UnpackedFloat

namespace Binary

/-- The number with a sign. -/
def signed (negative : Bool) (mantissa : Nat) (exponent : Int) : ℚ :=
  if negative then -value mantissa exponent else value mantissa exponent

/-- The number that a finite value is. -/
def rational? : Binary → Option ℚ
  | .finite negative mantissa exponent => some (signed negative mantissa exponent)
  | _ => none

/-- Where a value stands on the line of the rational numbers, which has two ends. -/
def place? : Binary → Option (WithBot (WithTop ℚ))
  | .notANumber => none
  | .infinite negative => some (if negative then ⊥ else ⊤)
  | .finite negative mantissa exponent => some ((signed negative mantissa exponent : ℚ) : WithTop ℚ)

theorem place?_of_rational? {b : Binary} {q : ℚ} (h : b.rational? = some q) :
    b.place? = some (q : WithTop ℚ) := by
  cases b with
  | finite negative m e =>
      cases h
      rfl
  | _ => cases h

theorem signed_zero (negative : Bool) (e : Int) : signed negative 0 e = 0 := by
  cases negative <;> simp [signed, value]

section Fields

variable {x : Float} {s : Sign}

theorem ofFloat_finite {m : Nat} {e : Int} {hm : 0 < m}
    (h : x.toModel.unpack = .finite s m e hm) : ofFloat x = .finite (s == .negative) m e := by
  unfold ofFloat
  rw [h]
  cases s <;> rfl

theorem ofFloat_zero (h : x.toModel.unpack = .zero s) :
    ofFloat x = .finite (s == .negative) 0 0 := by
  unfold ofFloat
  rw [h]
  cases s <;> rfl

theorem ofFloat_infinity (h : x.toModel.unpack = .infinity s) :
    ofFloat x = .infinite (s == .negative) := by
  unfold ofFloat
  rw [h]
  cases s <;> rfl

theorem ofFloat_notANumber (h : x.toModel.unpack = .notANumber) : ofFloat x = .notANumber := by
  unfold ofFloat
  rw [h]

end Fields

/-- A float has no place exactly if it is no number. -/
theorem place?_eq_none {x : Float} : (ofFloat x).place? = none ↔ x.isNaN = true := by
  change _ ↔ x.toModel.unpack.isNaN = true
  cases h : x.toModel.unpack with
  | notANumber => simp [ofFloat_notANumber h, place?, UnpackedFloat.isNaN]
  | infinity s => simp [ofFloat_infinity h, place?, UnpackedFloat.isNaN]
  | zero s => simp [ofFloat_zero h, place?, UnpackedFloat.isNaN]
  | finite s m e hm => simp [ofFloat_finite h, place?, UnpackedFloat.isNaN]

/-- Of two mantissas with all their digits, the one with the greater exponent is greater. -/
theorem Canonical.value_lt_of_lt {m₁ m₂ : Nat} {e₁ e₂ : Int} (h₁ : Canonical m₁ e₁)
    (h₂ : Canonical m₂ e₂) (he : e₁ < e₂) : value m₁ e₁ < value m₂ e₂ := by
  have hleast := h₁.least
  have hfull : 2 ^ 52 ≤ m₂ := h₂.leading.resolve_right (by omega)
  have hfits : (m₁ : ℚ) < 2 ^ (53 : Int) := by exact_mod_cast h₁.fits
  have hfull' : (2 : ℚ) ^ (52 : Int) ≤ m₂ := by exact_mod_cast hfull
  unfold value
  calc (m₁ : ℚ) * 2 ^ e₁ < 2 ^ (53 : Int) * 2 ^ e₁ := by gcongr
    _ = 2 ^ (53 + e₁) := by rw [zpow_add₀ two_ne_zero]
    _ ≤ 2 ^ (52 + e₂) := zpow_le_zpow_right₀ one_le_two (by omega)
    _ = 2 ^ (52 : Int) * 2 ^ e₂ := by rw [zpow_add₀ two_ne_zero]
    _ ≤ m₂ * 2 ^ e₂ := by gcongr

/-- Exponents first and then mantissas: this compares the numbers. -/
theorem Canonical.compare_eq {m₁ m₂ : Nat} {e₁ e₂ : Int} (h₁ : Canonical m₁ e₁)
    (h₂ : Canonical m₂ e₂) :
    (compare e₁ e₂).then (compare m₁ m₂) = compare (value m₁ e₁) (value m₂ e₂) := by
  have hscale : ∀ {a b : Nat}, a < b → value a e₁ < value b e₁ := by
    intro a b hlt
    have hlt' : (a : ℚ) < b := by exact_mod_cast hlt
    unfold value
    gcongr
  rcases lt_trichotomy e₁ e₂ with he | rfl | he
  · rw [compare_lt_iff_lt.mpr he, compare_lt_iff_lt.mpr (h₁.value_lt_of_lt h₂ he)]
    rfl
  · rw [compare_eq_iff_eq.mpr rfl, Ordering.eq_then]
    rcases lt_trichotomy m₁ m₂ with hm | rfl | hm
    · rw [compare_lt_iff_lt.mpr hm, compare_lt_iff_lt.mpr (hscale hm)]
    · rw [compare_eq_iff_eq.mpr rfl, compare_eq_iff_eq.mpr rfl]
    · rw [compare_gt_iff_gt.mpr hm, compare_gt_iff_gt.mpr (hscale hm)]
  · rw [compare_gt_iff_gt.mpr he, compare_gt_iff_gt.mpr (h₂.value_lt_of_lt h₁ he)]
    rfl

/-- Between the ends of the line, places are compared as numbers. -/
theorem compare_coe (a b : ℚ) :
    compare ((a : WithTop ℚ) : WithBot (WithTop ℚ)) (b : WithTop ℚ) = compare a b := by
  rcases lt_trichotomy a b with h | rfl | h
  · rw [compare_lt_iff_lt.mpr h, compare_lt_iff_lt]
    exact WithBot.coe_lt_coe.mpr (WithTop.coe_lt_coe.mpr h)
  · rw [compare_eq_iff_eq.mpr rfl, compare_eq_iff_eq.mpr rfl]
  · rw [compare_gt_iff_gt.mpr h, compare_gt_iff_gt]
    exact WithBot.coe_lt_coe.mpr (WithTop.coe_lt_coe.mpr h)

/-- Two floats that are not zero are compared by sign, then as `Canonical.compare_eq` says. -/
theorem Canonical.compare_signed {m₁ m₂ : Nat} {e₁ e₂ : Int} (h₁ : Canonical m₁ e₁)
    (h₂ : Canonical m₂ e₂) (s₁ s₂ : Sign) :
    UnpackedFloat.compare (.finite s₁ m₁ e₁ h₁.pos) (.finite s₂ m₂ e₂ h₂.pos) =
      some (compare (signed (s₁ == .negative) m₁ e₁) (signed (s₂ == .negative) m₂ e₂)) := by
  have hpos₁ := value_pos (e := e₁) h₁.pos
  have hpos₂ := value_pos (e := e₂) h₂.pos
  have hsame := h₁.compare_eq h₂
  cases s₁ with
  | positive =>
      cases s₂ with
      | positive => exact congrArg some hsame
      | negative =>
          have hlt : -value m₂ e₂ < value m₁ e₁ := by linarith
          exact congrArg some (compare_gt_iff_gt.mpr hlt).symm
  | negative =>
      cases s₂ with
      | positive =>
          have hlt : -value m₁ e₁ < value m₂ e₂ := by linarith
          exact congrArg some (compare_lt_iff_lt.mpr hlt).symm
      | negative =>
          change some ((compare e₁ e₂).then (compare m₁ m₂)).swap =
            some (compare (-value m₁ e₁) (-value m₂ e₂))
          rw [hsame]
          congr 1
          rcases lt_trichotomy (value m₁ e₁) (value m₂ e₂) with h | h | h
          · rw [compare_lt_iff_lt.mpr h, compare_gt_iff_gt.mpr (neg_lt_neg h)]
            rfl
          · rw [h, compare_eq_iff_eq.mpr rfl, compare_eq_iff_eq.mpr rfl]
            rfl
          · rw [compare_gt_iff_gt.mpr h, compare_lt_iff_lt.mpr (neg_lt_neg h)]
            rfl

/-- How two values compare: as their places do, if both have one. -/
def order? (a b : Binary) : Option Ordering :=
  a.place?.bind fun p => b.place?.map fun q => compare p q

theorem compare_eq_order? (x y : Float) :
    x.toModel.unpack.compare y.toModel.unpack = (ofFloat x).order? (ofFloat y) := by
  unfold order?
  cases hx : x.toModel.unpack with
  | notANumber =>
      rw [ofFloat_notANumber hx]
      rfl
  | infinity s =>
      rw [ofFloat_infinity hx]
      cases hy : y.toModel.unpack with
      | notANumber =>
          rw [ofFloat_notANumber hy]
          cases s <;> rfl
      | infinity s' =>
          rw [ofFloat_infinity hy]
          cases s <;> cases s' <;> rfl
      | zero s' =>
          rw [ofFloat_zero hy]
          cases s <;> rfl
      | finite s' m e hm =>
          rw [ofFloat_finite hy]
          cases s <;> rfl
  | zero s =>
      rw [ofFloat_zero hx]
      cases hy : y.toModel.unpack with
      | notANumber =>
          rw [ofFloat_notANumber hy]
          rfl
      | infinity s' =>
          rw [ofFloat_infinity hy]
          cases s' <;> rfl
      | zero s' =>
          rw [ofFloat_zero hy]
          simp only [place?, Option.bind_some, Option.map_some, compare_coe, signed_zero]
          rfl
      | finite s' m e hm =>
          have hpos := value_pos (e := e) hm
          rw [ofFloat_finite hy]
          simp only [place?, Option.bind_some, Option.map_some, compare_coe, signed_zero]
          cases s' with
          | positive => exact congrArg some (compare_lt_iff_lt.mpr hpos).symm
          | negative => exact congrArg some (compare_gt_iff_gt.mpr (neg_neg_of_pos hpos)).symm
  | finite s m e hm =>
      rw [ofFloat_finite hx]
      cases hy : y.toModel.unpack with
      | notANumber =>
          rw [ofFloat_notANumber hy]
          cases s <;> rfl
      | infinity s' =>
          rw [ofFloat_infinity hy]
          cases s <;> cases s' <;> rfl
      | zero s' =>
          have hpos := value_pos (e := e) hm
          rw [ofFloat_zero hy]
          simp only [place?, Option.bind_some, Option.map_some, compare_coe, signed_zero]
          cases s with
          | positive => exact congrArg some (compare_gt_iff_gt.mpr hpos).symm
          | negative => exact congrArg some (compare_lt_iff_lt.mpr (neg_neg_of_pos hpos)).symm
      | finite s' m' e' hm' =>
          rw [ofFloat_finite hy]
          simp only [place?, Option.bind_some, Option.map_some, compare_coe]
          exact (canonical_of_unpack hx).compare_signed (canonical_of_unpack hy) s s'

theorem lt_iff_order? {x y : Float} : x < y ↔ (ofFloat x).order? (ofFloat y) = some .lt := by
  rw [← compare_eq_order?]
  change decide (x.toModel < y.toModel) = true ↔ _
  rw [decide_eq_true_iff]
  exact beq_iff_eq

theorem beq_iff_order? {x y : Float} :
    (x == y) = true ↔ (ofFloat x).order? (ofFloat y) = some .eq := by
  rw [← compare_eq_order?]
  change (x.toModel.unpack.compare y.toModel.unpack == some .eq) = true ↔ _
  exact beq_iff_eq

section Order

variable {a b : Binary} {p q : WithBot (WithTop ℚ)}

theorem order?_of_place? (ha : a.place? = some p) (hb : b.place? = some q) :
    a.order? b = some (compare p q) := by
  unfold order?
  rw [ha, hb]
  rfl

theorem order?_eq_none : a.order? b = none ↔ a.place? = none ∨ b.place? = none := by
  unfold order?
  cases a.place? with
  | none => simp
  | some p => simp

theorem order?_swap : b.order? a = (a.order? b).map Ordering.swap := by
  unfold order?
  cases a.place? with
  | none => cases b.place? <;> rfl
  | some p =>
      cases b.place? with
      | none => rfl
      | some q => exact congrArg some Std.OrientedCmp.eq_swap

end Order

end Binary

end PocketLisp
