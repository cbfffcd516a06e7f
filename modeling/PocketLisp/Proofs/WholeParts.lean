import PocketLisp.Proofs.Casts

/-!
# Whole parts

A float is rounded down or up to the integer next to the rational number that it is: first to a
float, which loses nothing, because a float with digits behind the point is small; then to an
integer. What has no such integer in range overflows. So does the least integer of all, although it
is in range and a float: the test between the two steps does not let it pass.
-/

namespace PocketLisp

namespace Binary

theorem floor?_eq_map (b : Binary) : b.floor? = b.rational?.map Int.floor := by
  cases b with
  | finite negative m e =>
      change some ((if negative then -((fraction m e).1 : Int) else (fraction m e).1) /
        ((fraction m e).2 : Int)) = some ⌊signed negative m e⌋
      rw [← Rat.floor_intCast_div_natCast, signed, value_eq_fraction]
      cases negative with
      | false => simp
      | true => simp [neg_div]
  | infinite negative => rfl
  | notANumber => rfl

theorem ceil?_eq_map (b : Binary) : b.ceil? = b.rational?.map Int.ceil := by
  cases b with
  | finite negative m e =>
      change some (-((if negative then ((fraction m e).1 : Int) else -(fraction m e).1) /
        ((fraction m e).2 : Int))) = some ⌈signed negative m e⌉
      rw [← Rat.floor_intCast_div_natCast, ← Int.ceil_neg, signed, value_eq_fraction]
      cases negative with
      | false => simp [neg_div]
      | true => simp
  | infinite negative => rfl
  | notANumber => rfl

/-- A small natural number and its negative are floats. -/
theorem rational?_small {k : Nat} (h : k < 2 ^ 53) (negative : Bool) :
    (ofFloat (if negative then -k.toUInt64.toFloat else k.toUInt64.toFloat)).rational? =
      some (if negative then -(k : ℚ) else k) := by
  rcases Nat.eq_zero_or_pos k with rfl | hk
  · have hzero : (-(Nat.toUInt64 0).toFloat).toModel.unpack = .zero .negative := rfl
    cases negative with
    | false => exact (rational?_zero Exact.unpack_zero).trans (by simp)
    | true => exact (rational?_zero hzero).trans (by simp)
  · cases negative with
    | false => exact (ofNat_exact hk h).rational?
    | true => exact (ofNat_exact hk h).rational?_neg

end Binary

/-- Down or up to an integer. -/
inductive Direction where
  | down
  | up
  deriving DecidableEq, Repr

namespace Direction

def primitive : Direction → Primitive
  | .down => .floor
  | .up => .ceil

/-- The integer next to a number, unless it is one. -/
def whole : Direction → ℚ → ℤ
  | .down => Int.floor
  | .up => Int.ceil

theorem whole_intCast (d : Direction) (n : ℤ) : d.whole n = n := by
  cases d with
  | down => exact Int.floor_intCast n
  | up => exact Int.ceil_intCast n

theorem whole_mono (d : Direction) {p q : ℚ} (h : p ≤ q) : d.whole p ≤ d.whole q := by
  cases d with
  | down => exact Int.floor_mono h
  | up => exact Int.ceil_mono h

def whole? : Direction → Binary → Option Int
  | .down => Binary.floor?
  | .up => Binary.ceil?

theorem whole?_eq_map (d : Direction) (b : Binary) : d.whole? b = b.rational?.map d.whole := by
  cases d with
  | down => exact b.floor?_eq_map
  | up => exact b.ceil?_eq_map

/-- The integer next to a number with digits behind the point is small, and keeps the sign. -/
theorem whole_signed (d : Direction) (negative : Bool) {m : Nat} {e : Int} (hm : m < 2 ^ 53)
    (he : e < 0) : ∃ k : Nat, k < 2 ^ 53 ∧
      d.whole (Binary.signed negative m e) = if negative then -(k : Int) else k := by
  have hnonneg := Binary.value_nonneg m e
  have hle : Binary.value m e ≤ ((2 ^ 53 - 1 : Int) : ℚ) := by
    have hpow : (2 : ℚ) ^ e ≤ 1 := zpow_le_one_of_nonpos₀ one_le_two he.le
    have hm' : (m : ℚ) ≤ ((2 ^ 53 - 1 : Int) : ℚ) := by
      exact_mod_cast (by omega : (m : Int) ≤ 2 ^ 53 - 1)
    calc Binary.value m e ≤ m * 1 := mul_le_mul_of_nonneg_left hpow m.cast_nonneg
      _ ≤ _ := (mul_one _).trans_le hm'
  refine ⟨(d.whole (Binary.signed negative m e)).natAbs, ?_⟩
  cases negative with
  | false =>
      have hlow := d.whole_mono (p := ((0 : Int) : ℚ)) (q := Binary.signed false m e)
        (by exact_mod_cast hnonneg)
      have hhigh := d.whole_mono (p := Binary.signed false m e) hle
      rw [d.whole_intCast] at hlow hhigh
      simp only [Bool.false_eq_true, ↓reduceIte]
      omega
  | true =>
      have hlow := d.whole_mono (p := ((-(2 ^ 53 - 1) : Int) : ℚ)) (q := Binary.signed true m e)
        (by rw [Int.cast_neg]; exact neg_le_neg hle)
      have hhigh := d.whole_mono (p := Binary.signed true m e) (q := ((0 : Int) : ℚ))
        (by rw [Int.cast_zero]; exact neg_nonpos_of_nonneg hnonneg)
      rw [d.whole_intCast] at hlow hhigh
      simp only [↓reduceIte]
      omega

/-- Rounding to a float gives the very integer next to the number. -/
theorem rational?_roundedBy (d : Direction) {x : Float} {q : ℚ}
    (h : (Binary.ofFloat x).rational? = some q) :
    (Binary.ofFloat (Number.roundedBy d.whole? x)).rational? = some (d.whole q : ℚ) := by
  have hwhole := d.whole?_eq_map (Binary.ofFloat x)
  rw [h, Option.map_some] at hwhole
  cases hx : Binary.ofFloat x with
  | notANumber =>
      rw [hx] at h
      cases h
  | infinite negative =>
      rw [hx] at h
      cases h
  | finite negative m e =>
      have hq : Binary.signed negative m e = q := by
        rw [hx] at h
        exact Option.some.inj h
      rw [hx] at hwhole
      by_cases he : 0 ≤ e
      · have hsame : Number.roundedBy d.whole? x = x := by
          simp only [Number.roundedBy, hx, hwhole, he, ↓reduceIte]
        obtain ⟨n, hn⟩ := Binary.exists_intCast negative m he
        rw [hsame, h, ← hq, hn, d.whole_intCast]
      · obtain ⟨k, hk, hn⟩ :=
          d.whole_signed negative (Binary.fits_of_ofFloat hx) (not_le.mp he)
        rw [hq] at hn
        have hmagnitude : (d.whole q).natAbs = k := by
          rw [hn]
          cases negative <;> simp
        have hrounded : Number.roundedBy d.whole? x =
            if negative then -k.toUInt64.toFloat else k.toUInt64.toFloat := by
          simp only [Number.roundedBy, hx, hwhole, he, ↓reduceIte, hmagnitude]
        rw [hrounded, Binary.rational?_small hk, hn]
        cases negative <;> simp

theorem roundedBy_of_not_finite (d : Direction) {x : Float} (h : x.isFinite = false) :
    Number.roundedBy d.whole? x = x := by
  rw [← Binary.rational?_isSome, Option.isSome_eq_false_iff, Option.isNone_iff_eq_none] at h
  have hwhole := d.whole?_eq_map (Binary.ofFloat x)
  rw [h, Option.map_none] at hwhole
  rw [Number.roundedBy, hwhole]
  cases Binary.ofFloat x with
  | notANumber => rfl
  | infinite negative => rfl
  | finite negative m e => rfl

theorem answers_integer (d : Direction) (n : Int64) :
    d.primitive.Answers [.number (.integer n)] (.ok (.number (.integer n))) := by
  cases d with
  | down => exact Primitive.answers_onNumber rfl rfl
  | up => exact Primitive.answers_onNumber rfl rfl

theorem answers_float (d : Direction) (x : Float) :
    d.primitive.Answers [.number (.float x)]
      (Primitive.numberOr .overflow (Number.ofRounded? (Number.roundedBy d.whole? x))) := by
  cases d with
  | down => exact Primitive.answers_onNumber rfl rfl
  | up => exact Primitive.answers_onNumber rfl rfl

theorem answers_overflow (d : Direction) {x : Float} {q : ℚ}
    (hq : (Binary.ofFloat x).rational? = some q)
    (h : ¬ Number.InRange (d.whole q) ∨ d.whole q = Int64.minValue.toInt) :
    d.primitive.Answers [.number (.float x)] (.error .overflow) := by
  have hanswers := d.answers_float x
  rw [Number.ofRounded?_of_outside (d.rational?_roundedBy hq) h] at hanswers
  exact hanswers

/-- Rounding a finite float answers the very integer next to it. The least integer of all is never
answered, although it is in range: there rounding overflows, as it does out of range and where the
float is not finite. An integer is rounded to itself. -/
theorem whole_parts_exact (d : Direction) :
    (∀ x : Float, x.isFinite = true → ∃ q, (Binary.ofFloat x).rational? = some q ∧
      (Number.InRange (d.whole q) → d.whole q ≠ Int64.minValue.toInt →
        ∃ n : Int64, n.toInt = d.whole q ∧
          d.primitive.Answers [.number (.float x)] (.ok (.number (.integer n)))) ∧
      (¬ Number.InRange (d.whole q) ∨ d.whole q = Int64.minValue.toInt →
        d.primitive.Answers [.number (.float x)] (.error .overflow))) ∧
    (∀ x : Float, x.isFinite = false →
      d.primitive.Answers [.number (.float x)] (.error .overflow)) ∧
    ∀ n : Int64, d.primitive.Answers [.number (.integer n)] (.ok (.number (.integer n))) := by
  refine ⟨?_, ?_, d.answers_integer⟩
  · intro x hx
    rw [← Binary.rational?_isSome, Option.isSome_iff_exists] at hx
    obtain ⟨q, hq⟩ := hx
    refine ⟨q, hq, ?_, d.answers_overflow hq⟩
    intro hrange hne
    obtain ⟨n, hn, hsome⟩ :=
      Number.ofRounded?_of_inRange (d.rational?_roundedBy hq) hrange hne
    have hanswers := d.answers_float x
    rw [hsome] at hanswers
    exact ⟨n, hn, hanswers⟩
  · intro x hx
    have hanswers := d.answers_float x
    rw [d.roundedBy_of_not_finite hx, Number.ofRounded?_of_not_finite hx] at hanswers
    exact hanswers

/-- The greatest float below `2 ^ 63` is an integer, which is answered; what is just below zero is
rounded up to zero; an infinity overflows. -/
theorem whole_parts_exact_greatest :
    (∃ n : Int64, n.toInt = 9223372036854774784 ∧
      Primitive.floor.Answers [.number (.float 9223372036854774784.0)]
        (.ok (.number (.integer n)))) ∧
    (∃ n : Int64, n.toInt = 0 ∧
      Primitive.ceil.Answers [.number (.float (-0.5))] (.ok (.number (.integer n)))) ∧
    Primitive.floor.Answers [.number (.float (1.0 / 0.0))] (.error .overflow) := by
  obtain ⟨hdown, hinfinite, _⟩ := whole_parts_exact .down
  obtain ⟨hup, _, _⟩ := whole_parts_exact .up
  have hgreatest : Binary.ofFloat 9223372036854774784.0 = .finite false 9007199254740991 10 := by
    decide +kernel
  have hhalf : Binary.ofFloat (-0.5) = .finite true 4503599627370496 (-53) := by decide +kernel
  refine ⟨?_, ?_, hinfinite _ (by decide +kernel)⟩
  · obtain ⟨q, hq, hexact, _⟩ := hdown 9223372036854774784.0 (by decide +kernel)
    have hvalue : q = 9223372036854774784 := by
      rw [hgreatest] at hq
      rw [← Option.some.inj hq]
      norm_num [Binary.signed, Binary.value]
    have hwhole : Direction.down.whole q = 9223372036854774784 := by
      rw [hvalue]
      exact Int.floor_ofNat 9223372036854774784
    rw [hwhole] at hexact
    exact hexact (by decide) (by decide)
  · obtain ⟨q, hq, hexact, _⟩ := hup (-0.5) (by decide +kernel)
    have hvalue : q = -(1 / 2) := by
      rw [hhalf] at hq
      rw [← Option.some.inj hq]
      norm_num [Binary.signed, Binary.value]
    have hwhole : Direction.up.whole q = 0 := by
      rw [hvalue]
      change ⌈-(1 / 2 : ℚ)⌉ = 0
      norm_num
    rw [hwhole] at hexact
    exact hexact (by decide) (by decide)

/-- The least integer of 64 bits is a float, and is in range, but rounding overflows there in both
directions. -/
theorem least_not_answered :
    (Binary.ofFloat (-9223372036854775808.0)).rational? = some (Int64.minValue.toInt : ℚ) ∧
    ∀ d : Direction, d.whole Int64.minValue.toInt = Int64.minValue.toInt ∧
      Number.InRange Int64.minValue.toInt ∧
      d.primitive.Answers [.number (.float (-9223372036854775808.0))] (.error .overflow) ∧
      ¬ ∃ n, d.primitive.Answers [.number (.float (-9223372036854775808.0))]
        (.ok (.number (.integer n))) := by
  have hfields : Binary.ofFloat (-9223372036854775808.0) = .finite true 4503599627370496 11 := by
    decide +kernel
  have hrational : (Binary.ofFloat (-9223372036854775808.0)).rational? =
      some (Int64.minValue.toInt : ℚ) := by
    rw [hfields, Int64.toInt_minValue]
    norm_num [Binary.rational?, Binary.signed, Binary.value]
  refine ⟨hrational, ?_⟩
  intro d
  have hwhole := d.whole_intCast Int64.minValue.toInt
  have hover := d.answers_overflow hrational (Or.inr hwhole)
  refine ⟨hwhole, Number.inRange_toInt _, hover, ?_⟩
  intro h
  obtain ⟨n, hn⟩ := h
  cases hn.unique hover

end Direction

end PocketLisp
