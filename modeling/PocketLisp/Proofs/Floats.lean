import Mathlib
import PocketLisp.Number.Binary

/-!
# The fields of a float

A float is a sign, eleven bits of exponent and fifty-two of mantissa. Taking a float apart and
putting it together again loses nothing, because the one value that is no number has one form.
Every mantissa and exponent that can come out are described here, and those are all that go back.
-/

namespace PocketLisp

open Float.Model Float.Model.UnpackedFloat

namespace Binary

/-- The mantissa and exponent of a finite float that is not zero: as many leading digits as fit,
unless the exponent is the least one. -/
structure Canonical (mantissa : Nat) (exponent : Int) : Prop where
  pos : 0 < mantissa
  fits : mantissa < 2 ^ 53
  least : -1074 ≤ exponent
  greatest : exponent ≤ 971
  leading : 2 ^ 52 ≤ mantissa ∨ exponent = -1074

theorem toNat_implicit (m : BitVec 52) : (1#1 ++ m).toNat = 2 ^ 52 + m.toNat := by
  rw [BitVec.toNat_append, ← Nat.shiftLeft_add_eq_or_of_lt m.isLt, Nat.shiftLeft_eq]
  rfl

/-- What the three fields of a float stand for. -/
def ofFields (s : Sign) (e : BitVec 11) (m : BitVec 52) : UnpackedFloat :=
  if e = -1#11 then
    if m = 0#52 then .infinity s else .notANumber
  else if e = 0#11 then
    if h : m = 0#52 then .zero s
    else .finite s m.toNat (-1074) (by simpa [BitVec.toNat_pos, BitVec.pos_iff_ne_zero])
  else .finite s (1#1 ++ m).toNat (e.toNat - 1075) (by rw [toNat_implicit]; omega)

theorem unpack_eq_ofFields (b : BitVec Format.binary64.numBits) :
    UnpackedFloat.unpack Format.binary64 b =
      ofFields (Sign.ofBitVec (unpackSign b)) (unpackExponent b) (unpackMantissa b) := by
  unfold UnpackedFloat.unpack ofFields
  by_cases hzero : unpackExponent b = 0#11
  · simp only [hzero]
    rfl
  · simp only [hzero]
    rfl

theorem unpack_packComponents (s : Sign) (e : BitVec 11) (m : BitVec 52) :
    UnpackedFloat.unpack Format.binary64 (packComponents Format.binary64 s e m) =
      ofFields s e m := by
  rw [unpack_eq_ofFields, unpackSign_packComponents, Sign.ofBitVec_toBitVec,
    unpackExponent_packComponents, unpackMantissa_packComponents]

/-- Packing brings the fields back, if they are not those of the value that is no number. -/
theorem pack_ofFields (s : Sign) {e : BitVec 11} (m : BitVec 52) (h : e ≠ -1#11) :
    UnpackedFloat.pack Format.binary64 (ofFields s e m) =
      packComponents Format.binary64 s e m := by
  rw [← unpack_packComponents, UnpackedFloat.pack_unpack, if_neg]
  simp only [isNaNBits, unpackExponent_packComponents, decide_eq_true_eq]
  exact fun hnan => h hnan.1

theorem canonical_of_ofFields {s s' : Sign} {e : BitVec 11} {m : BitVec 52} {mantissa : Nat}
    {exponent : Int} {hm : 0 < mantissa} (h : ofFields s e m = .finite s' mantissa exponent hm) :
    Canonical mantissa exponent := by
  have hlt := m.isLt
  have hlt' := e.isLt
  unfold ofFields at h
  split at h
  · split at h <;> cases h
  · rename_i hones
    have hne : e.toNat ≠ 2047 := fun heq => hones (BitVec.eq_of_toNat_eq heq)
    split at h
    · split at h
      · cases h
      · cases h
        exact ⟨hm, by omega, by omega, by omega, Or.inr rfl⟩
    · rename_i hzero
      have hne' : e.toNat ≠ 0 := fun heq => hzero (BitVec.eq_of_toNat_eq heq)
      have himplicit := toNat_implicit m
      cases h
      exact ⟨hm, by omega, by omega, by omega, Or.inl (by omega)⟩

theorem Canonical.exists_ofFields {mantissa : Nat} {exponent : Int}
    (h : Canonical mantissa exponent) (s : Sign) :
    ∃ (e : BitVec 11) (m : BitVec 52), e ≠ -1#11 ∧
      ofFields s e m = .finite s mantissa exponent h.pos := by
  obtain ⟨hpos, hfits, hleast, hgreatest, hleading⟩ := h
  by_cases hlow : 2 ^ 52 ≤ mantissa
  · have he : (BitVec.ofNat 11 (exponent + 1075).toNat).toNat = (exponent + 1075).toNat := by
      rw [BitVec.toNat_ofNat, Nat.mod_eq_of_lt (by omega)]
    have hm : (1#1 ++ BitVec.ofNat 52 mantissa).toNat = mantissa := by
      rw [toNat_implicit, BitVec.toNat_ofNat]
      omega
    have hones : BitVec.ofNat 11 (exponent + 1075).toNat ≠ -1#11 := by
      intro h
      rw [h, show (-1#11).toNat = 2047 from rfl] at he
      omega
    have hzero : BitVec.ofNat 11 (exponent + 1075).toNat ≠ 0#11 := by
      intro h
      rw [h, show (0#11).toNat = 0 from rfl] at he
      omega
    refine ⟨BitVec.ofNat 11 (exponent + 1075).toNat, BitVec.ofNat 52 mantissa, hones, ?_⟩
    have hexp : ((exponent + 1075).toNat : Int) - 1075 = exponent := by omega
    simp only [ofFields, hones, hzero, ↓reduceIte, hm, he, hexp]
  · have he := hleading.resolve_left hlow
    subst he
    have hm : (BitVec.ofNat 52 mantissa).toNat = mantissa := by
      rw [BitVec.toNat_ofNat, Nat.mod_eq_of_lt (by omega)]
    have hne : BitVec.ofNat 52 mantissa ≠ 0#52 := by
      intro h
      rw [h] at hm
      exact hpos.ne hm
    refine ⟨0#11, BitVec.ofNat 52 mantissa, by decide, ?_⟩
    simp only [ofFields, hne, hm]
    rfl

theorem canonical_of_unpack {f : Float.Model} {s : Sign} {mantissa : Nat} {exponent : Int}
    {hm : 0 < mantissa} (h : f.unpack = .finite s mantissa exponent hm) :
    Canonical mantissa exponent :=
  canonical_of_ofFields ((unpack_eq_ofFields _).symm.trans h)

theorem unpack_pack {s : Sign} {mantissa : Nat} {exponent : Int}
    (h : Canonical mantissa exponent) :
    (Float.Model.pack (.finite s mantissa exponent h.pos)).unpack =
      .finite s mantissa exponent h.pos := by
  obtain ⟨e, m, hones, hfields⟩ := h.exists_ofFields s
  change UnpackedFloat.unpack Format.binary64 (UnpackedFloat.pack Format.binary64 _) = _
  rw [← hfields, pack_ofFields s m hones, unpack_packComponents]

theorem pack_unpack (f : Float.Model) : Float.Model.pack f.unpack = f := by
  obtain ⟨bits, hvalid⟩ := f
  unfold Float.Model.pack Float.Model.unpack
  simp only [pack_unpack_of_valid hvalid]

end Binary

end PocketLisp
