/-!
# The exact value of a float

A float is a signed multiple of a power of two, an infinity, or no number. Rounding to an integer
and the choice of decimal digits start from this view, in integer arithmetic.
-/

namespace PocketLisp

/-- What a float denotes: `finite negative m e` is `± m · 2 ^ e`, and both zeros have `m = 0`. -/
inductive Binary where
  | notANumber
  | infinite (negative : Bool)
  | finite (negative : Bool) (mantissa : Nat) (exponent : Int)
  deriving DecidableEq, Repr

namespace Binary

open Float.Model.UnpackedFloat in
private def isNegative : Sign → Bool
  | .negative => true
  | .positive => false

def ofFloat (x : Float) : Binary :=
  match x.toModel.unpack with
  | .notANumber => .notANumber
  | .infinity sign => .infinite (isNegative sign)
  | .zero sign => .finite (isNegative sign) 0 0
  | .finite sign mantissa exponent _ => .finite (isNegative sign) mantissa exponent

/-- The numerator and the denominator of `m · 2 ^ e`. -/
def fraction (mantissa : Nat) (exponent : Int) : Nat × Nat :=
  if 0 ≤ exponent then (mantissa * Nat.pow 2 exponent.toNat, 1)
  else (mantissa, Nat.pow 2 (-exponent).toNat)

/-- The greatest integer that is not above the value; a value that is not finite has none. -/
def floor? : Binary → Option Int
  | .finite negative mantissa exponent =>
    let (num, den) := fraction mantissa exponent
    some ((if negative then -(num : Int) else num) / den)
  | _ => none

/-- The least integer that is not below the value; a value that is not finite has none. -/
def ceil? : Binary → Option Int
  | .finite negative mantissa exponent =>
    let (num, den) := fraction mantissa exponent
    some (-((if negative then (num : Int) else -num) / den))
  | _ => none

/-- The conversion to 64 bits: what stands behind the point is dropped, and what lies out of range
becomes the end of the range on its side. No number becomes zero. -/
def toInt64 : Binary → Int64
  | .finite negative mantissa exponent =>
    let (num, den) := fraction mantissa exponent
    Int64.ofIntClamp (if negative then -((num / den : Nat) : Int) else (num / den : Nat))
  | .infinite negative => if negative then Int64.minValue else Int64.maxValue
  | .notANumber => 0

end Binary

end PocketLisp
