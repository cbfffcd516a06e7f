import PocketLisp.Number.Binary

/-!
# Numbers

A number is a 64-bit integer or a 64-bit float. Integer arithmetic is exact and answers `none` when
the exact result does not fit; as soon as one operand is a float, the other is converted.
-/

namespace PocketLisp

inductive Number where
  | integer (n : Int64)
  | float (x : Float)

namespace Number

/-- The integer number `n`, unless it leaves the 64-bit range. -/
def ofInt? (n : Int) : Option Number :=
  if Int64.minValue.toInt ≤ n ∧ n ≤ Int64.maxValue.toInt then some (.integer (Int64.ofInt n))
  else none

/-- The nearest float, a half going to the even neighbour. -/
def floatOfInt (n : Int) : Float :=
  let magnitude := n.natAbs.toUInt64.toFloat
  if n < 0 then -magnitude else magnitude

def toFloat : Number → Float
  | .integer n => floatOfInt n.toInt
  | .float x => x

def isZero : Number → Bool
  | .integer n => n == 0
  | .float x => x == 0.0

/-- Exact on two integers, rounded otherwise. -/
def arithmetic (exactly : Int → Int → Int) (rounded : Float → Float → Float) :
    Number → Number → Option Number
  | .integer a, .integer b => ofInt? (exactly a.toInt b.toInt)
  | a, b => some (.float (rounded a.toFloat b.toFloat))

def add? : Number → Number → Option Number :=
  arithmetic (· + ·) (· + ·)

def sub? : Number → Number → Option Number :=
  arithmetic (· - ·) (· - ·)

def mul? : Number → Number → Option Number :=
  arithmetic (· * ·) (· * ·)

/-- The quotient is a float, also of two integers; a zero divisor has none. -/
def div? (a b : Number) : Option Number :=
  if b.isZero then none else some (.float (a.toFloat / b.toFloat))

def abs? : Number → Option Number
  | .integer n => ofInt? n.toInt.natAbs
  | .float x => some (.float x.abs)

/-- Rounds to an integer, which is a float again and keeps the sign of `x` where it comes to zero.
A float with no digits behind the point, or that is not finite, is left as it is. -/
def roundedBy (whole? : Binary → Option Int) (x : Float) : Float :=
  match Binary.ofFloat x, whole? (Binary.ofFloat x) with
  | .finite negative _ exponent, some n =>
    if 0 ≤ exponent then x
    else if negative then -n.natAbs.toUInt64.toFloat
    else n.natAbs.toUInt64.toFloat
  | _, _ => x

/-- A rounded float as an integer. Whether it fits is seen from its absolute value, which has to be
less than the greatest integer as a float. -/
def ofRounded? (x : Float) : Option Number :=
  if x.isFinite && decide (x.abs < toFloat (.integer Int64.maxValue)) then
    some (.integer (Binary.ofFloat x).toInt64)
  else none

def floor? : Number → Option Number
  | .integer n => some (.integer n)
  | .float x => ofRounded? (roundedBy Binary.floor? x)

def ceil? : Number → Option Number
  | .integer n => some (.integer n)
  | .float x => ofRounded? (roundedBy Binary.ceil? x)

/-- How two floats compare; a NaN does not. -/
def compareFloats? (x y : Float) : Option Ordering :=
  if x < y then some .lt
  else if x == y then some .eq
  else if y < x then some .gt
  else none

/-- Integers are compared exactly, a mixed pair as floats. -/
def compare? : Number → Number → Option Ordering
  | .integer a, .integer b => some (compare a.toInt b.toInt)
  | a, b => compareFloats? a.toFloat b.toFloat

/-- Integers are compared exactly, a mixed pair as floats; a NaN equals nothing. -/
def equal : Number → Number → Bool
  | .integer a, .integer b => a == b
  | a, b => a.toFloat == b.toFloat

end Number

end PocketLisp
