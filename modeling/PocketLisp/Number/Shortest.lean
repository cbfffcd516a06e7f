import PocketLisp.Number.Binary
import PocketLisp.Number.Decimal

/-!
# Shortest decimals

`Decimal.shortest` finds the decimal with the fewest digits that reads back as a given float, and
among those the nearest one. For each number of digits only the two neighbours of the exact value
on that decimal grid can qualify. A candidate is accepted when it reads back, so nothing else has
to be known about rounding. The exact value, written out, is the answer of last resort.
-/

namespace PocketLisp.Decimal

/-- The number of decimal digits of a natural number. -/
def digitCount (n : Nat) : Nat :=
  (Nat.toDigits 10 n).length

/-- The place `p` of the leading digit of `num / den`: `10 ^ (p - 1) ≤ num / den < 10 ^ p`. -/
def leadingPlace (num den : Nat) : Int :=
  let p : Int := digitCount num - digitCount den
  let reached := if 0 ≤ p then den * Nat.pow 10 p.toNat ≤ num else den ≤ num * Nat.pow 10 (-p).toNat
  if reached then p + 1 else p

/-- The fraction `num / den` in units of `10 ^ place`. -/
def scaled (num den : Nat) (place : Int) : Nat × Nat :=
  if 0 ≤ place then (num, den * Nat.pow 10 place.toNat)
  else (num * Nat.pow 10 (-place).toNat, den)

/-- The decimal `n · 10 ^ place` if it reads back as `x`. In one unit, `x` is `value` and the decimal
is off by `distance`; a step of the mantissa of `x` is then `value / mantissa`. What is off by more
than half a step cannot read back, and is not read. -/
def readingBack? (x : Float) (mantissa value distance n : Nat) (place : Int) : Option Decimal :=
  let c := ofNat n place
  if 2 * mantissa * distance ≤ value && c.toFloat.toBits == x.toBits then some c else none

/-- Of the two neighbours of `num / den` on the grid of `10 ^ place`, the nearer one that reads
back as `x`. Half way the upper one is taken. -/
def nearestOnGrid? (x : Float) (mantissa num den : Nat) (place : Int) : Option Decimal :=
  let (n, d) := scaled num den place
  let below := n % d
  if 2 * below < d then
    (readingBack? x mantissa n below (n / d) place).or
      (readingBack? x mantissa n (d - below) (n / d + 1) place)
  else
    (readingBack? x mantissa n (d - below) (n / d + 1) place).or
      (readingBack? x mantissa n below (n / d) place)

/-- Tries one digit, then two, and so on, `tries` times. -/
def searchGrids? (x : Float) (mantissa num den : Nat) : (tries : Nat) → (place : Int) →
    Option Decimal
  | 0, _ => none
  | tries + 1, place =>
    (nearestOnGrid? x mantissa num den place).or
      (searchGrids? x mantissa num den tries (place - 1))

/-- The decimal expansion of `m · 2 ^ e`, digit for digit. -/
def expansion (mantissa : Nat) (exponent : Int) : Decimal :=
  if 0 ≤ exponent then ofNat (mantissa * Nat.pow 2 exponent.toNat) 0
  else ofNat (mantissa * Nat.pow 5 (-exponent).toNat) exponent

/-- The shortest decimal that reads back as `x`, which is `m · 2 ^ e` with `m` positive. Seventeen
digits are enough for every float. -/
def shortest (x : Float) (mantissa : Nat) (exponent : Int) : Decimal :=
  let (num, den) := Binary.fraction mantissa exponent
  (searchGrids? x mantissa num den 17 (leadingPlace num den - 1)).getD (expansion mantissa exponent)

end PocketLisp.Decimal
