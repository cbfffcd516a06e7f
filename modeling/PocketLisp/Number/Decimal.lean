/-!
# Decimals

A decimal is a run of digits at a place, and every decimal names a float: the nearest one, a half
going to the even neighbour. `Decimal.ofChars?` reads the written form of an unsigned decimal.
Zeros at the end of the run go into the exponent, so that `500.0`, `5e2` and `500` are one decimal
and reading depends on the value alone.
-/

namespace PocketLisp

/-- The number `digits · 10 ^ exponent`. -/
structure Decimal where
  digits : Nat
  exponent : Int
  deriving DecidableEq, Repr

namespace Decimal

def digitValue (c : Char) : Nat :=
  c.toNat - '0'.toNat

/-- The number that a run of digits writes, the empty run being zero. -/
def natOfDigits (run : List Char) : Nat :=
  run.foldl (fun n c => 10 * n + digitValue c) 0

def dropTrailingZeros (run : List Char) : List Char :=
  (run.reverse.dropWhile (· == '0')).reverse

/-- The decimal written by `run` when its last digit stands at the place `10 ^ place`. -/
def ofDigits (run : List Char) (place : Int) : Decimal :=
  let kept := dropTrailingZeros run
  ⟨natOfDigits kept, place + (run.length - kept.length : Nat)⟩

/-- The decimal `n · 10 ^ place`. -/
def ofNat (n : Nat) (place : Int) : Decimal :=
  ofDigits (Nat.toDigits 10 n) place

/-- The nearest float; beyond the greatest one this is infinity. -/
def toFloat (d : Decimal) : Float :=
  Float.ofScientific d.digits (decide (d.exponent < 0)) d.exponent.natAbs

/-- A leading sign, `true` for minus, and what follows it. -/
def splitSign : List Char → Bool × List Char
  | '-' :: rest => (true, rest)
  | '+' :: rest => (false, rest)
  | rest => (false, rest)

/-- A non-empty run of digits and nothing else. -/
def isDigits (run : List Char) : Bool :=
  !run.isEmpty && run.all Char.isDigit

/-- The exponent part: nothing, or `e` with an optional sign and digits. -/
def exponentOfChars? : List Char → Option Int
  | [] => some 0
  | c :: rest =>
    let (negative, run) := splitSign rest
    if (c == 'e' || c == 'E') && isDigits run then
      some (if negative then -(natOfDigits run : Int) else natOfDigits run)
    else none

/-- The fractional part, and what follows it. -/
def splitFraction : List Char → List Char × List Char
  | '.' :: rest => (rest.takeWhile Char.isDigit, rest.dropWhile Char.isDigit)
  | rest => ([], rest)

/-- Digits with an optional point and an optional exponent, and at least one digit before the
exponent. -/
def ofChars? (cs : List Char) : Option Decimal :=
  let whole := cs.takeWhile Char.isDigit
  let (fraction, rest) := splitFraction (cs.dropWhile Char.isDigit)
  if whole.isEmpty && fraction.isEmpty then none
  else (exponentOfChars? rest).map fun e => ofDigits (whole ++ fraction) (e - fraction.length)

end Decimal

end PocketLisp
