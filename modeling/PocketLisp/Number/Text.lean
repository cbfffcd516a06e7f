import PocketLisp.Number.Basic
import PocketLisp.Number.Shortest

/-!
# The text of numbers

Integers are written in decimal. A finite float is written with its shortest digits: positionally,
and with at least one digit after the point, while the leading digit stands between `10 ^ -4` and
`10 ^ 15`, else with an exponent of a sign and at least two digits. Reading takes an integer where
the text is one in range, else a float, else nothing.
-/

namespace PocketLisp

namespace Decimal

def zeros (n : Nat) : String :=
  String.ofList (List.replicate n '0')

/-- The written digits, of which `point` stand before the point. -/
def positional (run : List Char) (point : Int) : String :=
  if point ≤ 0 then "0." ++ zeros (-point).toNat ++ String.ofList run
  else if run.length ≤ point.toNat then
    String.ofList run ++ zeros (point.toNat - run.length) ++ ".0"
  else String.ofList (run.take point.toNat) ++ "." ++ String.ofList (run.drop point.toNat)

/-- One digit before the point, and no point without a digit after it. -/
def mantissaText : List Char → String
  | [] => "0"
  | [d] => String.ofList [d]
  | d :: ds => String.ofList [d] ++ "." ++ String.ofList ds

/-- A sign and at least two digits. -/
def exponentText (e : Int) : String :=
  let run := toString e.natAbs
  (if e < 0 then "-" else "+") ++ (if run.length < 2 then "0" else "") ++ run

/-- The leading digit stands at the place `10 ^ e`. -/
def scientific (run : List Char) (e : Int) : String :=
  mantissaText run ++ "e" ++ exponentText e

/-- The text of a positive decimal. -/
def text (d : Decimal) : String :=
  let run := Nat.toDigits 10 d.digits
  let point : Int := run.length + d.exponent
  if -4 < point ∧ point ≤ 16 then positional run point else scientific run (point - 1)

end Decimal

namespace Number

def signText (negative : Bool) : String :=
  if negative then "-" else ""

def floatText (x : Float) : String :=
  match Binary.ofFloat x with
  | .notANumber => "nan"
  | .infinite negative => signText negative ++ "inf"
  | .finite negative mantissa exponent =>
    if mantissa = 0 then signText negative ++ "0.0"
    else signText negative ++ (Decimal.shortest x.abs mantissa exponent).text

def text : Number → String
  | .integer n => toString n.toInt
  | .float x => floatText x

/-- An optional sign and digits, in the 64-bit range. -/
def integerOfChars? (cs : List Char) : Option Number :=
  let (negative, run) := Decimal.splitSign cs
  if Decimal.isDigits run then
    let magnitude : Int := Decimal.natOfDigits run
    ofInt? (if negative then -magnitude else magnitude)
  else none

def infinity : Float :=
  1.0 / 0.0

def notANumber : Float :=
  0.0 / 0.0

/-- A decimal, or in any mixture of cases one of the words for the values that have no digits. -/
def magnitudeOfChars? (cs : List Char) : Option Float :=
  let word := String.ofList (cs.map Char.toLower)
  if word = "inf" ∨ word = "infinity" then some infinity
  else if word = "nan" then some notANumber
  else (Decimal.ofChars? cs).map Decimal.toFloat

/-- An optional sign and a magnitude; the sign of a zero is kept. -/
def floatOfChars? (cs : List Char) : Option Number :=
  let (negative, rest) := Decimal.splitSign cs
  (magnitudeOfChars? rest).map fun x => .float (if negative then -x else x)

/-- The number that a word writes, if it writes one. -/
def ofText? (word : String) : Option Number :=
  (integerOfChars? word.toList).or (floatOfChars? word.toList)

end Number

end PocketLisp
