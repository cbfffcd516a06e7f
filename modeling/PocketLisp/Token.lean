import PocketLisp.Text.WhiteSpace

/-!
# Tokens

A text is split into brackets and atoms. A bracket always stands alone; an atom is a run, as long
as possible, of characters that are neither white space nor brackets.
-/

namespace PocketLisp

inductive Token where
  | openBracket
  | closeBracket
  | atom (text : String)
  deriving DecidableEq, Repr

namespace Token

def text : Token → String
  | .openBracket => "("
  | .closeBracket => ")"
  | .atom text => text

/-- What the characters from some place on amount to: the atom that reaches that place, possibly
empty, and the tokens after it. -/
structure Scan where
  run : List Char
  after : List Token

namespace Scan

/-- The tokens, the atom being one only if it is not empty. -/
def tokens : Scan → List Token
  | ⟨[], after⟩ => after
  | ⟨run, after⟩ => .atom (String.ofList run) :: after

/-- Puts one more character in front. -/
def cons (c : Char) (s : Scan) : Scan :=
  if c = '(' then ⟨[], .openBracket :: s.tokens⟩
  else if c = ')' then ⟨[], .closeBracket :: s.tokens⟩
  else if Text.isWhiteSpace c then ⟨[], s.tokens⟩
  else ⟨c :: s.run, s.after⟩

end Scan

/-- Scans from right to left, so that an atom is complete when its first character is met. -/
def ofChars (cs : List Char) : List Token :=
  (cs.foldr Scan.cons ⟨[], []⟩).tokens

/-- The tokens of a text, in order. -/
def ofText (s : String) : List Token :=
  ofChars s.toList

end Token

end PocketLisp
