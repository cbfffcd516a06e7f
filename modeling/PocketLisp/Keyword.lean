import PocketLisp.Arity

/-!
# Keywords

The names of the special forms. A list whose head is a keyword is not a call: its operands arrive
unevaluated, and the form decides which of them to evaluate.
-/

namespace PocketLisp

inductive Keyword where
  | branch
  | loop
  | assign
  | first
  | rest
  | pair
  | isList
  | isNumber
  | isSymbol
  | define
  | truth
  deriving DecidableEq, Repr

namespace Keyword

def all : List Keyword :=
  [.branch, .loop, .assign, .first, .rest, .pair, .isList, .isNumber, .isSymbol, .define, .truth]

def name : Keyword → String
  | .branch => "IF"
  | .loop => "WHILE"
  | .assign => "SET"
  | .first => "CAR"
  | .rest => "CDR"
  | .pair => "CONS"
  | .isList => "LIST?"
  | .isNumber => "NUMBER?"
  | .isSymbol => "SYMBOL?"
  | .define => "DEFINE"
  | .truth => "T"

/-- The keyword spelled exactly `name`. -/
def ofName? (name : String) : Option Keyword :=
  all.find? (·.name == name)

def arity : Keyword → Arity
  | .truth => .exactly 0
  | .first | .rest | .isList | .isNumber | .isSymbol => .exactly 1
  | .loop | .assign | .pair => .exactly 2
  | .branch | .define => .exactly 3

end Keyword

end PocketLisp
