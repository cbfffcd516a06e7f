import PocketLisp.Number.Basic
import PocketLisp.Primitive.Basic

/-!
# Values

Programs and the data they compute with are one type: a program is read as a value and evaluated
to a value. Only the symbol `t` is true; the empty list is the value of what is false.
-/

namespace PocketLisp

abbrev Symbol := String

/-- A named body with parameters. The number `id` tells two definitions apart, even if they have
the same text. -/
structure Procedure (Expression : Type) where
  id : Nat
  name : Symbol
  parameters : List Symbol
  body : Expression

inductive Value where
  | number (n : Number)
  | symbol (name : Symbol)
  | list (elements : List Value)
  | primitive (p : Primitive)
  | procedure (p : Procedure Value)

namespace Value

def truthName : Symbol :=
  "t"

def truth : Value :=
  .symbol truthName

def null : Value :=
  .list []

instance : Inhabited Value :=
  ⟨null⟩

def ofBool (b : Bool) : Value :=
  if b then truth else null

/-- Every value but the symbol `t` counts as false. -/
def isTruth : Value → Bool
  | .symbol name => name == truthName
  | _ => false

def isNull : Value → Bool
  | .list [] => true
  | _ => false

def isNumber : Value → Bool
  | .number _ => true
  | _ => false

def isSymbol : Value → Bool
  | .symbol _ => true
  | _ => false

def isCallable : Value → Bool
  | .primitive _ | .procedure _ => true
  | _ => false

end Value

end PocketLisp
