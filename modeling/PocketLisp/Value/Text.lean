import PocketLisp.Number.Text
import PocketLisp.Value.Basic

/-!
# The text of values

The printed form of a value. What the reader can produce is printed in a form that reads back;
primitives and procedures are printed as a description that does not.
-/

namespace PocketLisp

namespace Value

mutual

def text : Value → String
  | .number n => n.text
  | .symbol name => name
  | .list elements => "(" ++ " ".intercalate (texts elements) ++ ")"
  | .primitive p => "#<primitive " ++ p.name ++ ">"
  | .procedure p => "#<procedure " ++ p.name ++ ">"

def texts : List Value → List String
  | [] => []
  | v :: vs => v.text :: texts vs

end

end Value

/-- A procedure as it is defined: name, parameters and body. -/
def Procedure.text (p : Procedure Value) : String :=
  "(" ++ p.name ++ " (" ++ " ".intercalate p.parameters ++ ") " ++ p.body.text ++ ")"

end PocketLisp
