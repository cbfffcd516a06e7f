import PocketLisp.Value.Reader

/-!
# Programs

A program is a sequence of statements. It may also be written as one list of them, a block.
-/

namespace PocketLisp.Program

def isNonemptyList : Value → Bool
  | .list (_ :: _) => true
  | _ => false

/-- The forms of a program, one block being unwrapped into the statements it holds. A block is a
list, not empty, of lists that are not empty. -/
def statements : List Value → List Value
  | [.list elements] =>
    if !elements.isEmpty && elements.all isNonemptyList then elements else [.list elements]
  | forms => forms

end PocketLisp.Program
