/-!
# Primitives

The procedures that the language brings along, and the names they are found under.
-/

namespace PocketLisp

inductive Primitive where
  | add
  | subtract
  | multiply
  | divide
  | equal
  | less
  | greater
  | sequence
  | isNull
  | print
  | sqrt
  | exp
  | log
  | sin
  | cos
  | tan
  | abs
  | floor
  | ceil
  | pow
  deriving DecidableEq, Repr

namespace Primitive

def all : List Primitive :=
  [.add, .subtract, .multiply, .divide, .equal, .less, .greater, .sequence, .isNull, .print, .sqrt,
   .exp, .log, .sin, .cos, .tan, .abs, .floor, .ceil, .pow]

def name : Primitive → String
  | .add => "+"
  | .subtract => "-"
  | .multiply => "*"
  | .divide => "/"
  | .equal => "="
  | .less => "<"
  | .greater => ">"
  | .sequence => "BEGIN"
  | .isNull => "NULL?"
  | .print => "PRINT"
  | .sqrt => "SQRT"
  | .exp => "EXP"
  | .log => "LOG"
  | .sin => "SIN"
  | .cos => "COS"
  | .tan => "TAN"
  | .abs => "ABS"
  | .floor => "FLOOR"
  | .ceil => "CEIL"
  | .pow => "POW"

/-- The primitive spelled exactly `name`. -/
def ofName? (name : String) : Option Primitive :=
  all.find? (·.name == name)

end Primitive

end PocketLisp
