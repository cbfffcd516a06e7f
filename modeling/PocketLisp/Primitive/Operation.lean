import PocketLisp.Machine.Sink
import PocketLisp.Value.Equality

/-!
# What primitives do

Every primitive is an operation on one or two values, except that `BEGIN` keeps the last of its
arguments, one or more, and `PRINT` writes. The arity of a primitive is that of its operation.
Main statement: an operation applies to a list of arguments exactly when its arity accepts their
number.
-/

namespace PocketLisp

inductive Operation where
  | unary (f : Value → Except Fault Value)
  | binary (f : Value → Value → Except Fault Value)
  | last
  | print

namespace Operation

def arity : Operation → Arity
  | .unary _ | .print => .exactly 1
  | .binary _ => .exactly 2
  | .last => .atLeast 1

/-- Writes the text of a value on a line of its own. -/
def printLine (v : Value) (s : Sink) : Except Fault Value × Sink :=
  match s.write (v.text ++ "\n") with
  | (.ok (), s) => (.ok .null, s)
  | (.error cause, s) => (.error (.output cause), s)

/-- The effect of the operation on the sink and its result, if the number of arguments fits. -/
def onArguments? : Operation → List Value → Option (Sink → Except Fault Value × Sink)
  | .unary f, [x] => some fun s => (f x, s)
  | .binary f, [x, y] => some fun s => (f x y, s)
  | .last, x :: xs => some fun s => (.ok (xs.getLast?.getD x), s)
  | .print, [x] => some (printLine x)
  | _, _ => none

theorem isSome_onArguments? (op : Operation) (args : List Value) :
    (op.onArguments? args).isSome = op.arity.accepts args.length := by
  match op, args with
  | .unary _, [] | .unary _, [_] | .unary _, _ :: _ :: _ => simp [onArguments?, arity, Arity.accepts]
  | .binary _, [] | .binary _, [_] | .binary _, [_, _] | .binary _, _ :: _ :: _ :: _ =>
      simp [onArguments?, arity, Arity.accepts]
  | .last, [] | .last, _ :: _ => simp [onArguments?, arity, Arity.accepts]
  | .print, [] | .print, [_] | .print, _ :: _ :: _ => simp [onArguments?, arity, Arity.accepts]

end Operation

namespace Primitive

def numberOf (v : Value) : Except Fault Number :=
  v.asNumber.mapError .mismatch

/-- A result, or the fault that stands for its absence. -/
def numberOr (fault : Fault) : Option Number → Except Fault Value
  | some n => .ok (.number n)
  | none => .error fault

def onNumber (f : Number → Except Fault Value) : Operation :=
  .unary fun x => do f (← numberOf x)

/-- The first argument that is no number is the one reported. -/
def onNumbers (f : Number → Number → Except Fault Value) : Operation :=
  .binary fun x y => do
    let a ← numberOf x
    let b ← numberOf y
    f a b

/-- A test of how two numbers compare, which fails where they do not. -/
def onComparison (test : Ordering → Bool) : Operation :=
  onNumbers fun a b => .ok (.ofBool ((a.compare? b).any test))

/-- A function on floats; where a number has no image, it is outside the domain. -/
def onFloat (p : Primitive) (f : Float → Float) : Operation :=
  onNumber fun n =>
    let x := n.toFloat
    let y := f x
    if y.isNaN && !x.isNaN then .error (.outsideDomain p) else .ok (.number (.float y))

def operation (p : Primitive) : Operation :=
  match p with
  | .add => onNumbers fun a b => numberOr .overflow (a.add? b)
  | .subtract => onNumbers fun a b => numberOr .overflow (a.sub? b)
  | .multiply => onNumbers fun a b => numberOr .overflow (a.mul? b)
  | .divide => onNumbers fun a b => numberOr .divisionByZero (a.div? b)
  | .equal => .binary fun x y => .ok (.ofBool (x.equal y))
  | .less => onComparison Ordering.isLT
  | .greater => onComparison Ordering.isGT
  | .sequence => .last
  | .isNull => .unary fun x => .ok (.ofBool x.isNull)
  | .print => .print
  | .sqrt => onFloat p Float.sqrt
  | .exp => onFloat p Float.exp
  | .log => onNumber fun n =>
    if n.toFloat ≤ 0.0 then .error (.outsideDomain p) else .ok (.number (.float n.toFloat.log))
  | .sin => onFloat p Float.sin
  | .cos => onFloat p Float.cos
  | .tan => onFloat p Float.tan
  | .abs => onNumber fun n => numberOr .overflow n.abs?
  | .floor => onNumber fun n => numberOr .overflow n.floor?
  | .ceil => onNumber fun n => numberOr .overflow n.ceil?
  | .pow => onNumbers fun a b => .ok (.number (.float (a.toFloat.pow b.toFloat)))

def arity (p : Primitive) : Arity :=
  p.operation.arity

end Primitive

end PocketLisp
