import PocketLisp.Machine.Table

/-!
# Environments

Variables live in the global frame or in the frame of a procedure call. Only the innermost call and
the globals are ever consulted: a procedure sees neither its caller's parameters nor those of any
other call in progress.
-/

namespace PocketLisp

abbrev Frame := Table Value

structure Environment where
  globals : Frame
  /-- One frame for every call in progress, the innermost first. -/
  calls : List Frame

namespace Environment

def empty : Environment :=
  ⟨Table.empty, []⟩

def depth (env : Environment) : Nat :=
  env.calls.length

def push (env : Environment) (frame : Frame) : Environment :=
  { env with calls := frame :: env.calls }

def pop (env : Environment) : Environment :=
  { env with calls := env.calls.tail }

def get? (env : Environment) (name : Symbol) : Option Value :=
  match env.calls with
  | [] => env.globals.get? name
  | frame :: _ => (frame.get? name).or (env.globals.get? name)

/-- Binds `name` in the innermost call if it is bound there, else globally. -/
def set (env : Environment) (name : Symbol) (value : Value) : Environment :=
  match env.calls with
  | [] => { env with globals := env.globals.insert name value }
  | frame :: outer =>
    if frame.contains name then { env with calls := frame.insert name value :: outer }
    else { env with globals := env.globals.insert name value }

def pi : Float :=
  3.141592653589793

def euler : Float :=
  2.718281828459045

def tau : Float :=
  6.283185307179586

/-- Every primitive under its name, the constants, and truth in both cases. -/
def standard : Environment :=
  let primitives := Primitive.all.map fun p => (p.name, Value.primitive p)
  let constants := [("pi", pi), ("e", euler), ("tau", tau)].map fun (name, x) =>
    (name, Value.number (.float x))
  let truths := [("t", Value.truth), ("T", Value.truth)]
  ⟨Table.ofList (primitives ++ constants ++ truths), []⟩

end Environment

end PocketLisp
