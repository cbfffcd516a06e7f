import PocketLisp.Machine.Environment
import PocketLisp.Machine.Journal
import PocketLisp.Machine.Registry
import PocketLisp.Machine.Sink

/-!
# Machines

Everything that an evaluation reads and changes.
-/

namespace PocketLisp

structure Machine where
  environment : Environment
  registry : Registry
  sink : Sink
  journal : Journal

namespace Machine

def depth (m : Machine) : Nat :=
  m.environment.depth

/-- The value of a name: its variable, else the procedure defined under it. -/
def lookup? (m : Machine) (name : Symbol) : Option Value :=
  (m.environment.get? name).or ((m.registry.get? name).map Value.procedure)

def record (m : Machine) (e : Event) : Machine :=
  { m with journal := m.journal.record e }

def push (m : Machine) (frame : Frame) : Machine :=
  { m with environment := m.environment.push frame }

def pop (m : Machine) : Machine :=
  { m with environment := m.environment.pop }

def set (m : Machine) (name : Symbol) (value : Value) : Machine :=
  { m with environment := m.environment.set name value }

/-- Lets `f` use and change the sink. The machine is taken apart first, so that the bytes written
have one owner while they grow. -/
def usingSink {α : Type} (f : Sink → α × Sink) : Machine → α × Machine
  | ⟨environment, registry, sink, journal⟩ =>
    let (a, sink) := f sink
    (a, ⟨environment, registry, sink, journal⟩)

def define (m : Machine) (name : Symbol) (parameters : List Symbol) (body : Value) : Machine :=
  { m with registry := m.registry.define name parameters body }

end Machine

end PocketLisp
