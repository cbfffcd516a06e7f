import PocketLisp.Evaluation.Basic
import PocketLisp.Program

/-!
# Sessions

A machine with its limits, to which one text after another is given. After every evaluation the
sink is flushed, and a refused flush takes the place of the result, be it a value or a fault. The
statements of a program run one after the other, past those that fail; a program that cannot be
read runs not at all. An answer is absent only if the fuel was used up.
-/

namespace PocketLisp

structure Session where
  limits : Limits
  machine : Machine

namespace Session

/-- The standard environment, no procedures, nothing in the journal. -/
def start (limits : Limits) (sink : Sink) (journal : Journal) : Session :=
  ⟨limits, ⟨.standard, .empty, sink, journal⟩⟩

def record (s : Session) (e : Event) : Session :=
  { s with machine := s.machine.record e }

/-- The result that stands after the answer to a flush. -/
def flushed {α : Type} (answer : Except SinkFault Unit) (result : Except Fault α) :
    Except Fault α :=
  match answer with
  | .ok () => result
  | .error cause => .error (.output cause)

def evaluate (fuel : Nat) (s : Session) (expression : Value) :
    Option (Except Fault Value × Session) :=
  (PocketLisp.evaluate s.limits fuel expression s.machine).answer?.map fun (result, machine) =>
    let (answer, machine) := machine.usingSink Sink.flush
    (flushed answer result, { s with machine })

/-- Why a text gave no value. -/
inductive Failure where
  | unread (cause : ReadError)
  | faulty (cause : Fault)

def Failure.message : Failure → String
  | .unread cause => "read error: " ++ cause.message
  | .faulty cause => cause.message

/-- Reads one expression and evaluates it. -/
def evaluateText (fuel : Nat) (s : Session) (text : String) :
    Option (Except Failure Value × Session) :=
  match Value.read text with
  | .error cause => some (.error (.unread cause), s)
  | .ok expression =>
    (s.evaluate fuel expression).map fun (result, s) => (result.mapError .faulty, s)

/-- The results of expressions evaluated in order. -/
def evaluateEach (fuel : Nat) (s : Session) :
    List Value → Option (List (Except Fault Value) × Session)
  | [] => some ([], s)
  | e :: es => do
    let (result, s) ← s.evaluate fuel e
    let (results, s) ← s.evaluateEach fuel es
    return (result :: results, s)

/-- Runs every statement of a program. -/
def runProgram (fuel : Nat) (s : Session) (text : String) :
    Option (Except ReadError (List (Except Fault Value)) × Session) :=
  match Value.readAll text with
  | .error cause => some (.error cause, s)
  | .ok forms =>
    let statements := Program.statements forms
    ((s.record (.runningStatements statements.length)).evaluateEach fuel statements).map
      fun (results, s) => (.ok results, s)

end Session

end PocketLisp
