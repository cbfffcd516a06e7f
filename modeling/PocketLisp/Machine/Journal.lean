import PocketLisp.Fault
import PocketLisp.Keyword

/-!
# Journals

What happened during a run, in order, for those who want to follow it. A journal that is not kept
stays empty; keeping one changes nothing else.
-/

namespace PocketLisp

inductive Level where
  | trace
  | debug
  | info
  | warn
  deriving DecidableEq, Repr

def Level.name : Level → String
  | .trace => "TRACE"
  | .debug => "DEBUG"
  | .info => "INFO"
  | .warn => "WARN"

inductive Event where
  | evaluating (expression : Value)
  | specialForm (keyword : Keyword)
  | calling (callee : String) (arguments : List Value)
  | callReturned (callee : String) (result : Value)
  | callFailed (callee : String) (fault : Fault)
  | pushed (depth : Nat)
  | loopFinished (passes : Nat)
  | assigned (name : Symbol) (value : Value)
  | redefining (name : Symbol)
  | defining (procedure : Procedure Value)
  | runningStatements (count : Nat)
  | runningSource (label : String)

namespace Event

def level : Event → Level
  | .assigned .. | .defining _ | .pushed _ | .runningStatements _ => .debug
  | .redefining _ => .warn
  | .runningSource _ => .info
  | _ => .trace

/-- One argument stands on the line; several stand below it, one a line. -/
def argumentsText : List Value → String
  | [] => "no args"
  | [v] => v.text
  | vs => String.join (vs.map fun v => "\n\t" ++ v.text)

def text : Event → String
  | .evaluating expression => "eval " ++ expression.text
  | .specialForm keyword => "special form " ++ keyword.name
  | .calling callee arguments => "Call " ++ callee ++ " with " ++ argumentsText arguments
  | .callReturned callee result => "Call to " ++ callee ++ " resulted in " ++ result.text
  | .callFailed callee fault => "Call to " ++ callee ++ " failed: " ++ fault.message
  | .pushed depth => "push frame, depth " ++ toString depth
  | .loopFinished passes => "WHILE finished after " ++ toString passes ++ " iterations"
  | .assigned name value => "set " ++ name ++ " to " ++ value.text
  | .redefining name => "redefining procedure " ++ name
  | .defining procedure => "define " ++ procedure.text
  | .runningStatements count => "running " ++ toString count ++ " statements"
  | .runningSource label => "running " ++ label

def line (e : Event) : String :=
  e.level.name ++ " " ++ e.text

end Event

structure Journal where
  kept : Bool := false
  events : Array Event := #[]

def Journal.record (j : Journal) (e : Event) : Journal :=
  if j.kept then { j with events := j.events.push e } else j

end PocketLisp
