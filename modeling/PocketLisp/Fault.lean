import PocketLisp.Arity
import PocketLisp.Value.Mismatch

/-!
# Faults

Why an evaluation ends without a value, and how that is worded.
-/

namespace PocketLisp

/-- Why an output sink fails. -/
inductive SinkFault where
  | full
  | other (message : String)
  deriving DecidableEq, Repr

def SinkFault.message : SinkFault → String
  | .full => "sink full"
  | .other message => message

inductive Fault where
  | unknownSymbol (name : Symbol)
  | unknownOperator (found : Value)
  | mismatch (cause : Mismatch)
  | wrongCount (callee : String) (expected : Arity) (received : Nat)
  | divisionByZero
  | overflow
  | outsideDomain (function : Primitive)
  | iterationLimit (limit : Nat)
  | recursionLimit (limit : Nat)
  | redefinition (name : Symbol)
  | output (cause : SinkFault)

def Fault.message : Fault → String
  | .unknownSymbol name => "'" ++ name ++ "' not found"
  | .unknownOperator found => "'" ++ found.text ++ "' is not a procedure"
  | .mismatch cause => "type mismatch: " ++ cause.message
  | .wrongCount callee expected received =>
    "When evaluating " ++ callee ++ " expected " ++ expected.text ++ " arguments, but received " ++
      toString received ++ " arguments"
  | .divisionByZero => "cannot divide by zero!"
  | .overflow => "integer overflow"
  | .outsideDomain function => "argument outside the domain of " ++ function.name
  | .iterationLimit limit => "WHILE gave up after " ++ toString limit ++ " iterations"
  | .recursionLimit limit => "procedure calls nested deeper than " ++ toString limit
  | .redefinition name => "procedure " ++ name ++ " is already defined"
  | .output cause => "io error: " ++ cause.message

end PocketLisp
