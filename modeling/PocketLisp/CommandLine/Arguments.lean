import PocketLisp.CommandLine.OptionParser
import PocketLisp.Limits
import PocketLisp.Number.Decimal

/-!
# Command-line arguments

Arguments name what to run and set the limits. Sources run in the order: files, then expressions;
where there are none, the standard input is the source. A bound is a number of 64 bits.
-/

namespace PocketLisp.CommandLine

/-- Where a program comes from. -/
inductive Source where
  | file (path : SystemText)
  | standardInput
  | expression (text : String)
  deriving DecidableEq

namespace Source

def label : Source → String
  | .file path => path.shown
  | .standardInput => "<stdin>"
  | .expression _ => "<expression>"

/-- The file named `-` is the standard input. -/
def ofFile (path : SystemText) : Source :=
  if path = "-" then .standardInput else .file path

end Source

structure Options where
  sources : List Source
  limits : Limits
  deriving DecidableEq

/-- Why the arguments ask for no run. -/
inductive ArgumentFault where
  | usage (cause : UsageFault)
  | badNumber (option value : String)
  deriving DecidableEq, Repr

def ArgumentFault.message : ArgumentFault → String
  | .usage cause => cause.message
  | .badNumber option value => "--" ++ option ++ " expects a number, not '" ++ value ++ "'"

/-- The name that the program goes by. -/
def programName : String :=
  "kamin"

/-- What the program says when asked for its version. -/
def versionText : String :=
  programName ++ " 0.1.0"

/-- Digits after an optional plus sign, below `2 ^ 64`. -/
def numberOfText? (text : String) : Option Nat :=
  let run :=
    match text.toList with
    | '+' :: rest => rest
    | cs => cs
  if Decimal.isDigits run && Decimal.natOfDigits run < UInt64.size then
    some (Decimal.natOfDigits run)
  else none

namespace Collected

def sources (c : Collected) : List Source :=
  match c.files.map Source.ofFile ++ c.expression.values.map Source.expression with
  | [] => [.standardInput]
  | sources => sources

/-- The number an option was given, if it was given one. -/
def number? (c : Collected) (s : Setting) : Except ArgumentFault (Option Nat) :=
  match (c.occurrences s).values.head? with
  | none => .ok none
  | some value =>
    match numberOfText? value with
    | some n => .ok (some n)
    | none => .error (.badNumber s.name value)

end Collected

/-- What arguments ask for. -/
def Options.ofArguments (arguments : List SystemText) : Except ArgumentFault Options := do
  let c ← (Collected.parse {} arguments).mapError .usage
  let maxIterations ← c.number? .maxIterations
  let maxDepth ← c.number? .maxDepth
  let standard : Limits := {}
  return {
    sources := c.sources
    limits := {
      maxIterations
      maxDepth := maxDepth.or standard.maxDepth
      allowRedefinition := c.redefineFlags == 0 } }

end PocketLisp.CommandLine
