import PocketLisp.CommandLine.SystemText

/-!
# The option parser

What arguments say by their form. Files, options and flags may be mixed in any order; after `--`
every argument is a file. An option takes the value attached to it, else the next argument if that
is not itself an option; one that never gets a value is an error, and so is one that is given twice
but may not be. Only the name of a file can be something else than text.
-/

namespace PocketLisp.CommandLine

/-- Why arguments are refused, or ask for something else than a run. -/
inductive UsageFault where
  | helpRequested
  | versionRequested
  | unknownArgument
  | missingValue
  | repeated
  | notText
  deriving DecidableEq, Repr

def UsageFault.message : UsageFault → String
  | .helpRequested => "help requested"
  | .versionRequested => "version requested"
  | .unknownArgument => "unknown argument"
  | .missingValue => "an option lacks its value"
  | .repeated => "an option is given more than once"
  | .notText => "an option is not valid UTF-8"

/-- The options that take a value. -/
inductive Setting where
  | expression
  | maxIterations
  | maxDepth
  deriving DecidableEq, Repr

def Setting.name : Setting → String
  | .expression => "eval"
  | .maxIterations => "max-iterations"
  | .maxDepth => "max-depth"

/-- An argument by its form alone. -/
inductive Word where
  | plain (value : SystemText)
  | separator
  | setting (s : Setting) (attached : Option String)
  | noRedefine
  | help
  | version
  | unknown
  | notText
  deriving DecidableEq

namespace Word

/-- A value after any number of equals signs. -/
def attachedValue (cs : List Char) : String :=
  String.ofList (cs.dropWhile (· == '='))

/-- An option by its long name, with what is attached after an equals sign. A flag takes no value
and passes over one that is attached. -/
def ofLongName (name : String) (attached : Option String) : Word :=
  if name = Setting.expression.name then .setting .expression attached
  else if name = Setting.maxIterations.name then .setting .maxIterations attached
  else if name = Setting.maxDepth.name then .setting .maxDepth attached
  else if name = "no-redefine" then .noRedefine
  else if name = "help" then .help
  else if name = "version" then .version
  else .unknown

/-- A long option, after its dashes. -/
def ofLong (cs : List Char) : Word :=
  let name := String.ofList (cs.takeWhile (· != '='))
  match cs.dropWhile (· != '=') with
  | [] => ofLongName name none
  | rest => ofLongName name (some (attachedValue rest))

/-- A short option, after its dash; what follows the letter is its value. -/
def ofShort : List Char → Word
  | ['e'] => .setting .expression none
  | 'e' :: rest => .setting .expression (some (attachedValue rest))
  | 'h' :: _ => .help
  | 'V' :: _ => .version
  | _ => .unknown

/-- A single dash is a plain argument. -/
def ofChars : List Char → Word
  | ['-', '-'] => .separator
  | '-' :: '-' :: rest => ofLong (rest.dropWhile (· == '-'))
  | '-' :: c :: rest => ofShort (c :: rest)
  | cs => .plain (.text (String.ofList cs))

def ofArgument : SystemText → Word
  | .text s => ofChars s.toList
  | .bytes bs => if (SystemText.bytes bs).startsWithDash then .notText else .plain (.bytes bs)

end Word

/-- How often an option was given, and its values. -/
structure Occurrences where
  count : Nat := 0
  values : List String := []
  deriving DecidableEq, Repr

/-- The option was given, and never with a value. -/
def Occurrences.lacksValue (o : Occurrences) : Bool :=
  0 < o.count && o.values.isEmpty

/-- What the arguments so far amount to. -/
structure Collected where
  files : List SystemText := []
  expression : Occurrences := {}
  maxIterations : Occurrences := {}
  maxDepth : Occurrences := {}
  redefineFlags : Nat := 0
  /-- The option that the next plain argument is the value of. -/
  pending : Option Setting := none
  deriving DecidableEq

namespace Collected

def occurrences (c : Collected) : Setting → Occurrences
  | .expression => c.expression
  | .maxIterations => c.maxIterations
  | .maxDepth => c.maxDepth

def update (c : Collected) (s : Setting) (f : Occurrences → Occurrences) : Collected :=
  match s with
  | .expression => { c with expression := f c.expression }
  | .maxIterations => { c with maxIterations := f c.maxIterations }
  | .maxDepth => { c with maxDepth := f c.maxDepth }

def addOccurrence (c : Collected) (s : Setting) : Collected :=
  c.update s fun o => { o with count := o.count + 1 }

/-- Gives an option its value; nothing is pending afterwards. -/
def addValue (c : Collected) (s : Setting) (value : String) : Collected :=
  { c.update s fun o => { o with values := o.values ++ [value] } with pending := none }

def addFiles (c : Collected) (files : List SystemText) : Collected :=
  { c with files := c.files ++ files }

def addNoRedefine (c : Collected) : Collected :=
  { c with redefineFlags := c.redefineFlags + 1, pending := none }

/-- A plain argument is the value of the pending option, else a file. -/
def addPlain (c : Collected) (argument : SystemText) : Except UsageFault Collected :=
  match c.pending, argument with
  | none, _ => .ok (c.addFiles [argument])
  | some s, .text value => .ok (c.addValue s value)
  | some _, .bytes _ => .error .notText

/-- Some option was given, and never with a value. -/
def lacksValue (c : Collected) : Bool :=
  c.expression.lacksValue || c.maxIterations.lacksValue || c.maxDepth.lacksValue

/-- Only expressions may be given more than once. -/
def hasRepetition (c : Collected) : Bool :=
  1 < c.maxIterations.count || 1 < c.maxDepth.count || 1 < c.redefineFlags

/-- What has been collected, if it is fit for use. -/
def checked (c : Collected) : Except UsageFault Collected :=
  if c.lacksValue then .error .missingValue
  else if c.hasRepetition then .error .repeated
  else .ok c

/-- Takes arguments up to the end or to one that ends everything. -/
def parse (c : Collected) : List SystemText → Except UsageFault Collected
  | [] => c.checked
  | argument :: arguments =>
    match Word.ofArgument argument with
    | .plain value =>
      match c.addPlain value with
      | .ok c => c.parse arguments
      | .error cause => .error cause
    | .separator => (c.addFiles arguments).checked
    | .setting s (some value) => ((c.addOccurrence s).addValue s value).parse arguments
    | .setting s none => { c.addOccurrence s with pending := some s }.parse arguments
    | .noRedefine => c.addNoRedefine.parse arguments
    | .help => .error .helpRequested
    | .version => .error .versionRequested
    | .unknown => .error .unknownArgument
    | .notText => .error .notText

end Collected

end PocketLisp.CommandLine
