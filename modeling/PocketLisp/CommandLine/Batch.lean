import PocketLisp.CommandLine.Arguments
import PocketLisp.Session

/-!
# Batches

The sources of a command line run one after the other in one session. A source that cannot be
loaded or read is reported and skipped; of any other source every failing statement is reported.
What sources are loaded from, and what is done in between, is left open: the same loop runs a batch
on inputs that are given, and on those of the system.
-/

namespace PocketLisp.CommandLine

/-- Why the text of a source is not to be had. -/
inductive LoadFault where
  | notFound
  | isDirectory
  | notText
  | other (message : String)
  deriving DecidableEq, Repr

def LoadFault.message : LoadFault → String
  | .notFound => "No such file or directory (os error 2)"
  | .isDirectory => "Is a directory (os error 21)"
  | .notText => "stream did not contain valid UTF-8"
  | .other message => message

/-- The text that bytes encode. -/
def decode (bytes : ByteArray) : Except LoadFault String :=
  match String.fromUTF8? bytes with
  | some text => .ok text
  | none => .error .notText

structure Report where
  source : Source
  text : String
  deriving DecidableEq

def Report.line (r : Report) : String :=
  "error: " ++ r.source.label ++ ": " ++ r.text

def reportLoad (source : Source) (cause : LoadFault) : Report :=
  ⟨source, source.label ++ ": " ++ cause.message⟩

def reportRead (source : Source) (cause : ReadError) : Report :=
  ⟨source, "read error: " ++ cause.message⟩

/-- What has come of the sources that were run. -/
structure Batch where
  session : Session
  reports : Array Report := #[]
  /-- The verdict: every statement of every source has succeeded. -/
  ok : Bool := true

namespace Batch

def report (b : Batch) (r : Report) : Batch :=
  { b with reports := b.reports.push r }

def fail (b : Batch) : Batch :=
  { b with ok := false }

/-- Goes through the results of a source's statements. -/
def reportFaults (b : Batch) (source : Source) : List (Except Fault Value) → Batch
  | [] => b
  | .ok _ :: results => b.reportFaults source results
  | .error fault :: results =>
    let b := b.report ⟨source, fault.message⟩
    b.fail.reportFaults source results

/-- Runs one source, given its text or why there is none. -/
def runSource (fuel : Nat) (b : Batch) (source : Source) (loaded : Except LoadFault String) :
    Option Batch :=
  let s := b.session.record (.runningSource source.label)
  match loaded with
  | .error cause =>
    let b := { b with session := s }.report (reportLoad source cause)
    some b.fail
  | .ok text =>
    (s.runProgram fuel text).map fun
      | (.ok results, s) => { b with session := s }.reportFaults source results
      | (.error cause, s) =>
        let b := { b with session := s }.report (reportRead source cause)
        b.fail

/-- Runs sources in order. The batch is handed over after each of them, to be settled. -/
def runAll {m : Type → Type} [Monad m] (fuel : Nat) (load : Source → m (Except LoadFault String))
    (settle : Batch → m Batch) (b : Batch) : List Source → m (Option Batch)
  | [] => return some b
  | source :: sources => do
    match b.runSource fuel source (← load source) with
    | none => return none
    | some b =>
      let b ← settle b
      b.runAll fuel load settle sources

end Batch

/-- What sources are loaded from. -/
structure Inputs where
  files : SystemText → Except LoadFault ByteArray
  /-- What each further reading of the standard input to its end gives. -/
  standardInput : Nat → Except LoadFault ByteArray

namespace Inputs

/-- A standard input with something in it, which the first reading takes. -/
def holding (bytes : ByteArray) : Nat → Except LoadFault ByteArray
  | 0 => .ok bytes
  | _ => .ok .empty

/-- Every source is read anew, the standard input too. -/
def load (inputs : Inputs) : Source → Except LoadFault String × Inputs
  | .file path => (inputs.files path >>= decode, inputs)
  | .standardInput =>
    (inputs.standardInput 0 >>= decode,
      { inputs with standardInput := fun n => inputs.standardInput (n + 1) })
  | .expression text => (.ok text, inputs)

end Inputs

/-- Runs sources in order, loaded from the inputs. -/
def Batch.run (fuel : Nat) (inputs : Inputs) (b : Batch) (sources : List Source) : Option Batch :=
  let batch : StateM Inputs (Option Batch) :=
    b.runAll fuel (fun source => modifyGet (·.load source)) pure sources
  (batch.run inputs).1

/-- What comes of sources in a session on which nothing has been reported. -/
def runSources (fuel : Nat) (inputs : Inputs) (s : Session) (sources : List Source) :
    Option Batch :=
  Batch.run fuel inputs { session := s } sources

end PocketLisp.CommandLine
