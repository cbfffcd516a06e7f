import PocketLisp.CommandLine.Batch

/-!
# The program

Reads the arguments, loads and runs the sources, prints what they print, and reports failures.
-/

open PocketLisp PocketLisp.CommandLine

namespace PocketLisp.Main

/-- More fuel than any run can use up. -/
def ampleFuel : Nat :=
  1 <<< 62

def helpText : String :=
  "Runs programs written in a small Lisp\n\n" ++
  "USAGE:\n    " ++ programName ++ " [FLAGS] [OPTIONS] [--] [FILE]...\n\n" ++
  "FLAGS:\n" ++
  "    -h, --help           Prints help information\n" ++
  "        --no-redefine    Reject DEFINE of a procedure name that already exists\n" ++
  "    -V, --version        Prints version information\n\n" ++
  "OPTIONS:\n" ++
  "    -e, --eval <EXPR>           Evaluate EXPR after the files\n" ++
  "        --max-depth <N>         Maximum nesting of procedure calls\n" ++
  "        --max-iterations <N>    Stop any WHILE loop after N iterations\n\n" ++
  "ARGS:\n    <FILE>...    Program files to run in order; '-' reads stdin"

def loadFaultOf : IO.Error → LoadFault
  | .noFileOrDirectory .. => .notFound
  | .inappropriateType .. | .illegalOperation .. => .isDirectory
  | e => .other (toString e)

def loadBytes (read : IO ByteArray) : IO (Except LoadFault String) := do
  try
    return decode (← read)
  catch e =>
    return .error (loadFaultOf e)

/-- The arguments come as texts here, so that no file has a name of another kind. -/
def load : Source → IO (Except LoadFault String)
  | .file (.text path) => loadBytes (IO.FS.readBinFile path)
  | .file (.bytes _) => return .error .notFound
  | .standardInput => do loadBytes (← IO.getStdin).readBinToEnd
  | .expression text => return .ok text

/-- Prints what the sink holds and empties it. -/
def drain (s : Session) : IO Session := do
  let out ← IO.getStdout
  out.write s.machine.sink.written
  out.flush
  let sink := { s.machine.sink with written := .empty }
  return { s with machine := { s.machine with sink } }

/-- Prints what has been written and reported, so that nothing of it is left in the batch. -/
def settle (b : Batch) : IO Batch := do
  let session ← drain b.session
  for report in b.reports do
    IO.eprintln report.line
  return { b with session, reports := #[] }

/-- Runs the sources of the system, and answers whether nothing has failed. -/
def run (s : Session) (sources : List Source) : IO Bool := do
  match ← Batch.runAll ampleFuel load settle { session := s } sources with
  | none => return false
  | some b => return b.ok

end PocketLisp.Main

open PocketLisp.Main in
def main (arguments : List String) : IO UInt32 := do
  match Options.ofArguments (arguments.map SystemText.text) with
  | .error (.usage .helpRequested) =>
    IO.println helpText
    return 0
  | .error (.usage .versionRequested) =>
    IO.println versionText
    return 0
  | .error (.usage cause) =>
    IO.eprintln ("error: " ++ cause.message)
    return 1
  | .error fault =>
    IO.eprintln ("error: " ++ programName ++ ": " ++ fault.message)
    return 1
  | .ok options =>
    let ok ← run (Session.start options.limits {} {}) options.sources
    return if ok then 0 else 1
