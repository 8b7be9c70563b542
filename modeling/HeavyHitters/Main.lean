import HeavyHitters.CommandLine.Arguments
import HeavyHitters.CommandLine.Benchmark

/-!
# Command line

Reads the arguments and the trace file, runs the benchmark and prints its lines.  The exit code is 0
for a run that completes, 1 for one that is refused, 2 for arguments that do not fit, and 101 for a
fault.
-/

namespace HeavyHitters

/-- The help text. -/
def usageText : String :=
  "Scores heavy-hitter sketches, top-k trackers and their composition on a packet trace\n\n"
    ++ "Arguments: TRACE [--record-size N] [-m|--memory N] [-k N] [--seed N] [--sketch KIND,...]\n"
    ++ "[--tracker KIND] [--rhhh KIND] [--round-robin] [--stages N] [--sample-rate P] [-d|--debug]"

/-- The code of a failed call.  Some calls tell it with a minus sign. -/
def callCode (code : UInt32) : Nat := min code.toNat (1 <<< 32 - code.toNat)

/-- The code with which reading a directory fails. -/
def directoryCode : Nat := 21

/-- What a failure to read tells of a file. -/
def openedBy : IO.Error → Except SystemError OpenFile
  | .noFileOrDirectory .. => .error SystemError.notFound
  | .permissionDenied .. => .error SystemError.permissionDenied
  | .inappropriateType _ code _ | .invalidArgument _ code _ =>
    if callCode code = directoryCode then .ok (.directory OpenFile.directoryLength)
    else .error (SystemError.ofCode (callCode code))
  | _ => .error SystemError.inputOutput

/-- Opens a file. -/
def openFile (path : String) : IO (Except SystemError OpenFile) := do
  try
    return .ok (.regular (← IO.FS.readBinFile path))
  catch error =>
    return openedBy error

/-- Computes a value between two looks at the clock. -/
def timedRun {α : Type} (compute : Unit → α) : IO (α × Duration) := do
  let start ← IO.monoNanosNow
  let value ← IO.lazyPure compute
  let stop ← IO.monoNanosNow
  return (value, Duration.ofNanoseconds (stop - start))

/-- The clock and the standard output. -/
def console : Console IO := ⟨timedRun, fun line => IO.println line.text⟩

/-- Runs the command line and tells the exit code. -/
def runCommandLine (words : List String) : IO UInt32 := do
  match readArguments words with
  | .error .help =>
    IO.println usageText
    return 0
  | .error .version =>
    IO.println "0.1.0"
    return 0
  | .error .invalid =>
    IO.eprintln "error: invalid arguments; try --help"
    return 2
  | .ok options =>
    match ← (options.run console (← openFile options.path)).run with
    | .ok () => return 0
    | .error (.error error) =>
      IO.eprintln ("Error: " ++ error.diagnostic)
      return 1
    | .error (.fault fault) =>
      IO.eprintln fault.message
      return 101

end HeavyHitters

/-- The program. -/
def main (words : List String) : IO UInt32 := HeavyHitters.runCommandLine words
