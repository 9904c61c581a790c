import PipelineLang.Command

/-!
# The program

Reads the files that the command line names, and writes what is said about them.

## Main definitions

- `Command.File.read` — what stands behind the name of a file
- `main` — follow a command line
-/

namespace PipelineLang.Command

/-- A file that cannot be read because of an error, whose number may come negated. -/
def File.ofError (error : IO.Error) : File :=
  let of (number : UInt32) (reason : String) : File :=
    let number := number.toNat
    .unreadable reason.capitalize (if number < 0x80000000 then number else 0x100000000 - number)
  match error with
  | .noFileOrDirectory .. => .missing
  | .inappropriateType _ number reason => of number reason
  | .permissionDenied _ number reason => of number reason
  | .invalidArgument _ number reason => of number reason
  | .resourceExhausted _ number reason => of number reason
  | .noSuchThing _ number reason => of number reason
  | .otherError number reason => of number reason
  | other => .unreadable (toString other) 0

/-- What stands behind the name of a file. -/
def File.read (path : String) : IO File := do
  try
    return .bytes (← IO.FS.readBinFile path)
  catch error => return .ofError error

/-- Write to the output and to the messages. -/
def write (output messages : String) : IO Unit := do
  (← IO.getStdout).putStr output
  (← IO.getStderr).putStr messages

/-- Report on files, one after the other. -/
def reportAll (command : Command) (paths : List String) : IO Outcome := do
  let reports ← paths.mapM fun path => do
    let report := command.reportFile path (← File.read path)
    write report.output report.messages
    return report
  return .ofReports reports

end PipelineLang.Command

open PipelineLang in
/-- Follow a command line; the exit code says whether all went well. -/
def main (words : List String) : IO UInt32 := do
  let outcome ← match Command.request words with
    | .error outcome =>
      Command.write outcome.output outcome.messages
      pure outcome
    | .ok (command, paths) => Command.reportAll command paths
  return UInt32.ofNat outcome.exitCode
