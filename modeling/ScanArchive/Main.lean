import ScanArchive.CommandLine.Run

/-!
# The program

Reads the archive that the command line names, and prints.
-/

namespace ScanArchive.CommandLine

def locate (path : String) : IO Location := do
  try
    let bytes ← IO.FS.readBinFile path
    return .file bytes.toList
  catch
    | .noFileOrDirectory .. => return .missing
    | .permissionDenied .. => return .closed "Permission denied (os error 13)"
    | .inappropriateType .. => return .directory
    | e => return .unreadable (toString e)

/-- Runs a command line, prints and gives the code to end with. -/
def perform (args : List String) : IO UInt32 := do
  let location ← match Invocation.parse args with
    | .ok request => locate request.path
    | .error _ => pure (.closed "")
  let outcome := run (fun _ => location) args
  let stdout ← IO.getStdout
  let stderr ← IO.getStderr
  stdout.putStr outcome.stdout
  stderr.putStr outcome.stderr
  return outcome.code.toUInt32

end ScanArchive.CommandLine

def main (args : List String) : IO UInt32 := ScanArchive.CommandLine.perform args
