import ScanArchive.CommandLine.Directory
import ScanArchive.CommandLine.Help
import ScanArchive.CommandLine.Report.Printer
import ScanArchive.Container.Basic

/-!
# Running a command line

From the words of a command line, and what stands at the path in it, to what the program
prints and the code it ends with.
-/

namespace ScanArchive.CommandLine

inductive Failure where
  | unopened (path reason : String)
  | undetected (path reason : String)
  | archive (e : Error)
  deriving DecidableEq, Repr

def Failure.message : Failure → String
  | unopened path reason => "Failed to open " ++ path ++ ": " ++ reason
  | undetected path reason => "Failed to detect container of " ++ path ++ ": " ++ reason
  | archive e => ": ".intercalate (e.message :: e.source?.toList)

def openSource (path : String) (format : Option ContainerFormat) :
    Location → Except Failure Source
  | .closed reason => .error (.unopened path reason)
  | .unreadable reason =>
    match format with
    | some .zip => .error (.archive (.io reason))
    | some .tarZstd => .error (.archive (.archive (.other reason)))
    | none => .error (.undetected path reason)
  | .file bytes =>
    match format <|> ContainerFormat.detect? bytes with
    | some format => (format.source Layout.maxEntrySize bytes).mapError .archive
    | none => .error (.undetected path "Unrecognized container format")

def Invocation.report (r : Invocation) (location : Location) : Except Failure Report := do
  let source ← openSource r.path r.options.format location
  (r.command.report source).mapError .archive

structure Outcome where
  code : Nat := 0
  stdout : String := ""
  stderr : String := ""
  deriving DecidableEq, Repr

namespace Outcome

/-- A text with the end of its line; nothing for an empty one. -/
def printed (text : String) : String := if text.isEmpty then "" else text ++ "\n"

def ofReport (json : Bool) : Except Failure Report → Outcome
  | .ok report => { stdout := printed (if json then report.json.pretty else report.text) }
  | .error failure =>
    let text := if json then (Json.obj [("error", .str failure.message)]).pretty
      else "(error) " ++ failure.message
    { code := 1, stderr := printed text }

def ofDetour : Detour → Outcome
  | .help topic => { stdout := topic.page }
  | .misuse .noCommand => { code := 2, stderr := Topic.program.page }
  | .misuse fault =>
    { code := 2
      stderr := "error: " ++ fault.message ++ "\n\nFor more information, try '--help'.\n" }

end Outcome

def run (locate : String → Location) (words : List String) : Outcome :=
  match Invocation.parse words with
  | .ok request => .ofReport request.options.json (request.report (locate request.path))
  | .error detour => .ofDetour detour

end ScanArchive.CommandLine
