import ScanArchive.CommandLine.Arguments

/-!
# Help

The texts that tell how the program is used.
-/

namespace ScanArchive.CommandLine

def programName : String := "bdio"

def helpName : String := "help"

def helpPurpose : String := "Print this message or the help of the given subcommand(s)"

/-- A heading with lines of two columns below it; the second column starts at one place. -/
def helpTable (heading : String) (rows : List (String × String)) : String :=
  let width := (rows.map (·.1.length)).foldl max 0
  let line : String × String → String := fun (left, right) =>
    let blanks := String.ofList (List.replicate (width - left.length) ' ')
    "  " ++ left ++ blanks ++ "  " ++ right ++ "\n"
  heading ++ ":\n" ++ String.join (rows.map line)

def optionHelp : String := helpTable "Options" [
  ("    --format <format>",
    "Container format (default: detected from the file) [possible values: zip, tar-zstd]"),
  ("    --json", "JSON output mode"),
  ("    --log <log>", "Log filter, e.g. debug or bdio::reader=trace (default: RUST_LOG or warn)"),
  ("-h, --help", "Print help")]

def helpPage (purpose usage : String) (tables : List String) : String :=
  purpose ++ "\n\nUsage: " ++ programName ++ " " ++ usage ++ "\n\n" ++ "\n".intercalate tables

def Topic.page : Topic → String
  | program =>
    helpPage "Inspect and verify BDIO protobuf archives" "[OPTIONS] <COMMAND>" [
      helpTable "Commands"
        (Command.all.map (fun c => (c.name, c.purpose)) ++ [(helpName, helpPurpose)]),
      optionHelp]
  | command c =>
    helpPage c.purpose (c.name ++ " [OPTIONS] <archive>") [
      helpTable "Arguments" [("<archive>", "Path to the archive")], optionHelp]
  | help =>
    helpPage helpPurpose (helpName ++ " [COMMAND]...") [
      helpTable "Arguments" [("[COMMAND]...", "Print help for the subcommand(s)")]]

end ScanArchive.CommandLine
