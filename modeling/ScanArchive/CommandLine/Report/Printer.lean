import ScanArchive.CommandLine.Report
import ScanArchive.Header
import ScanArchive.Json

/-!
# Printing reports

The two forms in which a report is told: lines of text, or JSON whose members are sorted by
name.
-/

namespace ScanArchive.CommandLine

def Counts.json (counts : Counts) : Json :=
  .obj (counts.map fun (kind, n) => (kind.messageName, .int n))

def padRight (width : Nat) (text : String) : String :=
  text ++ String.ofList (List.replicate (width - text.length) ' ')

def padLeft (width : Nat) (text : String) : String :=
  String.ofList (List.replicate (width - text.length) ' ') ++ text

/-! ## Headers -/

/-- The fields of a header that say something, each with its text. -/
def headerFields (h : VersionedHeader) : List (String × String) :=
  let texts := [
    ("code_location", h.header.codeLocationName), ("publisher", h.header.publisherName),
    ("publisher_version", h.header.publisherVersion), ("creator", h.header.creator),
    ("base_dir", h.header.baseDir), ("project_group", h.header.projectGroupName.getD ""),
    ("project", h.header.projectName.getD ""),
    ("project_version", h.header.projectVersionName.getD ""),
    ("correlation_id", h.header.correlationId.getD "")]
  [("version", toString h.version), ("id", h.header.id), ("scan_type", h.header.type.name)]
    ++ texts.filter (·.2 ≠ "")
    ++ (h.header.created?.map fun t => ("creation_time", t.rfc3339)).toList

def headerLine (field : String × String) : String :=
  padRight 16 (field.1 ++ ":") ++ " " ++ field.2

def headerJson (h : VersionedHeader) : Json :=
  .obj (((headerFields h).mergeSort (fun a b => a.1 ≤ b.1)).map fun (key, text) => (key, .str text))

/-! ## Entries -/

namespace EntrySummary

/-- One line; names take as many characters as the longest of them has bytes. -/
def line (width : Nat) (e : EntrySummary) : String :=
  padRight width e.name ++ "  " ++ padRight 6 e.type.name ++ "  v" ++ toString e.version
    ++ "  " ++ padLeft 10 (toString e.size) ++ " bytes"
    ++ String.join (e.counts.map fun (kind, n) => "  " ++ kind.messageName ++ "=" ++ toString n)

def json (e : EntrySummary) : Json := .obj (
  [("entry_type", .str e.type.name), ("name", .str e.name)]
    ++ (if e.counts.isEmpty then [] else [("nodes", e.counts.json)])
    ++ [("size", .int e.size), ("version", .int e.version.toInt)])

end EntrySummary

/-! ## Both forms -/

namespace Report

def text : Report → String
  | header h => "\n".intercalate ((headerFields h).map headerLine)
  | summary entries =>
    let width := (entries.map (·.name.utf8ByteSize)).foldl max 0
    "\n".intercalate (entries.map (·.line width))
  | verified v =>
    "OK (version " ++ toString v.version ++ ", " ++ toString v.chunks ++ " chunk entries, "
      ++ toString v.counts.total ++ " distinct nodes)"

def json : Report → Json
  | header h => headerJson h
  | summary entries => .obj [
      ("entries", .arr (entries.map (·.json))),
      ("total_nodes", .int (entries.foldr (fun e sum => e.counts.total + sum) 0 : Nat))]
  | verified v => .obj [
      ("chunk_entries", .int v.chunks), ("header_id", .str v.headerId),
      ("nodes", v.counts.json), ("total_nodes", .int v.counts.total),
      ("valid", .bool true), ("version", .int v.version.toInt)]

end Report
end ScanArchive.CommandLine
