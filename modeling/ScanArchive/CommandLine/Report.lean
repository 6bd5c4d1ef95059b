import ScanArchive.Archive.Contents
import ScanArchive.CommandLine.Arguments

/-!
# Reports

What a command finds out about an archive.
-/

namespace ScanArchive.CommandLine

/-- The kinds that there are nodes of, sorted by name, and how many. -/
abbrev Counts := List (NodeKind × Nat)

namespace Counts

def ofChunk (c : Chunk) : Counts :=
  (NodeKind.byName.map fun kind => (kind, c.count kind)).filter (·.2 ≠ 0)

def total (counts : Counts) : Nat := counts.foldr (fun entry sum => entry.2 + sum) 0

end Counts

structure EntrySummary where
  name : String
  type : EntryType
  version : Int16
  size : Nat
  counts : Counts

/-- A header counts as an entry without nodes. -/
def EntrySummary.ofEntry (e : DecodedEntry) : EntrySummary :=
  { name := e.name, type := e.type, version := e.version, size := e.size
    counts := match e.contents with
      | .header _ => []
      | .chunk c => .ofChunk c }

structure Verification where
  version : Int16
  headerId : String
  /-- the number of chunk entries -/
  chunks : Nat
  counts : Counts

def Verification.ofContents (c : Contents) : Verification :=
  { version := c.version, headerId := c.header.id, chunks := c.chunks.length
    counts := .ofChunk c.nodes }

inductive Report where
  | header (h : VersionedHeader)
  | summary (entries : List EntrySummary)
  | verified (v : Verification)

def Command.report (c : Command) (source : Source) : Except Error Report :=
  match c with
  | header => source.findHeader.1.map .header
  | summary => source.decodeAll.map fun entries => .summary (entries.map .ofEntry)
  | verify => source.readAll.map fun contents => .verified (.ofContents contents)

end ScanArchive.CommandLine
