import ScanArchive.Bytes

/-!
# Layout of an archive

An archive is kept in a ZIP file or in a tar file compressed with zstd.  Its entries have names
and sizes that writers and readers agree on, and say by their first two bytes whether they are the
header or a chunk.
-/

namespace ScanArchive

/-! ## Versions, names and sizes -/

namespace Layout

/-- Bare messages, file nodes only. -/
def version1 : Int16 := 1

/-- Envelopes, every kind of node. -/
def version2 : Int16 := 2

def currentVersion : Int16 := version2

def headerName : String := "bdio-header.pb"

/-- The name of a chunk entry: its number, with at least two digits. -/
def chunkName (index : Nat) : String :=
  "bdio-entry-" ++ (if index < 10 then "0" else "") ++ toString index ++ ".pb"

def maxChunkSize : Nat := 16 * 1024 * 1024

/-- What a message is charged on top of its length, for the length that stands before it. -/
def messageOverhead : Nat := 4

/-- The length of the type and version that every entry starts with. -/
def prefixLength : Nat := 4

/-- The longest entry that is read: a full chunk behind its prefix. -/
def maxEntrySize : Nat := maxChunkSize + prefixLength

end Layout

/-! ## Entry types -/

inductive EntryType where
  | header
  | chunk
  deriving DecidableEq, Repr

namespace EntryType

def code : EntryType → Int16
  | header => 0
  | chunk => 1

def ofCode? (code : Int16) : Option EntryType :=
  if code = 0 then some header else if code = 1 then some chunk else none

def name : EntryType → String
  | header => "HEADER"
  | chunk => "CHUNK"

@[simp] theorem ofCode?_code (t : EntryType) : ofCode? t.code = some t := by cases t <;> rfl

end EntryType

/-! ## Container formats -/

inductive ContainerFormat where
  | zip
  | tarZstd
  deriving DecidableEq, Repr

namespace ContainerFormat

def name : ContainerFormat → String
  | zip => "zip"
  | tarZstd => "tar-zstd"

/-- Accepts the names of the formats and the usual file extension of the second. -/
def ofName? : String → Option ContainerFormat
  | "zip" => some zip
  | "tar-zstd" => some tarZstd
  | "tar.zst" => some tarZstd
  | _ => none

/-- How a ZIP file starts: with an entry, or with the end record when it has none. -/
def zipMagics : List Bytes := [[0x50, 0x4B, 0x03, 0x04], [0x50, 0x4B, 0x05, 0x06]]

def zstdMagic : Bytes := [0x28, 0xB5, 0x2F, 0xFD]

def detect? (bytes : Bytes) : Option ContainerFormat :=
  if zipMagics.any (·.isPrefixOf bytes) then some zip
  else if zstdMagic.isPrefixOf bytes then some tarZstd
  else none

end ContainerFormat
end ScanArchive
