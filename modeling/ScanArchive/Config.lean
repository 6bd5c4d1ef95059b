import ScanArchive.Json
import ScanArchive.Registry

/-!
# Configuration of a writer

By default a writer produces what every reader can read: the current version in a ZIP file,
with chunks as large as the format allows.
-/

namespace ScanArchive

/-! ## Settings -/

structure WriterConfig where
  version : Int16 := Layout.currentVersion
  /-- the most that the estimated contents of a chunk may come to -/
  maxChunkSize : Nat := Layout.maxChunkSize
  container : ContainerFormat := .zip
  /-- the level at which tar files are compressed -/
  compressionLevel : Int := 3
  deriving DecidableEq, Repr

namespace WriterConfig

/-- Chunks of 4 KiB, so that few nodes fill one. -/
def forTesting : WriterConfig := { maxChunkSize := 4 * 1024 }

def validate (c : WriterConfig) : Except ConfigError Unit :=
  if c.version ∉ Registry.builtin.versions then .error (.unknownVersion c.version)
  else if c.maxChunkSize ≤ Layout.messageOverhead then .error (.chunkSizeTooSmall c.maxChunkSize)
  else if Layout.maxChunkSize < c.maxChunkSize then .error (.chunkSizeTooLarge c.maxChunkSize)
  else if c.compressionLevel < 1 ∨ 22 < c.compressionLevel then
    .error (.compressionLevel c.compressionLevel)
  else .ok ()

def expectContainer (c : WriterConfig) (format : ContainerFormat) : Except ConfigError Unit :=
  if c.container = format then .ok () else .error (.containerMismatch c.container format)

end WriterConfig

def ContainerFormat.parse (name : String) : Except ConfigError ContainerFormat :=
  match ofName? name with
  | some format => .ok format
  | none => .error (.unknownContainer name)

/-! ## Settings in JSON

A configuration is an object with one member for each setting; what is missing has its default,
and members of other names are passed over.  The settings may also be given as a list, in their
order.  Nothing is converted: a setting of another type, or out of range, spoils the whole.
-/

/-- The container that a JSON value names: a string, or an object with that key and null. -/
def ContainerFormat.ofJson? : Json → Option ContainerFormat
  | .str "zip" => some .zip
  | .str "tar-zstd" => some .tarZstd
  | .obj [("zip", .null)] => some .zip
  | .obj [("tar-zstd", .null)] => some .tarZstd
  | _ => none

namespace WriterConfig

def settings : List String := ["version", "max_chunk_size", "container", "compression_level"]

def intOfJson? (lo hi : Int) : Json → Option Int
  | .int n => if lo ≤ n ∧ n ≤ hi then some n else none
  | _ => none

/-- The configuration with one setting changed; other names change nothing. -/
def set? (c : WriterConfig) (name : String) (value : Json) : Option WriterConfig :=
  match name with
  | "version" =>
    (intOfJson? (-0x8000) 0x7FFF value).map fun n => { c with version := Int16.ofInt n }
  | "max_chunk_size" =>
    (intOfJson? 0 0xFFFFFFFFFFFFFFFF value).map fun n => { c with maxChunkSize := n.toNat }
  | "container" =>
    (ContainerFormat.ofJson? value).map fun f => { c with container := f }
  | "compression_level" =>
    (intOfJson? (-0x80000000) 0x7FFFFFFF value).map fun n => { c with compressionLevel := n }
  | _ => some c

def ofJson? : Json → Option WriterConfig
  | .obj members => members.foldlM (fun c (name, value) => c.set? name value) {}
  | .arr items =>
    if items.length ≤ settings.length then
      (settings.zip items).foldlM (fun c (name, value) => c.set? name value) {}
    else none
  | _ => none

end WriterConfig
end ScanArchive
