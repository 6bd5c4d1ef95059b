import ScanArchive.Archive.Container
import ScanArchive.Chunk
import ScanArchive.Framing.Basic
import ScanArchive.Registry

/-!
# Reading archives

A header entry is a prefix and an encoded header; a chunk entry is a prefix and any number of
delimited messages, each of which is a node.  Every header and node is checked against the field
contract.  The readings of single entries work on a stream; an archive is read entry by entry,
forward only.
-/

namespace ScanArchive

structure VersionedHeader where
  version : Int16
  header : Header
  deriving DecidableEq

namespace Framing

def expectType (expected : EntryType) : Reading Unit := do
  let actual ← readType
  if actual = expected then return ()
  else throw (.unexpectedEntryType expected actual)

def readHeaderBody (version : Int16) : Reading Header := do
  let provider ← Registry.builtin.provider version
  let payload ← takeAll
  let header ← provider.encoding.decodeHeader payload
  header.validate.mapError Error.validation
  return header

/-- Reads a header entry; `verifyType` tells whether its type has not been read yet. -/
def readVersionedHeader (verifyType : Bool) : Reading VersionedHeader := do
  if verifyType then expectType .header
  let version ← readVersion
  let header ← readHeaderBody version
  return { version, header }

def readHeader (verifyType : Bool) : Reading Header := (·.header) <$> readVersionedHeader verifyType

/-- Reads one node of a chunk; nothing at the end of the stream. -/
def readNode (encoding : Encoding) : Reading (Option Node) := do
  match ← readDelimited with
  | none => return none
  | some body => some <$> encoding.decodeNode body

theorem length_of_readNode {encoding : Encoding} {s s' : ByteStream} {n : Node}
    (h : readNode encoding s = .ok (some n, s')) : s'.rest.length < s.rest.length := by
  obtain ⟨body?, s₁, hd, h⟩ := bind_eq_ok_iff.1 h
  cases body? with
  | none => cases (pure_eq_ok_iff.1 h).1
  | some body =>
    obtain ⟨n', hn, -⟩ := map_eq_ok_iff.1 h
    exact (lift_eq_ok_iff.1 hn).2 ▸ length_of_readDelimited hd

/-- Adds the nodes that are left in a chunk to those read before, each of them checked. -/
def readNodes (encoding : Encoding) (chunk : Chunk) (s : ByteStream) :
    Except Error (Chunk × ByteStream) :=
  match h : readNode encoding s with
  | .error e => .error e
  | .ok (none, s') => .ok (chunk, s')
  | .ok (some n, s') =>
    match encoding.validate n with
    | .error e => .error (.validation e)
    | .ok () =>
      have := length_of_readNode h
      readNodes encoding (chunk.insert n) s'
  termination_by s.rest.length

def readChunkBody (version : Int16) : Reading Chunk := do
  let provider ← Registry.builtin.provider version
  readNodes provider.encoding .empty

def readChunk (verifyType : Bool) : Reading Chunk := do
  if verifyType then expectType .chunk
  let version ← readVersion
  readChunkBody version

end Framing
end ScanArchive
