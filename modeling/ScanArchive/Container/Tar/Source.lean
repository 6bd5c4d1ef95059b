import ScanArchive.Archive.Container
import ScanArchive.Container.Tar.Extension
import ScanArchive.Container.Tar.Sparse
import ScanArchive.Container.Zstd.Reader
import ScanArchive.Text

/-!
# Reading tar files

A tar file is read to its end when it is opened, so that any fault in it refuses all of it; what
follows the end is not read.  Of all kinds of entries only regular files are given.
-/

namespace ScanArchive.Tar

def malformed (reason : String) : Error := .archive (.other reason)

abbrev TarReading (σ α : Type) := StateT σ (Except Error) α

variable {σ α : Type} [Feed σ]

/-- Draws bytes; in front of the reason for a failure may stand what they are for. -/
def draw (purpose : String) (d : Drawing σ α) : TarReading σ α := fun s =>
  match d s with
  | .ok found => .ok found
  | .error reason => .error (malformed (purpose ++ reason))

/-- Draws a block; nothing at the end, which a block of zeros marks as well. -/
def nextHeader : Drawing σ (Option Bytes) := do
  let block ← Feed.fill blockSize blockSize
  if block.isEmpty then return none
  if block.length < blockSize then throw "failed to read entire block"
  return if block.all (· = 0) then none else some block

def passRest (count : Nat) : Drawing σ Unit := do
  if !(← Feed.pass count count) then throw "unexpected EOF during skip"

/-- The most bytes that there is room for before the contents of an extension are read. -/
def maxReserved : Nat := 131072

/-- Draws the contents of an extension, which `isKnown` tells to be there already. -/
def extension (what : String) (isKnown : Bool) (size : Nat) : Drawing σ Bytes := do
  if isKnown then throw ("two " ++ what ++ " entries describing the same member")
  Feed.collect (min size maxReserved) size

def contents (limit : Nat) (name : String) (size : Nat) : TarReading σ Bytes := do
  let most := min (limit + 1) (UInt64.size - 1)
  let data ← draw ("read " ++ name ++ ": ") (Feed.collect 0 (min size most))
  if limit < data.length then throw (.archive (.entryTooLarge name limit))
  return data

structure Progress where
  announced : Announced := {}
  place : Nat := 0
  /-- the entries so far, the last one first -/
  entries : List Entry := []

/-- Reads what belongs to a header; gives how many bytes of it have been drawn. -/
def readMember (limit : Nat) (header : Bytes) (size : Nat) (p : Progress) :
    TarReading σ (Nat × Progress) := do
  let announced := p.announced
  if announces 'L' header then
    let path ← draw "" (extension "long name" announced.path.isSome size)
    return (path.length, { p with announced := { announced with path := some path } })
  else if announces 'K' header then
    let target ← draw "" (extension "long name" announced.link size)
    return (target.length, { p with announced := { announced with link := true } })
  else if announces 'x' header then
    let records ← draw "" (extension "pax extensions" announced.extension.isSome size)
    return (records.length, { p with announced := { announced with extension := some records } })
  else if kind header = 'S' then
    let count ← draw "" (SparseMap.check (UInt64.size / blockSize) header size)
    -- The parts themselves are passed over with what is left of the entry.
    return (0, { p with announced := {}, place := p.place + count * blockSize })
  else if isFile header then
    let name := Text.ofBytesLossy (announced.pathOf header)
    let data ← contents limit name size
    return (data.length, { p with announced := {}, entries := { name, data } :: p.entries })
  else return (0, { p with announced := {} })

/-- Reads the entry behind a header.  Places of headers are below 2⁶⁴. -/
def readEntry (limit : Nat) (header : Bytes) (p : Progress) : TarReading σ Progress := do
  -- The checksum is compared first, since a header at fault has no size.
  let size ← draw "" do
    (checkSum header : Except String Unit)
    (p.announced.sizeOf header : Except String Nat)
  let place := p.place + blockSize + wholeBlocks size
  if UInt64.size ≤ size + (blockSize - 1) ∨ UInt64.size ≤ place then
    throw (malformed "size overflow")
  let (drawn, p) ← readMember limit header size { p with place }
  draw "" (passRest (wholeBlocks size - drawn))
  return p

def readEntries (limit : Nat) : (steps : Nat) → Progress → TarReading σ (List Entry)
  | 0, _ => throw (malformed "size overflow")
  | steps + 1, p => do
    match ← draw "" nextHeader with
    | some header => readEntries limit steps (← readEntry limit header p)
    | none =>
      if p.announced.any then
        throw (malformed "members found describing a future member but no future member found")
      return p.entries.reverse

def read (limit : Nat) (s : σ) : Except Error (List Entry) :=
  match readEntries limit (UInt64.size / blockSize) {} s with
  | .ok (entries, _) => .ok entries
  | .error e => .error e

end ScanArchive.Tar

namespace ScanArchive

def tarZstdSource (limit : Nat) (file : Bytes) : Except Error Source :=
  (Tar.read limit (Zstd.Reader.ofBytes file)).map Source.ofEntries

end ScanArchive
