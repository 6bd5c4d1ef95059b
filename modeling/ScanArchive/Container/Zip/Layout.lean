import ScanArchive.Archive.Container
import ScanArchive.Container.Deflate.Inflate

/-!
# Writing ZIP files

A ZIP file holds its entries one after another, each behind a local record, then a directory
with a central record for each entry, and an end record.  Numbers that are too large for these
records stand in extra fields, and in a large end record before the other one.  Entries are
gathered and laid out when the file is finished.
-/

namespace ScanArchive

/-! ## Checksums

CRC-32: the remainder of the reflected polynomial 0x04C11DB7, started from and finished with all
bits flipped.
-/

namespace Crc32

def polynomial : UInt32 := 0xEDB88320

def shift (c : UInt32) : UInt32 := if c &&& 1 = 1 then (c >>> 1) ^^^ polynomial else c >>> 1

def addByte (c : UInt32) (byte : UInt8) : UInt32 :=
  shift (shift (shift (shift (shift (shift (shift (shift (c ^^^ byte.toUInt32))))))))

def checksum (bytes : Bytes) : UInt32 := bytes.foldl addByte 0xFFFFFFFF ^^^ 0xFFFFFFFF

end Crc32

/-! ## Layout -/

namespace Zip

inductive Method where
  | stored
  | deflated
  deriving DecidableEq, Repr

namespace Method

def code : Method → Nat
  | stored => 0
  | deflated => 8

def ofCode? : Nat → Option Method
  | 0 => some stored
  | 8 => some deflated
  | _ => none

def pack : Method → Bytes → Bytes
  | stored => id
  | deflated => Deflate.store

/-- The contents that packed bytes give, and whether they are at fault behind them. -/
def unpack : Method → Bytes → Bytes × Bool
  | stored, bytes => (bytes, false)
  | deflated, bytes => Deflate.inflate bytes

end Method

def localSignature : Nat := 0x04034B50

def centralSignature : Nat := 0x02014B50

def endSignature : Nat := 0x06054B50

def end64Signature : Nat := 0x06064B50

def locatorSignature : Nat := 0x07064B50

/-- The largest number in a field of four bytes.  It also stands for one that is elsewhere. -/
def maxField : Nat := 0xFFFFFFFF

def maxCount : Nat := 0xFFFF

/-- The kind of the extra field that holds large numbers. -/
def largeNumbers : Nat := 1

def versionNeeded (offset : Nat) : Nat := if maxField < offset then 45 else 20

def formatVersion : Nat := 46

/-- Made on Unix. -/
def versionMadeBy : Nat := 0x0300 + formatVersion

def utf8Flag : Nat := 0x0800

/-- The first day that the format can name, 1980-01-01. -/
def firstDay : Nat := 0x0021

/-- A regular file that its owner may write and everyone may read. -/
def attributes : Nat := 0o100644 <<< 16

def u16 (n : Nat) : Bytes := Bytes.toLittleEndian 2 n

def u32 (n : Nat) : Bytes := Bytes.toLittleEndian 4 n

def u64 (n : Nat) : Bytes := Bytes.toLittleEndian 8 n

structure Member where
  name : Bytes
  method : Method
  crc : Nat
  size : Nat
  packed : Bytes

namespace Member

def ofEntry (method : Method) (e : Entry) : Member where
  name := Bytes.ofText e.name
  method := method
  crc := (Crc32.checksum e.data).toNat
  size := e.data.length
  packed := method.pack e.data

def flags (m : Member) : Nat := if m.name.all (· < 0x80) then 0 else utf8Flag

/-- What the local and the central record have in common: all up to the sizes. -/
def common (m : Member) (offset : Nat) : Bytes :=
  u16 (versionNeeded offset) ++ u16 m.flags ++ u16 m.method.code ++ u16 0 ++ u16 firstDay
    ++ u32 m.crc ++ u32 m.packed.length ++ u32 m.size

def localHead (m : Member) (offset : Nat) : Bytes :=
  u32 localSignature ++ m.common offset ++ u16 m.name.length ++ u16 0

def localRecord (m : Member) (offset : Nat) : Bytes := m.localHead offset ++ m.name ++ m.packed

/-- The extra field for an offset that is too large for the record. -/
def extra (offset : Nat) : Bytes :=
  if maxField < offset then u16 largeNumbers ++ u16 8 ++ u64 offset else []

def centralHead (m : Member) (offset : Nat) : Bytes :=
  u32 centralSignature ++ u16 versionMadeBy ++ m.common offset ++ u16 m.name.length
    ++ u16 (extra offset).length ++ u16 0 ++ u16 0 ++ u16 0 ++ u32 attributes
    ++ u32 (min offset maxField)

def centralRecord (m : Member) (offset : Nat) : Bytes :=
  m.centralHead offset ++ m.name ++ extra offset

end Member

def locals : (offset : Nat) → List Member → List Bytes
  | _, [] => []
  | offset, m :: rest =>
    m.localRecord offset :: locals (offset + (m.localRecord offset).length) rest

def directory : (offset : Nat) → List Member → List Bytes
  | _, [] => []
  | offset, m :: rest =>
    m.centralRecord offset :: directory (offset + (m.localRecord offset).length) rest

def end64Record (count size offset : Nat) : Bytes :=
  u32 end64Signature ++ u64 44 ++ u16 formatVersion ++ u16 formatVersion ++ u32 0 ++ u32 0
    ++ u64 count ++ u64 count ++ u64 size ++ u64 offset

def locator (offset : Nat) : Bytes := u32 locatorSignature ++ u32 0 ++ u64 offset ++ u32 1

/-- Whether a number of a directory is too large for the end record. -/
def needsEnd64 (count size offset : Nat) : Bool := maxCount < count || maxField < max size offset

def endRecord (count size offset : Nat) : Bytes :=
  u32 endSignature ++ u16 0 ++ u16 0 ++ u16 (min count maxCount) ++ u16 (min count maxCount)
    ++ u32 (min size maxField) ++ u32 (min offset maxField) ++ u16 0

/-- The end records of a directory, the large one only where it is needed. -/
def ending (count size offset : Nat) : Bytes :=
  (if needsEnd64 count size offset then
    end64Record count size offset ++ locator (offset + size) else [])
    ++ endRecord count size offset

def file (members : List Member) : Bytes :=
  let locals := (locals 0 members).flatten
  let central := (directory 0 members).flatten
  locals ++ central ++ ending members.length central.length locals.length

end Zip

/-! ## Entries -/

structure ZipSink where
  method : Zip.Method := .deflated
  /-- the entries so far, the last one first -/
  written : List OpenEntry := []

namespace ZipSink

def entries (s : ZipSink) : List Entry := (s.written.map (·.toEntry)).reverse

def startEntry (name : String) : Call ZipSink Unit :=
  modify fun s => { s with written := { name } :: s.written }

/-- Adds to the last entry; writing nothing needs no entry. -/
def writeBytes (bytes : Bytes) : Call ZipSink Unit := do
  let s ← get
  match s.written with
  | last :: earlier => set { s with written := last.add bytes :: earlier }
  | [] => if !bytes.isEmpty then throw (.io "No file has been started")

def finish (s : ZipSink) : Except Error Bytes :=
  .ok (Zip.file (s.entries.map (Zip.Member.ofEntry s.method)))

instance : Sink ZipSink Bytes := ⟨startEntry, writeBytes, finish⟩

end ZipSink
end ScanArchive
