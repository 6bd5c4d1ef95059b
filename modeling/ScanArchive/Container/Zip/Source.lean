import ScanArchive.Container.Zip.Layout
import ScanArchive.Text

/-!
# Reading ZIP files

The end record is searched for from the end of the file and leads to the directory; the
directory is read when the file is opened, and each entry when its turn comes.  An entry that
cannot be read spoils only itself.  Files with other data in front are accepted: every offset is
then shifted by the length of that data.
-/

namespace ScanArchive

namespace Zip

def malformed (reason : String) : Error := .archive (.other ("invalid Zip archive: " ++ reason))

def unsupported (reason : String) : Error :=
  .archive (.other ("unsupported Zip archive: " ++ reason))

def endOfFile : Error := .io "failed to fill whole buffer"

def slice (file : Bytes) (offset count : Nat) : Except Error Bytes :=
  match Bytes.split? count (file.drop offset) with
  | some (bytes, _) => .ok bytes
  | none => .error endOfFile

def number (record : Bytes) (offset width : Nat) : Nat :=
  Bytes.littleEndian ((record.drop offset).take width)

/-- The `count` bytes at an offset, which must start with a signature. -/
def signed (file : Bytes) (offset count signature : Nat) (reason : String) :
    Except Error Bytes := do
  let start ← slice file offset 4
  if Bytes.littleEndian start ≠ signature then throw (malformed reason)
  slice file offset count

/-! ## The end of the directory -/

def endLength : Nat := 22

def maxComment : Nat := 65535

/--
The last place of a file at which an end record starts, given the offset and the length of what
is left of the file and the last place found before.
-/
def lastEnd (offset left : Nat) (found : Option Nat) : Bytes → Option Nat
  | [] => found
  | byte :: rest =>
    let here := left ≤ endLength + maxComment ∧ endLength ≤ left
      ∧ (byte :: rest).take 4 = u32 endSignature
    lastEnd (offset + 1) (left - 1) (if here then some offset else found) rest

structure End where
  offset : Nat
  disk : Nat
  directoryDisk : Nat
  countHere : Nat
  count : Nat
  directorySize : Nat
  directoryOffset : Nat
  commentLength : Nat

namespace End

/-- Whether some number does not fit, so that a larger record holds it. -/
def isTooSmall (e : End) : Bool :=
  [e.disk, e.directoryDisk, e.countHere, e.count].contains maxCount
    || [e.directorySize, e.directoryOffset].contains maxField

def read (file : Bytes) : Except Error End := do
  if file.length < endLength then throw (malformed "Invalid zip header")
  match lastEnd 0 file.length none file with
  | none => throw (malformed "Could not find central directory end")
  | some offset =>
    let record ← slice file offset endLength
    let commentLength := number record 20 2
    let _ ← slice file (offset + endLength) commentLength
    return {
      offset
      disk := number record 4 2
      directoryDisk := number record 6 2
      countHere := number record 8 2
      count := number record 10 2
      directorySize := number record 12 4
      directoryOffset := number record 16 4
      commentLength }

end End

/-- Where the directory is: the shift of all offsets, its start and the number of entries. -/
structure Directory where
  shift : Nat
  start : Nat
  count : Nat

def locatorLength : Nat := 20

def end64Length : Nat := 56

/-- How far in front of the end record a large one starts at least. -/
def end64Reach : Nat := 60

/--
Searches for the large end record from its nominal offset on: `candidates` is what stands there
in the file, and `places` the number of places to look at.
-/
def findEnd64 (places : Nat) (offset : Nat) (candidates : Bytes) : Except Error (Nat × Bytes) :=
  match places with
  | 0 => .error (malformed "Could not find ZIP64 central directory end")
  | places + 1 => do
    let start ← slice candidates 0 4
    if Bytes.littleEndian start = end64Signature then
      return (offset, ← slice candidates 0 end64Length)
    findEnd64 places (offset + 1) (candidates.drop 1)

namespace Directory

def ofEnd (e : End) : Except Error Directory :=
  if e.offset < e.directorySize + e.directoryOffset then
    .error (malformed "Invalid central directory size or offset")
  else
    .ok {
      shift := e.offset - e.directorySize - e.directoryOffset
      start := e.offset - e.directorySize
      count := e.countHere }

def ofLocator (file : Bytes) (e : End) (locator : Bytes) : Except Error Directory := do
  if !e.isTooSmall ∧ e.disk ≠ number locator 4 4 then
    throw (unsupported "Support for multi-disk files is not implemented")
  if e.offset < end64Reach then
    throw (malformed "File cannot contain ZIP64 central directory end")
  let nominal := number locator 8 8
  let (offset, record) ← findEnd64 (e.offset - end64Reach + 1 - nominal) nominal (file.drop nominal)
  if number record 16 4 ≠ number record 20 4 then
    throw (unsupported "Support for multi-disk files is not implemented")
  let shift := offset - nominal
  let start := number record 48 8 + shift
  if UInt64.size ≤ start then throw (malformed "Invalid central directory size or offset")
  return { shift, start, count := number record 32 8 }

def find (file : Bytes) : Except Error Directory := do
  let e ← End.read file
  if !e.isTooSmall ∧ e.disk ≠ e.directoryDisk then
    throw (unsupported "Support for multi-disk files is not implemented")
  let reach := endLength + e.commentLength + locatorLength
  if file.length < reach then ofEnd e
  else
    let locator ← slice file (file.length - reach) locatorLength
    if number locator 0 4 = locatorSignature then ofLocator file e locator else ofEnd e

end Directory

/-! ## The entries -/

structure Central where
  name : String
  encrypted : Bool
  /-- whether it is said how the contents are encrypted -/
  isSealed : Bool
  /-- how the contents are kept; nothing for methods that are not supported -/
  method : Option Method
  crc : Nat
  packedSize : Nat
  size : Nat
  offset : Nat

namespace Central

/--
Replaces those of the given numbers that are too large for the record by numbers of eight bytes
off the front of a byte string.  Also gives how many bytes that took, unless there are too few.
-/
def enlarge : List Nat → Bytes → List Nat × Option Nat
  | [], _ => ([], some 0)
  | n :: rest, bytes =>
    if n = maxField then
      match Bytes.split? 8 bytes with
      | none => (n :: rest, none)
      | some (first, bytes) =>
        let (rest, used) := enlarge rest bytes
        (Bytes.littleEndian first :: rest, used.map (8 + ·))
    else
      let (rest, used) := enlarge rest bytes
      (n :: rest, used)

/-- The kind of the extra field that says how contents are encrypted. -/
def encryption : Nat := 0x9901

/-- The method of contents of which an extra field says how they are encrypted. -/
def encryptedMethod : Nat := 99

/-- What extra fields make different. -/
structure Extended where
  /-- the size of the contents, their size in the file, and where the local record starts -/
  numbers : List Nat
  method : Nat
  isSealed : Bool := false

def sealedMethod (contents : Bytes) : Except Error Nat := do
  if number contents 2 2 ≠ 0x4541 then throw (malformed "Invalid AES vendor")
  if ¬ [1, 2].contains (number contents 0 2) then throw (malformed "Invalid AES vendor version")
  if ¬ [1, 2, 3].contains (number contents 4 1) then
    throw (malformed "Invalid AES encryption strength")
  return number contents 5 2

/--
Reads the extra fields behind a name, as far as they go.  Behind a field on encryption, as many
bytes as it has are passed over.
-/
def readExtra (x : Extended) (extra : Bytes) : Except Error Extended :=
  match h : Bytes.split? 4 extra with
  | none => .ok x
  | some (head, rest) =>
    have := Bytes.length_of_split? h
    let length := number head 2 2
    if number head 0 2 = largeNumbers then
      match enlarge x.numbers rest with
      | (numbers, none) => .ok { x with numbers }
      | (numbers, some used) => readExtra { x with numbers } (rest.drop (max length used))
    else if number head 0 2 = encryption then
      if length ≠ 7 then
        .error (unsupported "AES extra data field has an unsupported length")
      else if rest.length < 7 then .ok x
      else do
        let method ← sealedMethod (rest.take 7)
        -- Seven bytes for the field, and as many again.
        readExtra { x with method, isSealed := true } (rest.drop 14)
    else readExtra x (rest.drop length)
  termination_by extra.length
  decreasing_by all_goals simp only [List.length_drop]; omega

def read (file : Bytes) (shift offset : Nat) : Except Error (Central × Nat) := do
  let record ← signed file offset 46 centralSignature "Invalid Central Directory header"
  let flags := number record 8 2
  let nameLength := number record 28 2
  let extraLength := number record 30 2
  let commentLength := number record 32 2
  let tail ← slice file (offset + 46) (nameLength + extraLength + commentLength)
  let name := tail.take nameLength
  let extra := (tail.drop nameLength).take extraLength
  let x ← readExtra {
    numbers := [number record 24 4, number record 20 4, number record 42 4]
    method := number record 10 2 } extra
  if x.method = encryptedMethod ∧ !x.isSealed then
    throw (malformed "AES encryption without AES extra data field")
  let start := x.numbers[2]?.getD 0 + shift
  if UInt64.size ≤ start then throw (malformed "Archive header is too large")
  return ({
    name := if flags / utf8Flag % 2 = 1 then Text.ofBytesLossy name else Text.ofCodePage437 name
    encrypted := flags % 2 = 1
    isSealed := x.isSealed
    method := Method.ofCode? x.method
    crc := number record 16 4
    packedSize := x.numbers[1]?.getD 0
    size := x.numbers[0]?.getD 0
    offset := start }, offset + 46 + nameLength + extraLength + commentLength)

def isDirectory (c : Central) : Bool := c.name.endsWith "/" || c.name.endsWith "\\"

/-- Reads an entry with at most `limit` bytes of contents; directories are passed over. -/
def entry? (c : Central) (file : Bytes) (limit : Nat) : Except Error (Option Entry) := do
  if c.encrypted then throw (unsupported "Password required to decrypt file")
  let _ ← signed file c.offset 4 localSignature "Invalid local file header"
  let lengths ← slice file (c.offset + 26) 4
  match c.method with
  | none => throw (unsupported "Compression method not supported")
  | some method =>
    if c.isSealed then throw (unsupported "Password required to decrypt file")
    if c.isDirectory then return none
    let offset := c.offset + 30 + number lengths 0 2 + number lengths 2 2
    let (contents, isFaulty) := method.unpack ((file.drop offset).take c.packedSize)
    -- The limit is reached before any fault behind it.
    if limit < contents.length then throw (.archive (.entryTooLarge c.name limit))
    if isFaulty then
      throw (.archive (.other ("read " ++ c.name ++ ": corrupt deflate stream")))
    if (Crc32.checksum contents).toNat ≠ c.crc then
      throw (.archive (.other ("read " ++ c.name ++ ": Invalid checksum")))
    return some { name := c.name, data := contents }

def readMany (file : Bytes) (shift : Nat) : (count offset : Nat) → Except Error (List Central)
  | 0, _ => .ok []
  | count + 1, offset => do
    let (c, offset) ← read file shift offset
    return c :: (← readMany file shift count offset)

end Central
end Zip

structure ZipFile where
  file : Bytes
  entries : List Zip.Central

namespace ZipFile

def ofBytes (file : Bytes) : Except Error ZipFile := do
  let directory ← Zip.Directory.find file
  let entries ← Zip.Central.readMany file directory.shift directory.count directory.start
  return { file, entries }

def size (z : ZipFile) : Nat := z.entries.length

def source (z : ZipFile) (limit : Nat) : Source :=
  z.entries.filterMap fun c =>
    match c.entry? z.file limit with
    | .ok none => none
    | .ok (some entry) => some (.ok entry)
    | .error e => some (.error e)

end ZipFile

/-! ## Step by step

An entry of the directory counts as tried before it is looked at, so that a failure leaves nothing
behind that the next attempt would meet.
-/

structure ZipCursor where
  zip : ZipFile
  limit : Nat
  /-- how many entries of the directory have been tried -/
  tried : Nat := 0

def ZipFile.cursor (z : ZipFile) (limit : Nat) : ZipCursor := { zip := z, limit }

namespace ZipCursor

/-- The next entry that is no directory, if there is one, and the file after the attempt. -/
def next (c : ZipCursor) : Except Error (Option Entry) × ZipCursor :=
  match h : c.zip.entries[c.tried]? with
  | none => (.ok none, c)
  | some central =>
    have := (List.getElem?_eq_some_iff.1 h).1
    let rest := { c with tried := c.tried + 1 }
    match central.entry? c.zip.file c.limit with
    | .error e => (.error e, rest)
    | .ok (some entry) => (.ok (some entry), rest)
    | .ok none => next rest
  termination_by c.zip.entries.length - c.tried

end ZipCursor
end ScanArchive
