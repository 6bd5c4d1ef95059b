import ScanArchive.Container.Tar.Layout

/-!
# Reading headers of tar files

A header is a block.  Its numbers are in octal digits, or, where they do not fit, in bytes; its
checksum is the sum of its bytes.
-/

namespace ScanArchive.Tar

def untilZero (bytes : Bytes) : Bytes := bytes.takeWhile (· ≠ 0)

def part (header : Bytes) (offset width : Nat) : Bytes := (header.drop offset).take width

def isSpace (c : Char) : Bool :=
  [0x20, 0x85, 0xA0, 0x1680, 0x2028, 0x2029, 0x202F, 0x205F, 0x3000].contains c.toNat
    || (0x09 ≤ c.toNat && c.toNat ≤ 0x0D) || (0x2000 ≤ c.toNat && c.toNat ≤ 0x200A)

/-- A number below 2⁶⁴ in digits of the given base, with or without a plus sign. -/
def number? (base : Nat) (text : List Char) : Option Nat :=
  let digits := match text with
    | '+' :: digits => digits
    | digits => digits
  if digits.isEmpty then none
  else
    let n? := digits.foldlM (fun n c =>
      if '0' ≤ c ∧ c.toNat < '0'.toNat + base then some (n * base + (c.toNat - '0'.toNat))
      else none) 0
    n?.filter (· < UInt64.size)

/-- A number in octal digits, with blanks around it and a zero after it. -/
def octal? (field : Bytes) : Option Nat := do
  let text ← Bytes.toText? (untilZero field)
  let trimmed := ((text.toList.dropWhile isSpace).reverse.dropWhile isSpace).reverse
  number? 8 trimmed

/-- A size: octal digits, or the last eight bytes of a field that starts with a high bit. -/
def size? (field : Bytes) : Option Nat :=
  match field.head? with
  | some b =>
    if 0x80 ≤ b then some (Bytes.bigEndian (field.drop (field.length - 8))) else octal? field
  | none => none

def notANumber : String := "numeric field was not a number"

def numberOf (number? : Option Nat) : Except String Nat :=
  match number? with
  | some n => .ok n
  | none => .error notANumber

def isGnu (header : Bytes) : Bool := part header 257 8 == gnuMagic

def isUstar (header : Bytes) : Bool := part header 257 8 == Bytes.ofText "ustar\x0000"

def kind (header : Bytes) : Char := Char.ofNat ((header.drop 156).headD 0).toNat

def isFile (header : Bytes) : Bool := kind header = '0' || kind header = '\x00'

/-- Whether an entry says something in advance about the next one; its header must have a sign. -/
def announces (c : Char) (header : Bytes) : Bool :=
  (isGnu header || isUstar header) && kind header = c

/-- The path in a header, of which one of the formats keeps the front part elsewhere. -/
def headerPath (header : Bytes) : Bytes :=
  let name := untilZero (part header 0 100)
  let front := untilZero (part header 345 155)
  if isUstar header ∧ (¬ front.isEmpty ∨ (part header 0 100).contains 0x5C) then
    if front.isEmpty then name else front ++ 0x2F :: name
  else name

def checkSum (header : Bytes) : Except String Unit := do
  let n ← numberOf (octal? (part header 148 8))
  if n % UInt32.size = byteSum (header.take 148) + blankSum + byteSum (header.drop 156) then
    return ()
  else throw "archive header checksum mismatch"

def headerSize (header : Bytes) : Except String Nat := numberOf (size? (part header 124 12))

end ScanArchive.Tar
