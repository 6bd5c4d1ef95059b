import ScanArchive.Archive.Container

/-!
# Layout of tar files

A tar file is a sequence of blocks of 512 bytes.  An entry is a header block and its contents,
filled up with zeros to whole blocks; two blocks of zeros end the file.
-/

namespace ScanArchive.Tar

def blockSize : Nat := 512

def maxPath : Nat := 100

def parts (path : String) : List String := (path.splitOn "/").filter (· ≠ "")

/--
The path under which an entry is kept: the parts that are not a dot, and a slash at the end if
there was one.  A path of dots alone stays one dot.  Paths that lead out of the directory, are
empty or do not fit into a header are refused.
-/
def storedPath? (path : String) : Option Bytes :=
  let all := parts path
  let named := all.filter (· ≠ ".")
  if path.startsWith "/" ∨ all.isEmpty ∨ named.contains ".." then none
  else if named.isEmpty ∧ path.startsWith "." = false then none
  else
    let kept := if named.isEmpty then ["."] else named
    let bytes := Bytes.ofText ("/".intercalate kept ++ if path.endsWith "/" then "/" else "")
    if maxPath < bytes.length ∨ bytes.contains 0 then none else some bytes

/-- A number in octal digits that fill all of a field but its last byte, which is zero. -/
def octalField (width n : Nat) : Bytes :=
  let digits := (Nat.toDigits 8 n).map fun c => UInt8.ofNat c.toNat
  List.replicate (width - 1 - digits.length) 0x30 ++ digits ++ [0]

def headerStart (path : Bytes) (size : Nat) : Bytes :=
  Bytes.padded maxPath path ++ octalField 8 0o644 ++ Bytes.padded 16 [] ++ octalField 12 size
    ++ octalField 12 0

def gnuMagic : Bytes := Bytes.ofText "ustar  \x00"

def headerEnd : Bytes := Bytes.padded 101 [] ++ Bytes.padded 255 gnuMagic

def byteSum (bytes : Bytes) : Nat := bytes.foldl (fun n b => n + b.toNat) 0

/-- The sum that eight blanks in place of the checksum add. -/
def blankSum : Nat := 8 * 32

def header (path : Bytes) (size : Nat) : Bytes :=
  let start := headerStart path size
  start ++ octalField 8 (byteSum start + blankSum + byteSum headerEnd) ++ headerEnd

def wholeBlocks (size : Nat) : Nat := (size + (blockSize - 1)) / blockSize * blockSize

def member (path : Bytes) (data : Bytes) : Bytes :=
  header path data.length ++ Bytes.padded (wholeBlocks data.length) data

def trailer : Bytes := Bytes.padded (2 * blockSize) []

end ScanArchive.Tar
