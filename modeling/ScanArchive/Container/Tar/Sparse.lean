import ScanArchive.Container.Feed
import ScanArchive.Container.Tar.Header

/-!
# Maps of sparse files

An entry of this kind keeps only parts of a file.  Its header has a map of them, which may go on in
blocks of their own behind it.
-/

namespace ScanArchive.Tar

/-- A part of a map that has been gone through. -/
structure SparseMap where
  size : Nat
  /-- the bytes of them that are not in any part so far -/
  left : Nat
  /-- where the last part ends in the file -/
  stop : Nat := 0

namespace SparseMap

/-- The length of a field of a map; a part has two. -/
def fieldLength : Nat := 12

def parts (bytes : Bytes) : (count : Nat) → List (Bytes × Bytes)
  | 0 => []
  | count + 1 =>
    (bytes.take fieldLength, (bytes.drop fieldLength).take fieldLength)
      :: parts (bytes.drop (2 * fieldLength)) count

/-- Goes through a part: where it is in the file, and how long it is.  Unused ones are left out. -/
def add (m : SparseMap) : Bytes × Bytes → Except String SparseMap
  | (offset, length) => do
    if offset.head? = some 0 ∨ length.head? = some 0 then return m
    let offset ← numberOf (octal? offset)
    let length ← numberOf (octal? length)
    if length ≠ 0 ∧ (m.size - m.left) % blockSize ≠ 0 then
      throw "previous block in sparse file was not aligned to 512-byte boundary"
    if offset < m.stop then throw "out of order or overlapping sparse blocks"
    if UInt64.size ≤ offset + length then
      throw "more bytes listed in sparse file than u64 can hold"
    if m.left < length then throw "sparse file consumed more data than the header listed"
    return { m with left := m.left - length, stop := offset + length }

def addAll (m : SparseMap) (all : List (Bytes × Bytes)) : Except String SparseMap :=
  all.foldlM add m

variable {σ : Type} [Feed σ]

/-- Goes through the blocks behind a header; gives how many there are. -/
def extend : (steps : Nat) → SparseMap → Drawing σ (Nat × SparseMap)
  | 0, m => return (0, m)
  | steps + 1, m => do
    let block ← Feed.fill blockSize blockSize
    if block.isEmpty then throw "failed to read extension"
    if block.length < blockSize then throw "failed to read entire block"
    let m ← (m.addAll (parts block 21) : Except String SparseMap)
    if (block.drop 504).head? = some 1 then
      let (count, m) ← extend steps m
      return (count + 1, m)
    else return (1, m)

/-- Checks the map of an entry; gives how many blocks it goes on for behind the header. -/
def check (steps : Nat) (header : Bytes) (size : Nat) : Drawing σ Nat := do
  if !isGnu header then throw "sparse entry type listed but not GNU header"
  let m : SparseMap := { size, left := size }
  let m ← (m.addAll (parts (header.drop 386) 4) : Except String SparseMap)
  let (count, m) ← if (header.drop 482).head? = some 1 then extend steps m else pure (0, m)
  let whole ← (numberOf (octal? (part header 483 fieldLength)) : Except String Nat)
  if m.stop ≠ whole ∨ m.left ≠ 0 then throw "mismatch in sparse file chunks and size in header"
  return count

end SparseMap
end ScanArchive.Tar
