import ScanArchive.Container.Zstd.Head

/-!
# Frames decoded at once

A frame whose contents fit where they are wanted, and of which all is at hand, is decoded there
without any regard to its window.
-/

namespace ScanArchive.Zstd

structure WholeFrame where
  head : Head
  blocks : List (BlockHead × Bytes)
  checksum : Bytes

namespace WholeFrame

def readBlocks? : (steps : Nat) → Bytes → Option (List (BlockHead × Bytes) × Bytes)
  | 0, _ => none
  | steps + 1, bytes => do
    let (head, rest) ← Bytes.split? BlockHead.length bytes
    let b ← BlockHead.ofBytes? head
    let (stored, rest) ← Bytes.split? b.stored rest
    if b.isLast then return ([(b, stored)], rest)
    let (blocks, rest) ← readBlocks? steps rest
    return ((b, stored) :: blocks, rest)

def read? (head : Head) (bytes : Bytes) : Option (WholeFrame × Bytes) := do
  let (blocks, rest) ← readBlocks? (bytes.length + 1) bytes
  let (checksum, rest) ← Bytes.split? (if head.hasChecksum then checksumLength else 0) rest
  return ({ head, blocks, checksum }, rest)

def decodeBlocks (limit : Nat) : List (BlockHead × Bytes) → List Bytes → Memory → Ring →
    Except Fault (List Bytes × Memory)
  | [], latest, m, _ => .ok (latest, m)
  | (b, stored) :: blocks, latest, m, r => do
    if b.kind = .compressed ∧ limit < b.size then throw .corrupt
    let (bytes, r, m) ← decodeBlock limit false b stored m r
    decodeBlocks limit blocks (bytes :: latest) m r

def decode (f : WholeFrame) (room : Nat) (m : Memory) : Except Fault (Bytes × Memory) := do
  let ring : Ring := { capacity := room }
  let (latest, m) ← decodeBlocks f.head.blockLimit f.blocks [] m.forFrame ring
  let bytes := latest.reverse.flatten
  if f.head.size ≠ some bytes.length then throw .corrupt
  if f.head.hasChecksum ∧ f.checksum ≠ checksumOf (({} : XxHash64.State).add bytes) then
    throw .checksum
  return (bytes, m)

end WholeFrame
end ScanArchive.Zstd
