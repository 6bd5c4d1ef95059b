import ScanArchive.Container.Zstd.Memory
import ScanArchive.Container.Zstd.Streams

/-!
# Literals

The bytes that the sequences of a block copy.  They stand in the block as they are, are one byte
repeated, or are in a prefix code, which is given or the last one.
-/

namespace ScanArchive.Zstd

/-- Where a block is decoded to. -/
structure Target where
  blockLimit : Nat
  room : Nat
  /-- whether the room is the memory in which later blocks find the output -/
  isShared : Bool

namespace Target

def literalLimit (t : Target) : Nat := min t.blockLimit t.room

/-- Whether that many literals are laid down in the room itself, behind the block. -/
def hasRoomBehind (t : Target) (count : Nat) : Bool :=
  !t.isShared && t.blockLimit + slack + count + slack < t.room

end Target

/-- The literals of a block that have not been copied yet. -/
structure Literals where
  /-- the literals and what is behind them -/
  bytes : Bytes
  count : Nat
  /-- the bytes of the room that the block may take up -/
  room : Nat

namespace Literals

def ofKept (t : Target) (m : Memory) (bytes : Bytes) : Literals × Memory :=
  let count := bytes.length
  if t.hasRoomBehind count then ({ bytes, count, room := t.blockLimit + slack }, m)
  else
    ({ bytes := bytes ++ m.kept.drop (min count Memory.maxKept), count, room := t.room },
      m.keep bytes)

def minCoded : Nat := 5

def minStreamed : Nat := 6

def readCoded? (t : Target) (given : Bool) (format : Nat) (m : Memory) (block : Bytes) :
    Option (Literals × Memory × Bytes) := do
  let (width, headLength) := match format with
    | 0 | 1 => (10, 3)
    | 2 => (14, 4)
    | _ => (18, 5)
  let _ ← Bytes.split? minCoded block
  let (head, rest) ← Bytes.split? headLength block
  let n := Bytes.littleEndian head
  let count := field n 4 width
  if t.literalLimit < count then none
  let (coded, rest) ← Bytes.split? (field n (4 + width) width) rest
  let (code, coded) ← if given then PrefixCode.read? coded
    else m.literals.map fun code => (code, coded)
  let bytes ← if format = 0 then code.decode? count coded
    else if count < minStreamed then none
    else do (← Streams.ofBytes? count coded).read? code
  let (literals, m) := ofKept t { m with literals := code } bytes
  return (literals, m, rest)

/--
Reads the literals of a block; also gives the bytes after them.  Those that stand in the block as
they are stay there if enough of it follows.
-/
def read? (t : Target) (m : Memory) (block : Bytes) : Option (Literals × Memory × Bytes) := do
  let n := Bytes.littleEndian (block.take 1)
  let format := field n 2 2
  match field n 0 2 with
  | 2 => readCoded? t true format m block
  | 3 => readCoded? t false format m block
  | kind =>
    let (start, headLength) := match format with
      | 1 => (4, 2)
      | 3 => (4, 3)
      | _ => (3, 1)
    let (head, rest) ← Bytes.split? headLength block
    let count := Bytes.littleEndian head >>> start
    if t.literalLimit < count then none
    if kind = 0 then
      let (bytes, behind) ← Bytes.split? count rest
      if (behind.take slack).length = slack then
        return ({ bytes := rest, count, room := t.room }, m, behind)
      else
        let (literals, m) := ofKept t m bytes
        return (literals, m, behind)
    else
      let (byte, rest) ← Bytes.split? 1 rest
      let (literals, m) := ofKept t m (List.replicate count byte).flatten
      return (literals, m, rest)

end Literals
end ScanArchive.Zstd
