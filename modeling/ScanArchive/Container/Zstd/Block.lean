import ScanArchive.Container.Zstd.Ring

/-!
# Blocks

A block has a head of three bytes.  It holds its bytes as they are, holds one byte that is
repeated, or holds literals and sequences.
-/

namespace ScanArchive.Zstd

/-! ## Faults -/

inductive Fault where
  | unknownFrame
  | truncated
  /-- a frame of a later version of the format -/
  | unsupported
  | windowTooLarge
  | dictionary
  /-- a block that gives more than there is room for -/
  | noRoom
  | checksum
  | corrupt
  deriving DecidableEq, Repr

def Fault.message : Fault → String
  | unknownFrame => "Unknown frame descriptor"
  | truncated => "incomplete frame"
  | unsupported => "Unsupported frame parameter"
  | windowTooLarge => "Frame requires too much memory for decoding"
  | dictionary => "Dictionary mismatch"
  | noRoom => "Destination buffer is too small"
  | checksum => "Restored data doesn't match checksum"
  | corrupt => "Data corruption detected"

/-! ## Blocks -/

inductive BlockKind where
  | raw
  | repeated
  | compressed
  deriving DecidableEq, Repr

structure BlockHead where
  kind : BlockKind
  /-- the bytes that the block holds, or how often it repeats its byte -/
  size : Nat
  isLast : Bool

namespace BlockHead

def length : Nat := 3

def ofBytes? (bytes : Bytes) : Option BlockHead :=
  let n := Bytes.littleEndian bytes
  let kind? : Option BlockKind := match field n 1 2 with
    | 0 => some .raw
    | 1 => some .repeated
    | 2 => some .compressed
    | _ => none
  kind?.map fun kind => { kind, size := n / 8, isLast := n % 2 = 1 }

def stored (b : BlockHead) : Nat := if b.kind = .repeated then 1 else b.size

end BlockHead

def minCompressed : Nat := 2

def decodeCompressed? (t : Target) (m : Memory) (r : Ring) (block : Bytes) :
    Option (Ring × Memory) := do
  let _ ← Bytes.split? minCompressed block
  let (literals, m, rest) ← Literals.read? t m block
  let (sequences, m) ← readSection? m rest
  return (← Ring.executeAll? (r.here + literals.room) sequences r literals, m)

def decodePlain (r : Ring) (bytes : Bytes) : Except Fault (Bytes × Ring) :=
  if r.room < bytes.length then .error .noRoom else .ok (bytes, r.put bytes)

/--
Puts out what a block gives, in a frame whose blocks give at most `limit` bytes; also gives these
bytes.  `isShared` tells whether later blocks find them in the same memory.
-/
def decodeBlock (limit : Nat) (isShared : Bool) (b : BlockHead) (stored : Bytes) (m : Memory)
    (r : Ring) : Except Fault (Bytes × Ring × Memory) := do
  match b.kind with
  | .raw =>
    let (bytes, r) ← decodePlain r stored
    return (bytes, r, m)
  | .repeated =>
    let (bytes, r) ← decodePlain r (List.replicate b.size (stored.headD 0))
    return (bytes, r, m)
  | .compressed =>
    let place := r.here
    let t : Target := { blockLimit := limit, room := r.room, isShared }
    match decodeCompressed? t m r stored with
    | none => throw .corrupt
    | some (r, m) => return (Ring.bytesFrom r.cells place (r.here - place), r, m)

end ScanArchive.Zstd
