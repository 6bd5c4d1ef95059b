import ScanArchive.Bytes

/-!
# Bits

Reading a byte string bit by bit: forward with the low bit of each byte first, or backward from
its end with the high bit of each byte first.
-/

namespace ScanArchive

/-- What is left of a byte string that is read bit by bit. -/
structure BitReader where
  rest : Bytes
  /-- the number of bits left of the byte before the rest -/
  count : Nat := 0
  current : Nat := 0

namespace BitReader

def size (r : BitReader) : Nat := r.count + 8 * r.rest.length

def bit? (r : BitReader) : Option (Nat × BitReader) :=
  match r.count with
  | count + 1 => some (r.current % 2, { r with count, current := r.current / 2 })
  | 0 =>
    match r.rest with
    | [] => none
    | byte :: rest => some (byte.toNat % 2, { rest, count := 7, current := byte.toNat / 2 })

/-- Reads a number of the given width, its low bit first. -/
def bits? : (width : Nat) → BitReader → Option (Nat × BitReader)
  | 0, r => some (0, r)
  | width + 1, r => do
    let (low, r) ← r.bit?
    let (high, r) ← bits? width r
    return (low + 2 * high, r)

/-- The bytes after the one that is being read. -/
def align (r : BitReader) : Bytes := r.rest

end BitReader

/-- What is left of a byte string that is read bit by bit from its end. -/
structure BackwardReader where
  /-- the bytes that are left, the last one first -/
  rest : Bytes
  count : Nat := 0
  current : Nat := 0

namespace BackwardReader

/-- The bits below the highest one that is set in the last byte, which only marks their end. -/
def ofBytes? (bytes : Bytes) : Option BackwardReader :=
  match bytes.reverse with
  | [] => none
  | last :: rest =>
    if last = 0 then none
    else
      let count := last.toNat.log2
      some { rest, count, current := last.toNat - 1 <<< count }

def isEmpty (r : BackwardReader) : Bool := r.count = 0 && r.rest.isEmpty

def size (r : BackwardReader) : Nat := r.count + 8 * r.rest.length

def bit? (r : BackwardReader) : Option (Nat × BackwardReader) :=
  match r.count with
  | count + 1 =>
    some (r.current >>> count, { r with count, current := r.current % 1 <<< count })
  | 0 =>
    match r.rest with
    | [] => none
    | byte :: rest => some (byte.toNat / 128, { rest, count := 7, current := byte.toNat % 128 })

/-- Reads a number of the given width, its high bit first. -/
def bits? : (width : Nat) → BackwardReader → Option (Nat × BackwardReader)
  | 0, r => some (0, r)
  | width + 1, r => do
    let (high, r) ← r.bit?
    let (low, r) ← bits? width r
    return (high <<< width + low, r)

end BackwardReader
end ScanArchive
