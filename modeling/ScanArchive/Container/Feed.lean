import ScanArchive.Bytes

/-!
# Feeds

What gives bytes as they are asked for, so that nothing behind them need be had.  How many are asked
for at a time is part of each way of reading, since a fault may come to light with the bytes before
it.
-/

namespace ScanArchive

abbrev Drawing (σ α : Type) := StateT σ (Except String) α

class Feed (σ : Type) where
  /-- Draws at most the given number of bytes, and none only at the end. -/
  draw : (room : Nat) → Drawing σ Bytes

namespace Feed

instance : Feed Bytes := ⟨fun room bytes => .ok (bytes.take room, bytes.drop room)⟩

variable {σ : Type} [Feed σ]

def drawWithin (room left : Nat) : Drawing σ Bytes :=
  if left = 0 then return [] else draw (min room left)

def fill : (count steps : Nat) → Drawing σ Bytes
  | _, 0 => return []
  | 0, _ => return []
  | count, steps + 1 => do
    let bytes ← draw count
    if bytes.isEmpty then return []
    return bytes ++ (← fill (count - bytes.length) steps)

/-- The most bytes that are passed over at a time. -/
def passedAtOnce : Nat := 32768

def pass : (count steps : Nat) → Drawing σ Bool
  | 0, _ => return true
  | _, 0 => return false
  | count, steps + 1 => do
    let bytes ← draw (min count passedAtOnce)
    if bytes.isEmpty then return false
    pass (count - bytes.length) steps

/-! ## Collecting -/

/-- A store that grows as bytes come in. -/
structure Collection where
  /-- how many bytes there was room for at first -/
  start : Nat
  capacity : Nat := start
  size : Nat := 0
  /-- how many bytes are drawn at a time -/
  most : Nat := 8192
  /-- the bytes that have come in, the last of them first -/
  latest : List Bytes := []

namespace Collection

/-- How many bytes are drawn to see whether there are any more. -/
def probe : Nat := 32

/-- The room after growing for some more bytes: at least twice as much as before. -/
def grown (c : Collection) (more : Nat) : Nat :=
  if c.capacity - c.size < more then max (max (2 * c.capacity) (c.size + more)) 8 else c.capacity

def add (c : Collection) (bytes : Bytes) : Collection :=
  { c with
    capacity := c.grown bytes.length
    size := c.size + bytes.length
    latest := bytes :: c.latest }

def isFilled (c : Collection) : Bool := c.size = c.capacity && c.capacity = c.start

def bytes (c : Collection) : Bytes := c.latest.reverse.flatten

end Collection

/--
Draws on until no more come or there are `left` more: a few bytes first if the store has just as
many, so as not to grow it for nothing.  `isFirst` is for a store that is small to begin with.
-/
def collectInto (isFirst : Bool) : (left steps : Nat) → Collection → Drawing σ Bytes
  | _, 0, c => return c.bytes
  | left, steps + 1, c => do
    if isFirst || c.isFilled then
      let bytes ← drawWithin Collection.probe left
      if bytes.isEmpty then return c.bytes
      collectInto false (left - bytes.length) steps (c.add bytes)
    else
      let c := { c with capacity := c.grown (if c.size = c.capacity then Collection.probe else 0) }
      let room := min (c.capacity - c.size) c.most
      let bytes ← drawWithin room left
      if bytes.isEmpty then return c.bytes
      let most := if room = c.most ∧ bytes.length = room then 2 * c.most else c.most
      collectInto false (left - bytes.length) steps { c.add bytes with most }

def collect (start left : Nat) : Drawing σ Bytes :=
  collectInto (start < Collection.probe) left (left + 2) { start }

end Feed
end ScanArchive
