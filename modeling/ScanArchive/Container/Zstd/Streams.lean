import ScanArchive.Container.Zstd.Huffman

/-!
# Literals in four streams

Four byte strings in one code stand behind each other, and their lengths before them.  Each but
the last gives a fourth of the literals, rounded up.

As a rule the bits of each must be used up exactly.  Long streams in a code of short words are
taken less strictly: their last symbols are read whatever bits they come from.
-/

namespace ScanArchive.Zstd

/-- The lengths of the first three streams, of two bytes each. -/
def streamTable : Nat := 6

structure Streams where
  bytes : Bytes
  /-- where each stream starts, and where it ends -/
  bounds : List (Nat × Nat)
  /-- how many literals each gives -/
  counts : List Nat

namespace Streams

def ofBytes? (count : Nat) (bytes : Bytes) : Option Streams := do
  let (sizes, rest) ← Bytes.split? streamTable bytes
  let size (i : Nat) : Nat := Bytes.littleEndian ((sizes.drop (2 * i)).take 2)
  let second := streamTable + size 0
  let third := second + size 1
  let fourth := third + size 2
  let stop := streamTable + rest.length
  let quarter := (count + 3) / 4
  if stop < streamTable + 4 ∨ stop < fourth ∨ count < 3 * quarter then none
  return {
    bytes
    bounds := [(streamTable, second), (second, third), (third, fourth), (fourth, stop)]
    counts := [quarter, quarter, quarter, count - 3 * quarter] }

def readExactly? (s : Streams) (code : PrefixCode) : Option Bytes := do
  let parts ← (s.bounds.zip s.counts).mapM fun ((start, stop), count) =>
    code.decode? count ((s.bytes.drop start).take (stop - start))
  return parts.flatten

/-! ## Reading less strictly -/

/-- The longest words of a code whose streams are taken less strictly. -/
def maxWord : Nat := 11

/-- A stream that is being read back from its end, eight bytes at a time. -/
structure Cursor where
  /-- where the eight bytes start -/
  start : Nat
  /-- how many of their bits have been read -/
  past : Nat
  latest : List UInt8 := []

namespace Cursor

def place (c : Cursor) : Nat := 8 * (c.start + 8) - c.past

/-- The cursor at the end of a stream, behind the mark if the last byte has one. -/
def atEnd (bytes : Array UInt8) (stop : Nat) : Cursor :=
  let last := (bytes[stop - 1]?.getD 0).toNat
  { start := stop - 8, past := if last = 0 then 0 else 8 - last.log2 }

def push (c : Cursor) (symbol width : Nat) : Cursor :=
  { c with past := c.past + width, latest := UInt8.ofNat symbol :: c.latest }

/-- Goes on to the eight bytes whose last one the place is in. -/
def settle (c : Cursor) : Cursor :=
  { c with start := c.start - c.past / 8, past := c.past % 8 }

end Cursor

/-- The bits before a place of the section, as many as the longest word has; at its start zeros. -/
def window (bytes : Array UInt8) (place : Nat) : Nat :=
  let byte (i : Nat) : Nat := (bytes[i]?.getD 0).toNat
  if place < maxWord then ((byte 0 + 256 * byte 1) % 1 <<< place) <<< (maxWord - place)
  else
    let first := place - maxWord
    let i := first / 8
    ((byte i + 256 * byte (i + 1) + 65536 * byte (i + 2)) >>> (first % 8)) % 1 <<< maxWord

def lookup? (window : Nat) : (length : Nat) → List (Nat × Array Nat) → Option (Nat × Nat)
  | _, [] => none
  | length, (first, symbols) :: levels =>
    let word := window >>> (maxWord - length)
    if first ≤ word then symbols[word - first]?.map (·, length)
    else lookup? window (length + 1) levels

def step? (code : PrefixCode) (bytes : Array UInt8) (c : Cursor) : Option Cursor := do
  let (symbol, width) ← lookup? (window bytes c.place) 1 code.levels
  return c.push symbol width

def steps? (code : PrefixCode) (bytes : Array UInt8) : (count : Nat) → Cursor → Option Cursor
  | 0, c => some c
  | count + 1, c => do steps? code bytes count (← step? code bytes c)

def rounds? (code : PrefixCode) (bytes : Array UInt8) :
    (count : Nat) → List Cursor → Option (List Cursor)
  | 0, cs => some cs
  | count + 1, cs => do
    rounds? code bytes count (← cs.mapM fun c => return (← steps? code bytes 5 c).settle)

def inOrder (cs : List Cursor) : Bool := (cs.zip cs.tail).all fun (a, b) => a.start ≤ b.start

/--
Reads rounds as long as the last stream has symbols left for one, and no stream can be read past
the start of the section: a round takes at most seven bytes.
-/
def allRounds? (code : PrefixCode) (bytes : Array UInt8) :
    (steps left : Nat) → List Cursor → Option (List Cursor)
  | 0, _, cs => some cs
  | steps + 1, left, cs =>
    -- The first stream is the one nearest to the start of the section.
    let count := min (left / 5) ((cs.head?.elim 0 (·.start)) / 7)
    if count = 0 ∨ !inOrder cs then some cs
    else do allRounds? code bytes steps (left - 5 * count) (← rounds? code bytes count cs)

/-- Reads last symbols; at the start of the section its first eight bytes come round again. -/
def lastSteps? (code : PrefixCode) (bytes : Array UInt8) :
    (count place : Nat) → List UInt8 → Option (List UInt8)
  | 0, _, latest => some latest
  | count + 1, place, latest => do
    let (symbol, width) ← lookup? (window bytes place) 1 code.levels
    let place := if width < place then place - width else place + 64 - width
    lastSteps? code bytes count place (UInt8.ofNat symbol :: latest)

def isLong (s : Streams) (code : PrefixCode) : Bool :=
  code.length ≤ maxWord && s.bounds.all (fun (start, stop) => start + 8 ≤ stop)
    && s.counts.all (0 < ·)

/-- The literals, if no stream is read too far while there are rounds. -/
def readLoosely? (s : Streams) (code : PrefixCode) : Option Bytes := do
  let bytes := s.bytes.toArray
  let last := s.counts.getLast?.getD 0
  let cs ← allRounds? code bytes last last (s.bounds.map fun (_, stop) => .atEnd bytes stop)
  let parts ← (cs.zip (s.bounds.zip s.counts)).mapM fun (c, (start, _), count) => do
    if c.start + 8 < start ∨ count < c.latest.length then none
    lastSteps? code bytes (count - c.latest.length) c.place c.latest
  return (parts.map (·.reverse)).flatten

def read? (s : Streams) (code : PrefixCode) : Option Bytes :=
  match s.readExactly? code with
  | some literals => some literals
  | none => if s.isLong code then s.readLoosely? code else none

end Streams
end ScanArchive.Zstd
