import ScanArchive.Container.Zstd.Memory

/-!
# Sequences

A sequence copies some literals and then repeats earlier output.  Its three numbers are symbols of
state machines with bits that are added to them, and are read from the end of the block.
-/

namespace ScanArchive.Zstd

/-- The least number that a symbol stands for, and the width of what is added to it. -/
abbrev Bases := Array (Nat × Nat)

def lengthBases : Bases :=
  ((List.range 16).map (·, 0)).toArray ++ #[
    (16, 1), (18, 1), (20, 1), (22, 1), (24, 2), (28, 2), (32, 3), (40, 3), (48, 4), (64, 6),
    (128, 7), (256, 8), (512, 9), (1024, 10), (2048, 11), (4096, 12), (8192, 13), (16384, 14),
    (32768, 15), (65536, 16)]

def repeatBases : Bases :=
  ((List.range 32).map fun n => (n + 3, 0)).toArray ++ #[
    (35, 1), (37, 1), (39, 1), (41, 1), (43, 2), (47, 2), (51, 3), (59, 3), (67, 4), (83, 4),
    (99, 5), (131, 7), (259, 8), (515, 9), (1027, 10), (2051, 11), (4099, 12), (8195, 13),
    (16387, 14), (32771, 15), (65539, 16)]

/-- Distances, and the places of distances to use again. -/
def distanceBases : Bases := ((List.range 32).map fun n => (1 <<< n, n)).toArray

def lengthTable : StateTable := .ofShares {
  log := 6
  each := [
    4, 3, 2, 2, 2, 2, 2, 2, 2, 2, 2, 2, 2, 1, 1, 1, 2, 2, 2, 2, 2, 2, 2, 2, 2, 3, 2, 1, 1, 1, 1, 1,
    -1, -1, -1, -1] }

def repeatTable : StateTable := .ofShares {
  log := 6
  each := [
    1, 4, 3, 2, 2, 2, 2, 2, 2, 1, 1, 1, 1, 1, 1, 1, 1, 1, 1, 1, 1, 1, 1, 1, 1, 1, 1, 1, 1, 1, 1, 1,
    1, 1, 1, 1, 1, 1, 1, 1, 1, 1, 1, 1, 1, 1, -1, -1, -1, -1, -1, -1, -1] }

def distanceTable : StateTable := .ofShares {
  log := 5
  each := [
    1, 1, 1, 1, 1, 1, 2, 2, 2, 1, 1, 1, 1, 1, 1, 1, 1, 1, 1, 1, 1, 1, 1, 1, -1, -1, -1, -1, -1] }

/--
Reads a machine in one of four ways: the usual one, one of the symbols, shares of them, or the last
one.
-/
def readTable? (mode maxLog : Nat) (bases : Bases) (usual : StateTable)
    (last : Option StateTable) (bytes : Bytes) : Option (StateTable × Bytes) :=
  match mode with
  | 0 => some (usual, bytes)
  | 1 => do
    let (symbol, rest) ← Bytes.split? 1 bytes
    let symbol := Bytes.littleEndian symbol
    if symbol < bases.size then return (.single symbol, rest) else none
  | 2 => do
    let (shares, rest) ← Shares.read? maxLog bases.size bytes
    return (.ofShares shares, rest)
  | _ => last.map fun table => (table, bytes)

/-- A sequence: copy literals, then repeat output from some distance back. -/
structure Sequence where
  literals : Nat
  length : Nat
  distance : Nat

def resolve? (value literals : Nat) (recent : Nat × Nat × Nat) :
    Option (Nat × (Nat × Nat × Nat)) :=
  let (a, b, c) := recent
  if 3 < value then some (value - 3, (value - 3, a, b))
  else
    match value + (if literals = 0 then 1 else 0) with
    | 1 => some (a, (a, b, c))
    | 2 => some (b, (b, a, c))
    | 3 => some (c, (c, a, b))
    | _ => if a ≤ 1 then none else some (a - 1, (a - 1, a, b))

structure Tables where
  lengths : StateTable
  distances : StateTable
  repeats : StateTable

def extended? (bases : Bases) (s : State) (r : BackwardReader) : Option (Nat × BackwardReader) := do
  let (base, width) ← bases[s.symbol]?
  let (extra, r) ← r.bits? width
  return (base + extra, r)

/-- Reads sequences from given states; the bits must be used up by the last one. -/
def readSequences? (t : Tables) : (count : Nat) → (lengths distances repeats : State) →
    (recent : Nat × Nat × Nat) → BackwardReader → Option (List Sequence × (Nat × Nat × Nat))
  | 0, _, _, _, recent, r => if r.isEmpty then some ([], recent) else none
  | count + 1, lengths, distances, repeats, recent, r => do
    let (value, r) ← extended? distanceBases distances r
    let (length, r) ← extended? repeatBases repeats r
    let (literals, r) ← extended? lengthBases lengths r
    let (distance, recent) ← resolve? value literals recent
    let sequence : Sequence := { literals, length, distance }
    if count = 0 then
      let (rest, recent) ← readSequences? t 0 lengths distances repeats recent r
      return (sequence :: rest, recent)
    let (lengths, r) ← t.lengths.next? lengths r
    let (repeats, r) ← t.repeats.next? repeats r
    let (distances, r) ← t.distances.next? distances r
    let (rest, recent) ← readSequences? t count lengths distances repeats recent r
    return (sequence :: rest, recent)

def readCount? (bytes : Bytes) : Option (Nat × Bytes) := do
  let (head, rest) ← Bytes.split? 1 bytes
  let n := Bytes.littleEndian head
  if n < 128 then return (n, rest)
  else if n < 255 then
    let (low, rest) ← Bytes.split? 1 rest
    return ((n - 128) * 256 + Bytes.littleEndian low, rest)
  else
    let (more, rest) ← Bytes.split? 2 rest
    return (Bytes.littleEndian more + 0x7F00, rest)

def readSection? (m : Memory) (bytes : Bytes) : Option (List Sequence × Memory) := do
  let (count, rest) ← readCount? bytes
  if count = 0 then
    if rest.isEmpty then return ([], m) else none
  let (modes, rest) ← Bytes.split? 1 rest
  let modes := Bytes.littleEndian modes
  if field modes 0 2 ≠ 0 then none
  let (lengths, rest) ← readTable? (field modes 6 2) 9 lengthBases lengthTable m.lengths rest
  let (distances, rest) ←
    readTable? (field modes 4 2) 8 distanceBases distanceTable m.distances rest
  let (repeats, rest) ← readTable? (field modes 2 2) 9 repeatBases repeatTable m.repeats rest
  let r ← BackwardReader.ofBytes? rest
  let (l, r) ← lengths.start? r
  let (d, r) ← distances.start? r
  let (e, r) ← repeats.start? r
  let (sequences, recent) ← readSequences? { lengths, distances, repeats } count l d e m.recent r
  return (sequences, { m with lengths, distances, repeats, recent })

end ScanArchive.Zstd
