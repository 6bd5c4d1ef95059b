import ScanArchive.Container.Zstd.Block

/-!
# Compressed blocks of elder frames

They hold literals and sequences as those of the present version do.  The numbers in the head of the
literals have their high bits first, the ways to give a machine are in another order, and nothing
is said of bits that are left over.
-/

namespace ScanArchive.Zstd.Elder

/-- How the versions differ in what blocks pass on to the next one. -/
structure Rules where
  /-- whether machines and recent distances are passed on -/
  passesOn : Bool
  /-- the recent distances at first -/
  recent : Nat × Nat × Nat

def minCompressed : Nat := 3

def literalSlack : Nat := 8

def plainHead (format : Nat) : Nat × Nat :=
  match format with
  | 2 => (2, 12)
  | 3 => (3, 20)
  | _ => (1, 5)

def codedHead (format : Nat) : Nat × Nat :=
  match format with
  | 2 => (4, 14)
  | 3 => (5, 18)
  | _ => (3, 10)

def equalWeights : Array Nat := #[1, 2, 3, 4, 7, 8, 15, 16, 31, 32, 63, 64, 127, 128]

/-- Reads a code.  The highest first bytes, from 242 on, stand for codes whose weights are equal but
for the one that is left out. -/
def readCode? (bytes : Bytes) : Option (PrefixCode × Bytes) := do
  let (first, rest) ← Bytes.split? 1 bytes
  let n := Bytes.littleEndian first
  if n < 242 then PrefixCode.read? bytes
  else return (← PrefixCode.ofWeights? (List.replicate (← equalWeights[n - 242]?) 1), rest)

def readCoded? (format : Nat) (block : Bytes) : Option (Bytes × Bytes) := do
  let (headLength, width) := codedHead format
  let _ ← Bytes.split? Literals.minCoded block
  let (head, rest) ← Bytes.split? headLength block
  let n := Bytes.bigEndian head
  let count := field n width width
  if maxBlock < count then none
  let (coded, rest) ← Bytes.split? (field n 0 width) rest
  let (code, coded) ← readCode? coded
  let bytes ← if format = 1 then code.decode? count coded
    else do (← Streams.ofBytes? count coded).readExactly? code
  return (bytes, rest)

def readLiterals? (block : Bytes) : Option (Bytes × Bytes) := do
  let _ ← Bytes.split? minCompressed block
  let first := Bytes.littleEndian (block.take 1)
  let format := field first 4 2
  match field first 6 2 with
  | 0 => readCoded? format block
  | 1 => none
  | kind =>
    let (headLength, width) := plainHead format
    let (head, rest) ← Bytes.split? headLength block
    let count := field (Bytes.bigEndian head) 0 width
    if kind = 2 then Bytes.split? count rest
    else if maxBlock < count then none
    else
      let (byte, rest) ← Bytes.split? 1 rest
      return ((List.replicate count byte).flatten, rest)

def distanceBases : Bases := Zstd.distanceBases.take 29

/-- Reads a machine in one of four ways, of which the last two have changed places. -/
def readTable? (mode maxLog : Nat) (bases : Bases) (usual : StateTable)
    (last : Option StateTable) (bytes : Bytes) : Option (StateTable × Bytes) :=
  Zstd.readTable? ([0, 1, 3, 2][mode]?.getD 0) maxLog bases usual last bytes

def resolve (value literals : Nat) (recent : Nat × Nat × Nat) : Nat × (Nat × Nat × Nat) :=
  let (a, b, c) := recent
  let value := if literals = 0 ∧ value ≤ 1 then 1 - value else value
  match value with
  | 0 => (a, (a, b, c))
  | 1 => (b, (b, a, c))
  | 2 => (c, (c, a, b))
  | value => (value - 2, (value - 2, a, b))

def readSequences? (t : Tables) : (count : Nat) → (lengths distances repeats : State) →
    (recent : Nat × Nat × Nat) → BackwardReader → Option (List Sequence × (Nat × Nat × Nat))
  | 0, _, _, _, recent, _ => some ([], recent)
  | count + 1, lengths, distances, repeats, recent, r => do
    let (value, r) ← extended? distanceBases distances r
    let (length, r) ← extended? repeatBases repeats r
    let (literals, r) ← extended? lengthBases lengths r
    let (distance, recent) := resolve (value - 1) literals recent
    let sequence : Sequence := { literals, length, distance }
    if count = 0 then return ([sequence], recent)
    let (lengths, r) ← t.lengths.next? lengths r
    let (repeats, r) ← t.repeats.next? repeats r
    let (distances, r) ← t.distances.next? distances r
    let (rest, recent) ← readSequences? t count lengths distances repeats recent r
    return (sequence :: rest, recent)

def readSection? (m : Memory) (bytes : Bytes) : Option (List Sequence × Memory) := do
  let (first, _) ← Bytes.split? 1 bytes
  if Bytes.littleEndian first = 0 then return ([], m)
  -- A number of more than one byte may be zero as well: then there are machines and no bits.
  let (count, rest) ← readCount? bytes
  let _ ← Bytes.split? 4 rest
  let (modes, rest) ← Bytes.split? 1 rest
  let modes := Bytes.littleEndian modes
  let (lengths, rest) ← readTable? (field modes 6 2) 9 lengthBases lengthTable m.lengths rest
  let (distances, rest) ←
    readTable? (field modes 4 2) 8 distanceBases distanceTable m.distances rest
  let (repeats, rest) ← readTable? (field modes 2 2) 9 repeatBases repeatTable m.repeats rest
  if count = 0 then return ([], m)
  let r ← BackwardReader.ofBytes? rest
  let (l, r) ← lengths.start? r
  let (d, r) ← distances.start? r
  let (e, r) ← repeats.start? r
  let (sequences, recent) ← readSequences? { lengths, distances, repeats } count l d e m.recent r
  return (sequences, { m with lengths, distances, repeats, recent })

def executeAll? : List Sequence → Ring → Literals → Option Ring
  | [], r, literals => Ring.executeAll? r.capacity [] r literals
  | s :: rest, r, literals => do
    if r.room < s.literals + literalSlack then none
    let (r, literals) ← Ring.execute? r.capacity s r literals
    executeAll? rest r literals

def decode? (rules : Rules) (m : Memory) (r : Ring) (block : Bytes) : Option (Ring × Memory) := do
  if maxBlock ≤ block.length then none
  let (bytes, rest) ← readLiterals? block
  let m := if rules.passesOn then m else { recent := rules.recent }
  let (sequences, m) ← readSection? m rest
  return (← executeAll? sequences r { bytes, count := bytes.length, room := r.room }, m)

end ScanArchive.Zstd.Elder
