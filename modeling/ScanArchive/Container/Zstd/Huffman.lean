import ScanArchive.Container.Zstd.StateTable

/-!
# Prefix codes by weights

A prefix code is given by a weight for each symbol: the word of a symbol of weight `w > 0` has
`w - 1` bits less than the longest words.  Longer words come first, and words of one length
stand for the symbols in ascending order.
-/

namespace ScanArchive.Zstd

/-- A prefix code: for each length of words, from 1 on, the first word and the symbols. -/
structure PrefixCode where
  levels : List (Nat × Array Nat)

namespace PrefixCode

def length (code : PrefixCode) : Nat := code.levels.length

def maxLength : Nat := 12

/-- How many of the longest words a symbol of the given weight makes up for. -/
def share (weight : Nat) : Nat := if weight = 0 then 0 else 1 <<< (weight - 1)

def shares (weights : List Nat) : Nat := weights.foldr (share · + ·) 0

/-- The weight of the last symbol, which is left out: it makes the code complete. -/
def lastWeight? (weights : List Nat) : Option Nat :=
  let sum := shares weights
  if sum = 0 then none
  else
    let missing := 1 <<< (sum.log2 + 1) - sum
    if missing = 1 <<< missing.log2 then some (missing.log2 + 1) else none

def ofWeights? (weights : List Nat) : Option PrefixCode := do
  let last ← lastWeight? weights
  let weights := weights ++ [last]
  let length := (shares weights).log2
  if maxLength < length ∨ weights.count 1 < 2 then none
  let indexed := weights.zipIdx
  return {
    levels := (List.range length).map fun i =>
      let weight := length - i
      let before := shares (weights.filter (· < weight))
      (before / share weight, ((indexed.filter (·.1 = weight)).map (·.2)).toArray) }

/-! ## Reading codes -/

def nibbles (bytes : Bytes) : List Nat :=
  bytes.flatMap fun b => [b.toNat / 16, b.toNat % 16]

def maxWeights : Nat := 255

/-- How many symbols the machine for weights may have: as many as there is room for. -/
def weightSymbols (log : Nat) : Nat := if log = 6 then 12 else 92

def codedWeights? (bytes : Bytes) : Option (List Nat) := do
  let (shares, bits) ← Shares.read? 6 256 bytes
  if weightSymbols shares.log < shares.each.length then none
  let table := StateTable.ofShares shares
  let r ← BackwardReader.ofBytes? bits
  let (first, r) ← table.start? r
  let (second, r) ← table.start? r
  table.alternate (maxWeights - 1) first second r

def read? (bytes : Bytes) : Option (PrefixCode × Bytes) := do
  let (head, rest) ← Bytes.split? 1 bytes
  let n := Bytes.littleEndian head
  if n < 128 then
    let (coded, rest) ← Bytes.split? n rest
    return (← ofWeights? (← codedWeights? coded), rest)
  else
    let count := n - 127
    let (packed, rest) ← Bytes.split? ((count + 1) / 2) rest
    return (← ofWeights? ((nibbles packed).take count), rest)

/-! ## Reading symbols -/

def readFrom? : List (Nat × Array Nat) → (word : Nat) → BackwardReader →
    Option (Nat × BackwardReader)
  | [], _, _ => none
  | (first, symbols) :: levels, word, r => do
    let (b, r) ← r.bit?
    let word := 2 * word + b
    if first ≤ word then return (← symbols[word - first]?, r)
    readFrom? levels word r

def readSymbols? (code : PrefixCode) :
    (count : Nat) → List UInt8 → BackwardReader → Option (List UInt8 × BackwardReader)
  | 0, latest, r => some (latest, r)
  | count + 1, latest, r => do
    let (symbol, r) ← readFrom? code.levels 0 r
    readSymbols? code count (UInt8.ofNat symbol :: latest) r

def decode? (code : PrefixCode) (count : Nat) (bytes : Bytes) : Option Bytes := do
  let r ← BackwardReader.ofBytes? bytes
  let (latest, r) ← code.readSymbols? count [] r
  if r.isEmpty then return latest.reverse else none

end PrefixCode
end ScanArchive.Zstd
