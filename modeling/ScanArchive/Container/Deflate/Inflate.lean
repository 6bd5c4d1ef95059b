import ScanArchive.Container.Deflate.Code

/-!
# Deflate

A deflated byte string is a sequence of blocks.  A block holds bytes as they are, or literals
and references to earlier output in two prefix codes, which are fixed or given in the block.
`store` writes blocks of the first kind only.
-/

namespace ScanArchive

/-! ## References to earlier output -/

/-- The byte that stands some distance back; in front of all output there are zeros. -/
def byteBack (distance : Nat) (out : Array UInt8) : UInt8 :=
  if distance ≤ out.size then out[out.size - distance]?.getD 0 else 0

/-- The output with bytes from `distance` back repeated, which may reach into what they add. -/
def copyBack (distance : Nat) : (length : Nat) → Array UInt8 → Array UInt8
  | 0, out => out
  | length + 1, out => copyBack distance length (out.push (byteBack distance out))

@[simp] theorem size_copyBack (distance length : Nat) (out : Array UInt8) :
    (copyBack distance length out).size = out.size + length := by
  induction length generalizing out with
  | zero => rfl
  | succ length ih => rw [copyBack, ih, Array.size_push]; omega

namespace Deflate

/-! ## Writing -/

def maxStored : Nat := 65535

def storedBlock (isLast : Bool) (bytes : Bytes) : Bytes :=
  (if isLast then 1 else 0) :: Bytes.toLittleEndian 2 bytes.length
    ++ Bytes.toLittleEndian 2 (maxStored - bytes.length) ++ bytes

def store (bytes : Bytes) : Bytes :=
  let rest := bytes.drop maxStored
  if rest.isEmpty then storedBlock true bytes
  else storedBlock false (bytes.take maxStored) ++ store rest
  termination_by bytes.length
  decreasing_by
    rename_i h
    simp only [rest, List.isEmpty_iff, List.drop_eq_nil_iff, Nat.not_le] at h
    have : 0 < maxStored := by decide
    simp only [List.length_drop]
    omega

/-! ## Reading -/

/-- The least length that a length symbol stands for, and the width of what is added to it. -/
def lengthBases : Array (Nat × Nat) := #[
  (3, 0), (4, 0), (5, 0), (6, 0), (7, 0), (8, 0), (9, 0), (10, 0), (11, 1), (13, 1), (15, 1),
  (17, 1), (19, 2), (23, 2), (27, 2), (31, 2), (35, 3), (43, 3), (51, 3), (59, 3), (67, 4),
  (83, 4), (99, 4), (115, 4), (131, 5), (163, 5), (195, 5), (227, 5), (258, 0)]

def distanceBases : Array (Nat × Nat) := #[
  (1, 0), (2, 0), (3, 0), (4, 0), (5, 1), (7, 1), (9, 2), (13, 2), (17, 3), (25, 3), (33, 4),
  (49, 4), (65, 5), (97, 5), (129, 6), (193, 6), (257, 7), (385, 7), (513, 8), (769, 8),
  (1025, 9), (1537, 9), (2049, 10), (3073, 10), (4097, 11), (6145, 11), (8193, 12), (12289, 12),
  (16385, 13), (24577, 13)]

def readExtended (bases : Array (Nat × Nat)) (symbol : Nat) (r : BitReader) :
    Except Stop (Nat × BitReader) :=
  match bases[symbol]? with
  | none => .error r.corrupt
  | some (base, width) => do
    let (extra, r) ← r.bits width
    return (base + extra, r)

structure Codes where
  literals : Code
  distances : Code

def Codes.fixed? : Option Codes := do
  let literals ← Code.ofLengths? (List.replicate 144 8 ++ List.replicate 112 9
    ++ List.replicate 24 7 ++ List.replicate 8 8)
  let distances ← Code.ofLengths? (List.replicate 32 5)
  return { literals, distances }

/--
Reads word lengths until there are `total`, the last one first.  Each step adds at least one, so
that as many steps as lengths are enough.
-/
def readLengths (code : Code) (total : Nat) :
    (steps : Nat) → List Nat → BitReader → Except Stop (List Nat × BitReader)
  | 0, _, r => .error r.corrupt
  | steps + 1, latest, r =>
    if latest.length = total then .ok (latest, r)
    else if total < latest.length then .error r.corrupt
    else do
      let (symbol, r) ← code.read r
      match symbol with
      | 16 =>
        match latest with
        | [] => throw r.corrupt
        | width :: _ =>
          let (n, r) ← r.bits 2
          readLengths code total steps (List.replicate (3 + n) width ++ latest) r
      | 17 =>
        let (n, r) ← r.bits 3
        readLengths code total steps (List.replicate (3 + n) 0 ++ latest) r
      | 18 =>
        let (n, r) ← r.bits 7
        readLengths code total steps (List.replicate (11 + n) 0 ++ latest) r
      | width => readLengths code total steps (width :: latest) r

/-- The order in which the word lengths of the code for word lengths are given. -/
def lengthOrder : List Nat := [16, 17, 18, 0, 8, 7, 9, 6, 10, 5, 11, 4, 12, 3, 13, 2, 14, 1, 15]

def readTriples : (count : Nat) → BitReader → Except Stop (List Nat × BitReader)
  | 0, r => .ok ([], r)
  | count + 1, r => do
    let (n, r) ← r.bits 3
    let (rest, r) ← readTriples count r
    return (n :: rest, r)

def codeOf (lengths : List Nat) (r : BitReader) : Except Stop Code :=
  match Code.ofLengths? lengths with
  | some code => .ok code
  | none => .error r.corrupt

/-- Reads the codes that a block gives; the code for the word lengths must be complete. -/
def readCodes (r : BitReader) : Except Stop (Codes × BitReader) := do
  let (literalCount, r) ← r.bits 5
  let (distanceCount, r) ← r.bits 5
  let (lengthCount, r) ← r.bits 4
  let literalCount := literalCount + 257
  let distanceCount := distanceCount + 1
  if 286 < literalCount ∨ 30 < distanceCount then throw r.corrupt
  let (triples, r) ← readTriples (lengthCount + 4) r
  let given := lengthOrder.zip triples
  let lengthCode ← codeOf ((List.range 19).map fun symbol => (given.lookup symbol).getD 0) r
  if !lengthCode.isComplete then throw r.corrupt
  let total := literalCount + distanceCount
  let (latest, r) ← readLengths lengthCode total (total + 1) [] r
  let lengths := latest.reverse
  let literals ← codeOf (lengths.take literalCount) r
  let distances ← codeOf (lengths.drop literalCount) r
  return ({ literals, distances }, r)

/--
Reads symbols up to the end of the block.  Each takes at least one bit, so that as many steps as
bits are enough.  What is put out before the reading stops counts in any case.
-/
def readSymbols (codes : Codes) :
    (steps : Nat) → BitReader → Array UInt8 → Array UInt8 × Except Stop BitReader
  | 0, _, out => (out, .error .truncated)
  | steps + 1, r, out =>
    match codes.literals.read r with
    | .error stop => (out, .error stop)
    | .ok (symbol, r) =>
      if symbol < 256 then readSymbols codes steps r (out.push (UInt8.ofNat symbol))
      else if symbol = 256 then (out, .ok r)
      else
        let reference : Except Stop (Nat × Nat × BitReader) := do
          let (length, r) ← readExtended lengthBases (symbol - 257) r
          let (symbol, r) ← codes.distances.read r
          let (distance, r) ← readExtended distanceBases symbol r
          return (length, distance, r)
        match reference with
        | .error stop => (out, .error stop)
        | .ok (length, distance, r) => readSymbols codes steps r (copyBack distance length out)

def readStored (r : BitReader) (out : Array UInt8) : Array UInt8 × Except Stop BitReader :=
  match Bytes.split? 4 r.align with
  | none => (out, .error .truncated)
  | some (lengths, rest) =>
    let length := Bytes.littleEndian (lengths.take 2)
    if length + Bytes.littleEndian (lengths.drop 2) ≠ maxStored then
      (out, .error (.corrupt rest.length))
    else
      let bytes := rest.take length
      let out := bytes.foldl Array.push out
      if bytes.length < length then (out, .error .truncated)
      else (out, .ok { rest := rest.drop length })

def readBlock (r : BitReader) (out : Array UInt8) : Array UInt8 × Except Stop BitReader :=
  match r.bits 2 with
  | .error stop => (out, .error stop)
  | .ok (0, r) => readStored r out
  | .ok (1, r) =>
    match Codes.fixed? with
    | some codes => readSymbols codes (r.size + 1) r out
    | none => (out, .error r.corrupt)
  | .ok (2, r) =>
    -- Codes that break the rules are found before any symbol is read.
    match readCodes r with
    | .ok (codes, r) => readSymbols codes (r.size + 1) r out
    | .error stop => (out, .error stop)
  | .ok (_, r) => (out, .error r.corrupt)

def readBlocks : (steps : Nat) → BitReader → Array UInt8 → Array UInt8 × Option Stop
  | 0, _, out => (out, some .truncated)
  | steps + 1, r, out =>
    match r.bit with
    | .error stop => (out, some stop)
    | .ok (isLast, r) =>
      match readBlock r out with
      | (out, .error stop) => (out, some stop)
      | (out, .ok r) => if isLast = 1 then (out, none) else readBlocks steps r out

/-- What reading a deflated form from its start puts out, and why it stops early if it does. -/
def readAll (bytes : Bytes) : Array UInt8 × Option Stop :=
  let r : BitReader := { rest := bytes }
  readBlocks (r.size + 1) r #[]

/-- The bytes that are read, and those that are put out, at a time. -/
def pieceSize : Nat := 32768

/--
How much of the output is handed on before a breach of the rules is come upon, given how many
bytes have been looked at then.  Output is handed on when there is more of it than a piece, and
when what comes of a piece of the input has been put out.
-/
def handedOn (bytes : Bytes) (seen : Nat) (out : Array UInt8) : Nat :=
  max ((out.size - 1) / pieceSize * pieceSize)
    (readAll (bytes.take ((seen - 1) / pieceSize * pieceSize))).1.size

/-- The bytes that a deflated form gives, and whether it is at fault behind them. -/
def inflate (bytes : Bytes) : Bytes × Bool :=
  match readAll bytes with
  | (out, none) => (out.toList, false)
  | (out, some .truncated) => (out.toList, true)
  | (out, some (.corrupt left)) =>
    (out.toList.take (handedOn bytes (bytes.length - left) out), true)

end Deflate
end ScanArchive
