import ScanArchive.Container.XxHash64
import ScanArchive.Container.Zstd.Block

/-!
# Heads of frames

A frame starts with a magic number.  Behind it stand how far back its blocks may refer, how long
the contents are, and whether they have a checksum.  A frame with another magic number is passed
over; its head only says how long it is.  Frames that are written compress nothing.
-/

namespace ScanArchive.Zstd

/-! ## Reading heads -/

def magic : Bytes := [0x28, 0xB5, 0x2F, 0xFD]

/-- The first of the magic numbers of frames that are passed over, which are 16 in a row. -/
def skippedMagic : Bytes := [0x50, 0x2A, 0x4D, 0x18]

def startsSkipped (start : Bytes) : Bool :=
  Bytes.littleEndian start / 16 = Bytes.littleEndian skippedMagic / 16

structure Head where
  window : Nat
  size : Option Nat
  hasChecksum : Bool
  isSkipped : Bool

namespace Head

def maxWindow : Nat := 0x8000001

def minWindow : Nat := 1024

def blockLimit (h : Head) : Nat := min h.window maxBlock

def inputRoom (h : Head) : Nat := max h.blockLimit 4

/-- The cells for the output: the window, two blocks and what copies run over, or the contents. -/
def outputRoom (h : Head) : Nat :=
  let cells := max h.window minWindow + 2 * h.blockLimit + 2 * slack
  h.size.elim cells (min cells)

/-- Reads what is behind the magic number; nothing if it is not there yet. -/
def readContent (bytes : Bytes) : Except Fault (Option (Head × Bytes)) :=
  let fields? : Option (Nat × Bytes × Bytes × Bytes × Bytes) := do
    let (descriptor, rest) ← Bytes.split? 1 bytes
    let flags := Bytes.littleEndian descriptor
    let isSingle := field flags 5 1 = 1
    let (window, rest) ← Bytes.split? (if isSingle then 0 else 1) rest
    let (dictionary, rest) ← Bytes.split? ([0, 1, 2, 4][field flags 0 2]?.getD 0) rest
    let sizeLength := if field flags 6 2 = 0 ∧ isSingle then 1
      else [0, 2, 4, 8][field flags 6 2]?.getD 0
    let (size, rest) ← Bytes.split? sizeLength rest
    return (flags, window, dictionary, size, rest)
  match fields? with
  | none => .ok none
  | some (flags, window, dictionary, sizeBytes, rest) => do
    let size := Bytes.littleEndian sizeBytes + (if sizeBytes.length = 2 then 256 else 0)
    let w := Bytes.littleEndian window
    let log := 10 + w / 8
    if field flags 3 1 = 1 then throw .unsupported
    if 31 < log then throw .windowTooLarge
    if Bytes.littleEndian dictionary ≠ 0 then throw .dictionary
    let head : Head := {
      window := if window.isEmpty then size else 1 <<< log + (1 <<< log) / 8 * (w % 8)
      size := if sizeBytes.isEmpty then none else some size
      hasChecksum := field flags 2 1 = 1
      isSkipped := false }
    return some (head, rest)

def readSkipped? (bytes : Bytes) : Option (Head × Bytes) := do
  let (length, rest) ← Bytes.split? 4 bytes
  let head : Head := {
    window := 0
    size := some (Bytes.littleEndian length)
    hasChecksum := false
    isSkipped := true }
  return (head, rest)

def read (bytes : Bytes) : Except Fault (Option (Head × Bytes)) :=
  let start := bytes.take 4
  if start.isPrefixOf magic then readContent (bytes.drop 4)
  else if startsSkipped (start ++ skippedMagic.drop start.length) then
    .ok (readSkipped? (bytes.drop 4))
  else .error .unknownFrame

end Head

def checksumLength : Nat := 4

/-- The checksum of contents with a hash: the low half of it. -/
def checksumOf (s : XxHash64.State) : Bytes := Bytes.toLittleEndian checksumLength s.digest.toNat

/-! ## Writing frames -/

/-- The head of a frame of blocks of any number: no more is said than how large they may be. -/
def head : Bytes := magic ++ [0x00, 0x38]

def rawBlock (isLast : Bool) (bytes : Bytes) : Bytes :=
  Bytes.toLittleEndian BlockHead.length (bytes.length * 8 + isLast.toNat) ++ bytes

def rawBlocks (bytes : Bytes) : Bytes :=
  let rest := bytes.drop maxBlock
  if rest.isEmpty then rawBlock true bytes
  else rawBlock false (bytes.take maxBlock) ++ rawBlocks rest
  termination_by bytes.length
  decreasing_by
    rename_i h
    simp only [rest, List.isEmpty_iff, List.drop_eq_nil_iff, Nat.not_le] at h
    have : 0 < maxBlock := by decide
    simp only [List.length_drop]
    omega

def frame (bytes : Bytes) : Bytes := head ++ rawBlocks bytes

end ScanArchive.Zstd
