import ScanArchive.Container.Zstd.ElderBlock
import ScanArchive.Container.Zstd.Head
import ScanArchive.Container.Zstd.Memory

/-!
# Frames of elder versions

Four versions before the present one are still read; of the first two only blocks that hold bytes
as they are.  Their heads differ; blocks have heads of one form and end with one that only marks the
end, in which the last of these versions has a checksum of 22 bits.
-/

namespace ScanArchive.Zstd

structure ElderHead where
  window : Nat
  /-- the bytes of a block that is put together from two pieces -/
  inputRoom : Nat
  /-- the most bytes that a block is provided with -/
  blockLimit : Nat
  outputRoom : Nat
  hasChecksum : Bool := false
  /-- how compressed blocks are read, if they are -/
  rules : Option Elder.Rules := none

namespace ElderHead

def maxWindow : Nat := 0x8000000

def margin : Nat := 16

def ofWindow (window : Nat) (hasChecksum : Bool) (rules : Elder.Rules) : ElderHead :=
  let block := min window maxBlock
  { window, inputRoom := block, blockLimit := block, outputRoom := window + block + margin,
    hasChecksum, rules }

def readFirst (bytes : Bytes) : Except Fault (Option (ElderHead × Bytes)) :=
  match bytes with
  | [] => .ok none
  | b :: rest =>
    let window := 1 <<< (b.toNat % 16 + 11)
    if 16 ≤ b.toNat then .error .unsupported
    else
      let head : ElderHead :=
        { window, inputRoom := maxBlock, blockLimit := maxBlock, outputRoom := window }
      .ok (some (head, rest))

def readThird (bytes : Bytes) : Except Fault (Option (ElderHead × Bytes)) :=
  match bytes with
  | [] => .ok none
  | b :: rest =>
    match Bytes.split? ([0, 1, 2, 8][b.toNat / 64]?.getD 0) rest with
    | none => .ok none
    | some (_, rest) =>
      if field b.toNat 5 1 = 1 then .error .unsupported
      else
        let rules : Elder.Rules := { passesOn := false, recent := (1, 1, 1) }
        .ok (some (ofWindow (1 <<< (b.toNat % 16 + 12)) false rules, rest))

def readLast (bytes : Bytes) : Except Fault (Option (ElderHead × Bytes)) := do
  match ← Head.readContent bytes with
  | none => return none
  | some (head, rest) =>
    let window := head.window % UInt32.size
    if maxWindow < window then throw .unsupported
    let rules : Elder.Rules := { passesOn := true, recent := (1, 4, 8) }
    return some (ofWindow (max window Head.minWindow) head.hasChecksum rules, rest)

/-- The magic numbers differ in the first byte. -/
def isMagic (start : Bytes) : Bool :=
  match start with
  | version :: rest => 0x24 ≤ version && version ≤ 0x27 && rest == magic.drop 1
  | [] => false

def read (bytes : Bytes) : Except Fault (Option (ElderHead × Bytes)) :=
  let rest := bytes.drop 4
  match bytes.head? with
  | some 0x27 => readLast rest
  | some 0x26 => readThird rest
  | _ => readFirst rest

end ElderHead

inductive ElderStage where
  | blockHead
  | block (kind : BlockKind) (size : Nat)
  | ended

structure ElderFrame where
  head : ElderHead
  stage : ElderStage := .blockHead
  ring : Ring
  memory : Memory
  hash : XxHash64.State := {}

namespace ElderFrame

def ofHead (head : ElderHead) : ElderFrame :=
  { head
    ring := { capacity := head.outputRoom }
    memory := { recent := head.rules.elim (1, 1, 1) (·.recent) } }

def needed (f : ElderFrame) : Nat :=
  match f.stage with
  | .blockHead => BlockHead.length
  | .block _ size => size
  | .ended => 0

def checksum (f : ElderFrame) : Nat := field f.hash.digest.toNat 11 22

/-- Reads the head of a block.  One without bytes ends the frame as the mark of the end does. -/
def readHead (f : ElderFrame) (bytes : Bytes) : Except Fault ElderFrame :=
  let n := Bytes.bigEndian bytes
  let size := field n 0 19
  match field n 22 2 with
  | 3 =>
    if f.head.hasChecksum ∧ field n 0 22 ≠ f.checksum then .error .checksum
    else .ok { f with stage := .ended }
  | 2 => .ok { f with stage := .block .repeated 1 }
  | kind =>
    if size = 0 then .ok { f with stage := .ended }
    else .ok { f with stage := .block (if kind = 1 then .raw else .compressed) size }

def put (kind : BlockKind) (block : Bytes) : ElderFrame → Except Fault (Bytes × ElderFrame)
  | ⟨head, _, ring, memory, hash⟩ =>
    match kind, head.rules with
    | .raw, _ => do
      let (bytes, ring) ← decodePlain ring block
      return (bytes, ⟨head, .blockHead, ring, memory, hash.add bytes⟩)
    | .compressed, some rules =>
      let place := ring.here
      match Elder.decode? rules memory ring block with
      | none => .error .corrupt
      | some (ring, memory) =>
        let bytes := Ring.bytesFrom ring.cells place (ring.here - place)
        .ok (bytes, ⟨head, .blockHead, ring, memory, hash.add bytes⟩)
    | _, _ => .error .corrupt

def turn : ElderFrame → ElderFrame
  | ⟨head, stage, ring, memory, hash⟩ => ⟨head, stage, ring.turn head.blockLimit, memory, hash⟩

def read (f : ElderFrame) (bytes : Bytes) : Except Fault (Bytes × ElderFrame) :=
  match f.stage with
  | .blockHead => (f.readHead bytes).map ([], ·)
  | .block kind _ => f.put kind bytes
  | .ended => .ok ([], f)

end ElderFrame
end ScanArchive.Zstd
