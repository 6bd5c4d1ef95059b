import ScanArchive.Container.Feed
import ScanArchive.Container.Zstd.Elder
import ScanArchive.Container.Zstd.Whole

/-!
# Reading frames

A sequence of frames is read as far as its contents are wanted.  What is decoded beyond that is
handed out first the next time; as long as nothing of it is left, reading goes on to whatever is
at hand, so that a fault behind the bytes that are wanted may come to light with them.
-/

namespace ScanArchive.Zstd

inductive Stage where
  | blockHead
  | block (b : BlockHead) (left : Nat)
  | checksum
  | skipped (left : Nat)
  | ended

structure OpenFrame where
  head : Head
  stage : Stage := .blockHead
  size : Nat := 0
  hash : XxHash64.State := {}

namespace OpenFrame

def ofHead (head : Head) : OpenFrame :=
  { head, stage := if head.isSkipped then .skipped (head.size.getD 0) else .blockHead }

def finish (f : OpenFrame) : OpenFrame :=
  { f with stage := if f.head.hasChecksum then .checksum else .ended }

/--
The frame behind the head of a block.  If no bytes follow it, the block is over, and at the end
of the frame its length is not looked at.
-/
def enter (f : OpenFrame) (b : BlockHead) : Except Fault OpenFrame :=
  if f.head.blockLimit < b.stored then .error .corrupt
  else if 0 < b.stored then .ok { f with stage := .block b b.stored }
  else if b.isLast then .ok f.finish
  else .ok { f with stage := .blockHead }

def add (f : OpenFrame) (bytes : Bytes) : OpenFrame :=
  { f with
    size := f.size + bytes.length
    hash := if f.head.hasChecksum then f.hash.add bytes else f.hash }

/-- The frame after a part of a block, of which `left` bytes are still to come. -/
def leave (f : OpenFrame) (b : BlockHead) (left : Nat) : Except Fault OpenFrame :=
  if 0 < left then .ok { f with stage := .block b left }
  else if !b.isLast then .ok { f with stage := .blockHead }
  else if f.head.size.any (· ≠ f.size) then .error .corrupt
  else .ok f.finish

def check (f : OpenFrame) (checksum : Bytes) : Except Fault OpenFrame :=
  if checksum = checksumOf f.hash then .ok { f with stage := .ended } else .error .checksum

end OpenFrame

/-- What has been set up for the blocks of frames. -/
structure Store where
  inputRoom : Nat := 0
  ring : Ring := {}
  /-- the number of frames in a row that would do with much less -/
  generous : Nat := 0
  memory : Memory := {}

namespace Store

/-- How many frames may do with much less before it is set up again. -/
def maxGenerous : Nat := 128

/-- The store for a frame: set up again if it is too small, or has been too large for long. -/
def forFrame (s : Store) (head : Head) : Store :=
  let ⟨inputRoom, ⟨capacity, _, _, cells⟩, generous, memory⟩ := s
  let isGenerous := 3 * (head.inputRoom + head.outputRoom) ≤ inputRoom + capacity
  let generous := if isGenerous then generous + 1 else 0
  let memory := memory.forFrame
  if inputRoom < head.inputRoom ∨ capacity < head.outputRoom ∨ maxGenerous ≤ generous then
    { inputRoom := head.inputRoom, ring := { capacity := head.outputRoom }, generous, memory }
  else { inputRoom, ring := { capacity, cells }, generous, memory }

def decode (s : Store) (head : Head) (b : BlockHead) (stored : Bytes) :
    Except Fault (Bytes × Store) :=
  let ⟨inputRoom, ring, generous, memory⟩ := s
  match decodeBlock head.blockLimit true b stored memory ring with
  | .error e => .error e
  | .ok (bytes, ring, memory) => .ok (bytes, ⟨inputRoom, ring, generous, memory⟩)

/-- Goes back to the first cell if the contents need more cells and the next block might not fit. -/
def turn (s : Store) (head : Head) : Store :=
  let ⟨inputRoom, ring, generous, memory⟩ := s
  if head.size.all (ring.capacity < ·) then
    ⟨inputRoom, ring.turn head.blockLimit, generous, memory⟩
  else ⟨inputRoom, ring, generous, memory⟩

end Store

inductive Place where
  | between
  | elder
  | inside (f : OpenFrame)
  | insideElder (f : ElderFrame)

/-- A sequence of frames that is being read. -/
structure Reader where
  length : Nat
  input : Input
  store : Store := {}
  place : Place := .between
  /-- decoded bytes that have not been handed out -/
  pending : Bytes := []
  /-- whether a frame has ended behind which nothing has been read -/
  isFinished : Bool := false

namespace Reader

def ofBytes (bytes : Bytes) : Reader := { length := bytes.length, input := { rest := bytes } }

/-- Whether reading goes on to whatever is at hand. -/
abbrev GoesOn := Bool

/-- What a step puts out, whether the next one follows at once, and the reader after it. -/
abbrev Step := Bytes × GoesOn × Reader

def starve (r : Reader) : Step := ([], false, { r with input := r.input.load })

def stop (r : Reader) (bytes : Bytes) : Step :=
  (bytes, false, { r with place := .between, isFinished := true })

def stepElder (r : Reader) : Except Fault Step :=
  match ElderHead.read r.input.atHand with
  | .error e => .error e
  | .ok none => .ok (starve { r with place := .elder })
  | .ok (some (head, ready)) =>
    .ok ([], true,
      { r with place := .insideElder (.ofHead head), input := { r.input with ready, loaded := [] } })

def start (r : Reader) (head : Head) (ready : Bytes) : Except Fault Step :=
  if Head.maxWindow < head.window then .error .windowTooLarge
  else
    let ⟨length, input, store, _, pending, isFinished⟩ := r
    .ok ([], true, {
      length
      input := { input with ready, loaded := [] }
      store := store.forFrame head
      place := .inside (.ofHead head)
      pending
      isFinished })

/-- The frame at the start of the input, if its contents fit into `room` and all of it is there. -/
def whole? (room : Nat) (i : Input) (head : Head) (ready : Bytes) : Option (WholeFrame × Bytes) :=
  if head.isSkipped ∨ !i.loaded.isEmpty ∨ head.size.all (room < ·) then none
  else WholeFrame.read? head ready

def stepBetween (room : Nat) (r : Reader) : Except Fault Step :=
  match Head.read r.input.atHand with
  | .error e =>
    -- An elder frame is found only if its head starts in the piece at hand.
    if r.input.loaded.isEmpty ∧ (r.input.ready.take 5).length = 5
        ∧ ElderHead.isMagic (r.input.ready.take 4) then r.stepElder
    else .error e
  | .ok none => .ok r.starve
  | .ok (some (head, ready)) =>
    match whole? room r.input head ready with
    | none => r.start head ready
    | some (f, ready) =>
      match f.decode room r.store.memory with
      | .error e => .error e
      | .ok (bytes, memory) =>
        .ok (stop { r with
          input := { r.input with ready }
          store := { r.store with memory } } bytes)

def stepInside (f : OpenFrame) (r : Reader) : Except Fault Step :=
  let ⟨length, input, store, _, pending, isFinished⟩ := r
  let goOn (f : OpenFrame) (input : Input) (store : Store) (bytes : Bytes) : Step :=
    (bytes, true, ⟨length, input, store, .inside f, pending, isFinished⟩)
  let wait (store : Store) : Step :=
    starve ⟨length, input, store, .inside f, pending, isFinished⟩
  match f.stage with
  | .ended => .ok (stop ⟨length, input, store, .inside f, pending, isFinished⟩ [])
  | .blockHead =>
    match input.take? BlockHead.length with
    | none => .ok (wait store)
    | some (bytes, input) =>
      match BlockHead.ofBytes? bytes with
      | none => .error .corrupt
      | some b => (f.enter b).map (goOn · input store [])
  | .checksum =>
    match input.take? checksumLength with
    | none => .ok (wait store)
    | some (bytes, input) => (f.check bytes).map (goOn · input store [])
  | .skipped left =>
    let passed := input.ready.take left
    let left := left - passed.length
    let input := { input with ready := input.ready.drop passed.length }
    if left = 0 then .ok (goOn { f with stage := .ended } input store [])
    else .ok ([], false,
      ⟨length, input, store, .inside { f with stage := .skipped left }, pending, isFinished⟩)
  | .block b left =>
    let found? : Option (Bytes × Input) :=
      if b.kind = .raw then
        let piece := input.ready.take left
        if piece.isEmpty then none
        else some (piece, { input with ready := input.ready.drop left })
      else input.take? left
    match found? with
    | none => .ok (wait store)
    | some (stored, input) =>
      match store.decode f.head b stored with
      | .error e => .error e
      | .ok (bytes, store) =>
        -- A block may find room for more than it is allowed to give.
        if f.head.blockLimit < bytes.length then .error .corrupt
        else ((f.add bytes).leave b (left - stored.length)).map (goOn · input store bytes)

def stepInsideElder (f : ElderFrame) (r : Reader) : Except Fault Step :=
  match f.stage with
  | .ended => .ok (r.stop [])
  | _ =>
    match r.input.take? f.needed with
    | some (bytes, input) =>
      (f.read bytes).map fun (bytes, f) => (bytes, true, { r with input, place := .insideElder f })
    | none =>
      if f.head.inputRoom < f.needed ∧ !r.input.atHand.isEmpty then .error .corrupt
      else .ok r.starve

def step (room : Nat) (r : Reader) : Except Fault Step :=
  match r.place with
  | .between => r.stepBetween room
  | .elder => r.stepElder
  | .inside f => r.stepInside f
  | .insideElder f => r.stepInsideElder f

def settle (r : Reader) : Reader :=
  let ⟨length, input, store, place, _, isFinished⟩ := r
  match place with
  | .inside f => ⟨length, input, store.turn f.head, .inside f, [], isFinished⟩
  | .insideElder f => ⟨length, input, store, .insideElder f.turn, [], isFinished⟩
  | place => ⟨length, input, store, place, [], isFinished⟩

/--
Reads on as long as steps follow at once and all that they put out finds room; gives what has
been put out, the last of it first.
-/
def run : (steps room : Nat) → List Bytes → Reader → Except Fault (List Bytes × Reader)
  | 0, _, _, _ => .error .truncated
  | steps + 1, room, latest, r =>
    match r.step room with
    | .error e => .error e
    | .ok (bytes, goesOn, r) =>
      let front := bytes.take room
      let back := bytes.drop room
      let latest := front :: latest
      if !back.isEmpty then .ok (latest, { r with pending := back })
      else
        let r := if bytes.isEmpty then r else r.settle
        if goesOn then run steps (room - front.length) latest r else .ok (latest, r)

/-- The most steps that can follow each other in a piece, each of which takes a byte. -/
def maxSteps : Nat := Input.pieceSize + 3

def leave (r : Reader) : Reader :=
  match r.place with
  | .inside { stage := .ended, .. } => { r with place := .between, isFinished := true }
  | _ => r

/-- Reads pieces until something has been put out.  Each piece or each frame takes bytes. -/
def fetch (room : Nat) : (steps : Nat) → Reader → Except Fault (Bytes × Reader)
  | 0, _ => .error .truncated
  | steps + 1, r =>
    let r := r.leave
    match r.input.refill? with
    | none => if r.isFinished then .ok ([], r) else .error .truncated
    | some input =>
      match run maxSteps room [] { r with input, isFinished := false } with
      | .error e => .error e
      | .ok (latest, r) =>
        let bytes := latest.reverse.flatten
        -- No bytes mean that more input is needed, or that a frame gives none.
        if bytes.isEmpty then fetch room steps r else .ok (bytes, r)

def draw (room : Nat) (r : Reader) : Except Fault (Bytes × Reader) :=
  if r.pending.isEmpty then fetch room (r.length + 2) r
  else
    let front := r.pending.take room
    let back := r.pending.drop room
    .ok (front, if back.isEmpty then r.settle else { r with pending := back })

instance : Feed Reader := ⟨fun room r =>
  match r.draw room with
  | .ok found => .ok found
  | .error fault => .error fault.message⟩

end Reader

/-- All that a sequence of frames gives, or why it cannot be had. -/
def read (bytes : Bytes) : Except String Bytes :=
  match (Feed.collect 0 UInt64.size : Drawing Reader Bytes) (.ofBytes bytes) with
  | .ok (contents, _) => .ok contents
  | .error reason => .error reason

end ScanArchive.Zstd
