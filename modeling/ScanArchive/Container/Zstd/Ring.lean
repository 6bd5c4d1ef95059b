import ScanArchive.Container.Zstd.Literals
import ScanArchive.Container.Zstd.Sequences

/-!
# The memory of earlier output

Output goes into cells one after another, and from the first cell again when a block might not fit
behind it; the cells beyond still hold the end of the lap before.  Copies run over the end of what
they copy by some bytes, as far as there are cells, and later output covers them.  What a distance
beyond the window refers to may be such bytes.
-/

namespace ScanArchive.Zstd

structure Ring where
  capacity : Nat := 0
  /-- where the next byte goes -/
  here : Nat := 0
  /-- the length of the lap before -/
  earlier : Nat := 0
  /-- the cells that have been used so far; all others hold zero -/
  cells : ByteArray := .empty

namespace Ring

def room (r : Ring) : Nat := r.capacity - r.here

def cell (cells : ByteArray) (place : Nat) : UInt8 :=
  if h : place < cells.size then cells[place] else 0

/-- Puts a byte into a cell, at most the first one that has not been used. -/
def setCell (cells : ByteArray) (place : Nat) (byte : UInt8) : ByteArray :=
  if h : place < cells.size then cells.set place byte h else cells.push byte

def write (cells : ByteArray) (place : Nat) : Bytes → ByteArray
  | [] => cells
  | byte :: bytes => write (setCell cells place byte) (place + 1) bytes

def bytesFrom (cells : ByteArray) (place count : Nat) : Bytes :=
  (List.range' place count).map (cell cells)

/-- Repeats what stands some distance before a place, which may reach into what it adds. -/
def repeatBack (distance : Nat) : (count place : Nat) → ByteArray → ByteArray
  | 0, _, cells => cells
  | count + 1, place, cells =>
    repeatBack distance count (place + 1) (setCell cells place (cell cells (place - distance)))

def put (bytes : Bytes) : Ring → Ring
  | ⟨capacity, here, earlier, cells⟩ =>
    ⟨capacity, here + bytes.length, earlier, write cells here bytes⟩

/-- Goes back to the first cell if the next block might not fit. -/
def turn (r : Ring) (blockLimit : Nat) : Ring :=
  if r.capacity < r.here + blockLimit then { r with here := 0, earlier := r.here } else r

/-! ## Copies -/

/-- The number of bytes that a copy moves, 16 of them and then 32 at a time. -/
def wide (count : Nat) : Nat := if count ≤ 16 then 16 else 16 + (count - 16 + 31) / 32 * 32

def narrow (count : Nat) : Nat := max 8 ((count + 7) / 8 * 8)

/--
How many bytes a copy of literals moves.  `before` tells how far it is to the last cells, which
copies of a sequence that ends in or near them keep off.
-/
def literalSpan (isNear : Bool) (before : Int) (count : Nat) : Nat :=
  if isNear then
    if count < 8 ∨ before < 0 then count
    else if count ≤ before then wide count
    else max count (wide before.toNat)
  else if count ≤ 16 then 16
  else 16 + wide (count - 16)

def repeatSpan (isNear : Bool) (before : Int) (distance count : Nat) : Nat :=
  if isNear then
    if count < 8 ∨ before < 8 then count
    else max count (8 + (if distance < 16 then narrow else wide) (before - 8).toNat)
  else if 16 ≤ distance then wide count
  else narrow count

/-- Carries out a sequence, of which the block may fill the cells up to `stop`. -/
def execute? (stop : Nat) (s : Sequence) : Ring → Literals → Option (Ring × Literals)
  | ⟨capacity, here, earlier, cells⟩, literals =>
    let middle := here + s.literals
    let behind := middle + s.length
    if literals.count < s.literals ∨ stop < behind ∨ middle + earlier < s.distance then none
    else
      let isNear := stop < behind + slack
      let before (place : Nat) : Int := (stop : Int) - slack - place
      let span := literalSpan isNear (before here) s.literals
      let cells := write cells here (Bytes.padded span (literals.bytes.take span))
      -- What stands before the first cell is the end of the lap before.
      let count := min s.length (s.distance - middle)
      let cells := write cells middle (bytesFrom cells (earlier + middle - s.distance) count)
      let place := middle + count
      let left := s.length - count
      -- What is left starts at the first cell, or all of it stands in this lap.
      let cells :=
        if left = 0 then cells
        else repeatBack s.distance (repeatSpan isNear (before place) s.distance left) place cells
      let literals := { literals with
        bytes := literals.bytes.drop s.literals
        count := literals.count - s.literals }
      some (⟨capacity, behind, earlier, cells⟩, literals)

def executeAll? (stop : Nat) : List Sequence → Ring → Literals → Option Ring
  | [], r, literals =>
    if stop < r.here + literals.count then none
    else some (put (literals.bytes.take literals.count) r)
  | s :: rest, r, literals => do
    let (r, literals) ← execute? stop s r literals
    executeAll? stop rest r literals

end Ring
end ScanArchive.Zstd
