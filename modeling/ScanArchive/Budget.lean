import ScanArchive.Error

/-!
# The budget of a chunk

A writer charges each message against what is left of the chunk it is filling and opens a new
chunk when that would leave nothing.  The charge is the length of the message and a fixed
estimate for the length that stands before it.  All amounts are signed 64-bit numbers that stay
at their bounds instead of running over.
-/

namespace ScanArchive

inductive Placement where
  | currentEntry
  | newEntry
  deriving DecidableEq, Repr

/-- What is left of the chunk that is being filled. -/
structure ChunkBudget where
  /-- what a new chunk starts with -/
  ceiling : Int
  /-- what is left of the open chunk; 0 when none is open -/
  remaining : Int
  deriving DecidableEq, Repr

namespace ChunkBudget

def maxAmount : Int := 0x7FFFFFFFFFFFFFFF

def saturate (n : Int) : Int := max (-0x8000000000000000) (min n maxAmount)

def ofSize (maxChunkSize : Nat) : ChunkBudget := ⟨saturate maxChunkSize, 0⟩

def cost (length : Nat) : Int := saturate (saturate length + Layout.messageOverhead)

/--
Charges a message.  One that does not leave anything of a new chunk either is refused, and
nothing is charged for it.
-/
def place (b : ChunkBudget) (length : Nat) : Except Error (Placement × ChunkBudget) :=
  let left := saturate (b.remaining - cost length)
  if 0 < left then .ok (.currentEntry, { b with remaining := left })
  else
    let fresh := saturate (b.ceiling - cost length)
    if 0 < fresh then .ok (.newEntry, { b with remaining := fresh })
    else .error (.messageTooLarge length b.ceiling.toNat)

end ChunkBudget
end ScanArchive
