import ScanArchive.Container.Zstd.Huffman

/-!
# What blocks leave behind, and what they read

Codes and distances that one block of a frame used may be used again by the next.  What is behind
the literals of a block is what earlier blocks left there.  The data come in pieces; what is needed
as a whole and goes beyond a piece is put together from the end of one and the start of the next.
-/

namespace ScanArchive.Zstd

/-! ## Memory -/

def maxBlock : Nat := 128 * 1024

/-- The bytes in front of which, or behind which, copies may run over. -/
def slack : Nat := 32

/-- What a block leaves for the next one. -/
structure Memory where
  literals : Option PrefixCode := none
  lengths : Option StateTable := none
  distances : Option StateTable := none
  repeats : Option StateTable := none
  /-- the last three distances, the latest first -/
  recent : Nat × Nat × Nat := (1, 4, 8)
  /-- the literals that have been kept, each as long as no other has taken its place -/
  kept : Bytes := []

namespace Memory

def forFrame (m : Memory) : Memory := { kept := m.kept }

def maxKept : Nat := 64 * 1024

/-- The memory with literals kept, the last ones if there are too many. -/
def keep (m : Memory) (literals : Bytes) : Memory :=
  let last := literals.drop (literals.length - maxKept)
  { m with kept := last ++ m.kept.drop last.length }

end Memory

def field (n start width : Nat) : Nat := (n >>> start) % 1 <<< width

/-! ## Input -/

/-- Data that are read piece by piece. -/
structure Input where
  /-- the bytes of the piece at hand that have not been taken -/
  ready : Bytes := []
  /-- bytes taken before for something that is not complete -/
  loaded : Bytes := []
  rest : Bytes

namespace Input

/-- The length of a piece: a block and its head. -/
def pieceSize : Nat := maxBlock + 3

def atHand (i : Input) : Bytes := i.loaded ++ i.ready

def take? (i : Input) (count : Nat) : Option (Bytes × Input) :=
  (Bytes.split? count i.atHand).map fun (front, ready) => (front, { i with ready, loaded := [] })

/-- Takes all that is at hand for something that is not complete. -/
def load (i : Input) : Input := { i with ready := [], loaded := i.atHand }

def refill? (i : Input) : Option Input :=
  if !i.ready.isEmpty then some i
  else if i.rest.isEmpty then none
  else some { i with ready := i.rest.take pieceSize, rest := i.rest.drop pieceSize }

end Input
end ScanArchive.Zstd
