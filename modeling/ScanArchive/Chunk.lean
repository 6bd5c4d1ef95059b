import ScanArchive.Node.Basic

/-!
# Chunks

A chunk is a finite set of nodes.  It keeps each node once; the order in which it keeps them
means nothing, and two chunks are equal (`==`) when they have the same members.
-/

namespace ScanArchive

/-- A set of nodes. -/
structure Chunk where
  toList : List Node
  nodup : toList.Nodup

namespace Chunk

instance : Membership Node Chunk := ⟨fun c n => n ∈ c.toList⟩

instance (n : Node) (c : Chunk) : Decidable (n ∈ c) := inferInstanceAs (Decidable (n ∈ c.toList))

def empty : Chunk := ⟨[], .nil⟩

instance : EmptyCollection Chunk := ⟨empty⟩

instance : Inhabited Chunk := ⟨empty⟩

def insert (c : Chunk) (n : Node) : Chunk :=
  if h : n ∈ c then c else ⟨n :: c.toList, List.nodup_cons.2 ⟨h, c.nodup⟩⟩

@[simp] theorem mem_insert {c : Chunk} {n m : Node} : m ∈ c.insert n ↔ m = n ∨ m ∈ c := by
  unfold insert
  split
  · exact ⟨.inr, fun h => h.elim (fun h => h ▸ by assumption) id⟩
  · exact List.mem_cons

/-- Adds a node; also tells whether it is a new one. -/
def add (c : Chunk) (n : Node) : Chunk × Bool := (c.insert n, n ∉ c)

def addAll (c : Chunk) : List Node → Chunk × List Bool
  | [] => (c, [])
  | n :: nodes =>
    let (c, isNew) := c.add n
    let (c, news) := c.addAll nodes
    (c, isNew :: news)

def ofList (nodes : List Node) : Chunk := nodes.foldl insert empty

def union (a b : Chunk) : Chunk := b.toList.foldl insert a

def merge (chunks : List Chunk) : Chunk := chunks.foldl union empty

def size (c : Chunk) : Nat := c.toList.length

def isEmpty (c : Chunk) : Bool := c.toList.isEmpty

def count (c : Chunk) (kind : NodeKind) : Nat := c.toList.countP (·.kind = kind)

/-- The number of nodes of each kind that there are nodes of. -/
def counts (c : Chunk) : List (NodeKind × Nat) :=
  (NodeKind.all.map fun kind => (kind, c.count kind)).filter (·.2 ≠ 0)

instance : BEq Chunk := ⟨fun a b => a.size == b.size && a.toList.all (· ∈ b)⟩

end Chunk
end ScanArchive
