import ScanArchive.Error

/-!
# Entries, sources and sinks

A container is a list of named entries.  An attempt to read one may fail without spoiling the
next, so a source is the list of the outcomes of the attempts.  In a sink entries are opened one
after another, bytes are added to the last one, and in the end the container is finished; any of
these calls may fail.
-/

namespace ScanArchive

/-! ## Sources -/

structure Entry where
  name : String
  data : Bytes
  deriving DecidableEq, Inhabited

/-- What successive attempts to read an entry give; at the end there is no further entry. -/
abbrev Source := List (Except Error Entry)

namespace Source

def next : Source → Except Error (Option Entry) × Source
  | [] => (.ok none, [])
  | .ok entry :: rest => (.ok (some entry), rest)
  | .error e :: rest => (.error e, rest)

def ofEntries (entries : List Entry) : Source := entries.map .ok

end Source

/-! ## Sinks -/

/-- A call on a state of type `σ`.  What it did before it failed stays done. -/
abbrev Call (σ α : Type) := ExceptT Error (StateM σ) α

/-- What entries are written to; `ω` is what a finished container is. -/
class Sink (σ : Type) (ω : outParam Type) where
  /-- Closes the open entry, if there is one, and opens a new one. -/
  startEntry : String → Call σ Unit
  writeBytes : Bytes → Call σ Unit
  /-- Closes the open entry and completes the container. -/
  finish : σ → Except Error ω

/-- An entry that is being written: its name and the pieces of its contents, the last first. -/
structure OpenEntry where
  name : String
  pieces : List Bytes := []

namespace OpenEntry

def add (e : OpenEntry) (bytes : Bytes) : OpenEntry := { e with pieces := bytes :: e.pieces }

def toEntry (e : OpenEntry) : Entry := ⟨e.name, e.pieces.reverse.flatten⟩

@[simp] theorem toEntry_add (e : OpenEntry) (bytes : Bytes) :
    (e.add bytes).toEntry = ⟨e.name, e.toEntry.data ++ bytes⟩ := by
  simp [add, toEntry]

end OpenEntry

/--
A sink that keeps its entries in memory.  Calls are numbered from 0; those whose number is in
`failing` do nothing and fail.
-/
structure MemorySink where
  written : List OpenEntry := []
  calls : Nat := 0
  failing : Nat → Bool := fun _ => false

namespace MemorySink

def entries (s : MemorySink) : List Entry := (s.written.map (·.toEntry)).reverse

def attempt (call : Call MemorySink Unit) : Call MemorySink Unit := do
  let s ← get
  set { s with calls := s.calls + 1 }
  if s.failing s.calls then
    throw (.archive (.other ("sink call " ++ toString s.calls ++ " failed")))
  call

def startEntry (name : String) : Call MemorySink Unit :=
  attempt (modify fun s => { s with written := { name } :: s.written })

def writeBytes (bytes : Bytes) : Call MemorySink Unit := attempt do
  let s ← get
  match s.written with
  | last :: earlier => set { s with written := last.add bytes :: earlier }
  | [] => throw (.archive (.other "no entry"))

def finish (s : MemorySink) : Except Error (List Entry) :=
  ((attempt (pure ())).run s).1.map fun _ => s.entries

instance : Sink MemorySink (List Entry) := ⟨startEntry, writeBytes, finish⟩

end MemorySink
end ScanArchive
