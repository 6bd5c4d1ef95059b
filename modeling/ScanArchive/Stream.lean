import ScanArchive.Error

/-!
# Byte streams

A stream gives its bytes in portions: a read may give less than was asked for, be interrupted,
or fail.  `fill` hides the portions and the interruptions; its law `fill_eq` says that what it
gives is what stood next in the stream.
-/

namespace ScanArchive

/-- What a failed read says of itself; readings tell no more kinds apart. -/
inductive StreamFault.Kind where
  /-- the data ended before what was asked for was read -/
  | unexpectedEnd
  | other
  deriving DecidableEq, Repr

structure StreamFault where
  kind : StreamFault.Kind := .other
  reason : String
  deriving DecidableEq, Repr

/-- A stream of bytes, with the schedule by which it gives them. -/
structure ByteStream where
  rest : Bytes
  position : Nat := 0
  /-- the most that one read gives, if there is a limit -/
  portion : Option { n : Nat // 0 < n } := none
  /-- how often the read after the given number of completed reads is interrupted first -/
  interruptions : Nat → Nat := fun _ => 0
  completed : Nat := 0
  /-- how often the next read will still be interrupted -/
  pending : Nat := interruptions completed
  /-- the position from which on reads fail, and why they do -/
  fault : Option (Nat × StreamFault) := none

inductive ReadOutcome where
  | given (bytes : Bytes)
  | interrupted
  | failed (fault : StreamFault)

namespace ByteStream

def ofBytes (bytes : Bytes) : ByteStream := { rest := bytes }

def allowance (s : ByteStream) (want : Nat) : Nat :=
  let want := match s.portion with
    | some n => min want n
    | none => want
  match s.fault with
  | some (position, _) => min want (position - s.position)
  | none => want

def faultHere? (s : ByteStream) : Option StreamFault :=
  match s.fault with
  | some (position, fault) => if position ≤ s.position then some fault else none
  | none => none

def read (s : ByteStream) (want : Nat) : ReadOutcome × ByteStream :=
  match s.pending with
  | pending + 1 => (.interrupted, { s with pending })
  | 0 =>
    match s.faultHere? with
    | some fault => (.failed fault, s)
    | none =>
      let bytes := s.rest.take (s.allowance want)
      (.given bytes, { s with
        rest := s.rest.drop (s.allowance want)
        position := s.position + bytes.length
        completed := s.completed + 1
        pending := s.interruptions (s.completed + 1) })

theorem pending_of_read_interrupted {s s' : ByteStream} {want : Nat}
    (h : s.read want = (.interrupted, s')) : s'.pending < s.pending ∧ s'.rest = s.rest := by
  unfold read at h
  split at h
  · simp only [Prod.mk.injEq, true_and] at h
    subst h
    rename_i hp
    simp only [hp, and_true]
    omega
  · split at h <;> simp at h

theorem rest_of_read_given {s s' : ByteStream} {want : Nat} {bytes : Bytes}
    (h : s.read want = (.given bytes, s')) : s.rest = bytes ++ s'.rest := by
  unfold read at h
  split at h
  · simp at h
  · split at h
    · simp at h
    · simp only [Prod.mk.injEq, ReadOutcome.given.injEq] at h
      obtain ⟨rfl, rfl⟩ := h
      exact (List.take_append_drop ..).symm

/--
Reads on until `want` bytes are read or the stream ends, whatever the portions.  The portions
read before are given last one first.
-/
def fillFrom (s : ByteStream) (want : Nat) (portions : List Bytes) :
    Except StreamFault (Bytes × ByteStream) :=
  if want = 0 then .ok (portions.reverse.flatten, s)
  else
    match h : s.read want with
    | (.interrupted, s') =>
      have := (pending_of_read_interrupted h).1
      s'.fillFrom want portions
    | (.failed fault, _) => .error fault
    | (.given [], s') => .ok (portions.reverse.flatten, s')
    | (.given (b :: bytes), s') =>
      s'.fillFrom (want - (bytes.length + 1)) ((b :: bytes) :: portions)
  termination_by (want, s.pending)

/-- Reads `want` bytes, or all that are left if there are fewer. -/
def fill (s : ByteStream) (want : Nat) : Except StreamFault (Bytes × ByteStream) :=
  s.fillFrom want []

/-- Reads exactly `want` bytes.  A stream that has fewer left fails as one that says so itself. -/
def fillExact (s : ByteStream) (want : Nat) : Except StreamFault (Bytes × ByteStream) := do
  let (bytes, s') ← s.fill want
  if bytes.length < want then
    throw { kind := .unexpectedEnd, reason := "failed to fill whole buffer" }
  return (bytes, s')

def drain (s : ByteStream) : Except StreamFault (Bytes × ByteStream) := s.fill (s.rest.length + 1)

theorem fillFrom_eq {s s' : ByteStream} {want : Nat} {portions : List Bytes} {bytes : Bytes} :
    s.fillFrom want portions = .ok (bytes, s') →
      portions.reverse.flatten ++ s.rest = bytes ++ s'.rest := by
  fun_induction fillFrom s want portions with
  | case1 s portions =>
    intro h
    simp only [Except.ok.injEq, Prod.mk.injEq] at h
    obtain ⟨rfl, rfl⟩ := h
    rfl
  | case2 s want portions _ s₁ hr _ ih =>
    intro h
    rw [← ih h, (pending_of_read_interrupted hr).2]
  | case3 => simp
  | case4 s want portions _ s₁ hr =>
    intro h
    simp only [Except.ok.injEq, Prod.mk.injEq] at h
    obtain ⟨rfl, rfl⟩ := h
    rw [rest_of_read_given hr, List.nil_append]
  | case5 s want portions _ b bytes' s₁ hr ih =>
    intro h
    rw [← ih h, rest_of_read_given hr]
    simp

/-- What is filled in is what stood next in the stream. -/
theorem fill_eq {s s' : ByteStream} {want : Nat} {bytes : Bytes}
    (h : s.fill want = .ok (bytes, s')) : s.rest = bytes ++ s'.rest := by
  simpa using fillFrom_eq h

end ByteStream
end ScanArchive
