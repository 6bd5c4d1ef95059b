import ScanArchive.Wire.Scalar

/-!
# Messages

A message is a list of fields.  It is written field by field, in the order of the list; it is
read by merging one field after another, in whatever order they come, into a state that starts
as the empty message.  Unknown fields are passed over.
-/

namespace ScanArchive.Wire

structure Field (σ : Type) where
  name : String
  tag : Nat
  /-- the field with its key, once for each value that it holds -/
  write : σ → Bytes
  size : σ → Nat
  /-- Reads a value of the given wire type into the message; `depth` more levels may be opened. -/
  merge : (depth : Nat) → WireType → σ → Bytes → Except DecodeError (σ × Bytes)
  suffix_of_merge : ∀ {depth wireType s bytes s' rest},
    merge depth wireType s bytes = .ok (s', rest) → rest <:+ bytes

structure Message (σ : Type) where
  /-- The name that error texts use; without one, errors are located in the field around it. -/
  name : Option String
  /-- the message of which every field is left out -/
  initial : σ
  fields : List (Field σ)

/-- A step of reading: it changes a state and takes at least one byte off the front. -/
structure Step (σ : Type) where
  run : σ → Bytes → Except DecodeError (σ × Bytes)
  shrinks : ∀ {s bytes s' rest}, run s bytes = .ok (s', rest) →
    rest <:+ bytes ∧ rest.length < bytes.length

namespace Step

variable {σ : Type}

def repeatUntil (step : Step σ) (limit : Nat) (s : σ) (bytes : Bytes) :
    Except DecodeError (σ × Bytes) :=
  if (bytes.drop limit).isEmpty then .ok (s, bytes)
  else
    match h : step.run s bytes with
    | .error e => .error e
    | .ok (s', rest) =>
      have := (step.shrinks h).2
      step.repeatUntil limit s' rest
  termination_by bytes.length

theorem suffix_of_repeatUntil {step : Step σ} {limit : Nat} {s s' : σ} {bytes rest : Bytes} :
    step.repeatUntil limit s bytes = .ok (s', rest) → rest <:+ bytes := by
  fun_induction step.repeatUntil limit s bytes with
  | case1 s bytes _ =>
    rintro ⟨⟩
    exact List.suffix_refl _
  | case2 => simp
  | case3 s bytes _ s₁ rest₁ h _ ih => exact fun h' => (ih h').trans (step.shrinks h).1

/--
Reads a length and repeats a step until that many bytes are taken.  The steps see all of the
data; contents that take more than the length are refused only when the last step is done.
-/
def block (step : Step σ) (s : σ) (bytes : Bytes) : Except DecodeError (σ × Bytes) :=
  match readVarint bytes with
  | .error e => .error e
  | .ok (count, rest) =>
    let length := rest.length
    if length < count then .error (.of .underflow)
    else
      match step.repeatUntil (length - count) s rest with
      | .error e => .error e
      | .ok (s', left) =>
        if left.length = length - count then .ok (s', left) else .error (.of .lengthExceeded)

theorem suffix_of_block {step : Step σ} {s s' : σ} {bytes rest : Bytes}
    (h : step.block s bytes = .ok (s', rest)) : rest <:+ bytes := by
  unfold block at h
  split at h
  · cases h
  · rename_i count tail hc
    simp only at h
    split at h
    · cases h
    · split at h
      · cases h
      · rename_i s₁ left hr
        split at h
        · simp only [Except.ok.injEq, Prod.mk.injEq] at h
          obtain ⟨-, rfl⟩ := h
          exact (suffix_of_repeatUntil hr).trans
            (Varint.suffix_of_read (readVarint_eq_ok_iff.1 hc)).1
        · cases h

end Step

namespace Message

variable {σ : Type}

def encode (m : Message σ) (s : σ) : Bytes := m.fields.flatMap (·.write s)

def size (m : Message σ) (s : σ) : Nat :=
  m.fields.foldr (fun field sum => field.size s + sum) 0

def locate (m : Message σ) (field : String) (e : DecodeError) : DecodeError :=
  match m.name with
  | some message => e.within ⟨message, field⟩
  | none => e

def mergeField (m : Message σ) (depth : Nat) (s : σ) (bytes : Bytes) :
    Except DecodeError (σ × Bytes) :=
  match Key.read bytes with
  | .error e => .error e
  | .ok (key, rest) =>
    match m.fields.find? (·.tag = key.tag) with
    | some field => (field.merge depth key.wireType s rest).mapError (m.locate field.name)
    | none => (skipField depth key rest).map (s, ·)

theorem mergeField_shrinks {m : Message σ} {depth : Nat} {s s' : σ} {bytes rest : Bytes}
    (h : m.mergeField depth s bytes = .ok (s', rest)) :
    rest <:+ bytes ∧ rest.length < bytes.length := by
  unfold mergeField at h
  split at h
  · cases h
  · rename_i key tail hk
    have hkey := Key.suffix_of_read hk
    suffices hs : rest <:+ tail from
      ⟨hs.trans hkey.1, Nat.lt_of_le_of_lt hs.length_le hkey.2⟩
    split at h
    · rename_i field _
      cases hm : field.merge depth key.wireType s tail with
      | error e => rw [hm] at h; cases h
      | ok found =>
        rw [hm] at h
        cases h
        exact field.suffix_of_merge hm
    · cases hm : skipField depth key tail with
      | error e => simp [hm, Except.map] at h
      | ok left =>
        simp only [hm, Except.map, Except.ok.injEq, Prod.mk.injEq] at h
        exact h.2 ▸ suffix_of_skipField hm

def step (m : Message σ) (depth : Nat) : Step σ where
  run := m.mergeField depth
  shrinks := mergeField_shrinks

def maxDepth : Nat := 100

def decode (m : Message σ) (bytes : Bytes) : Except DecodeError σ :=
  ((m.step maxDepth).repeatUntil 0 m.initial bytes).map (·.1)

end Message
end ScanArchive.Wire
