import ScanArchive.Wire.Key

/-!
# Scalar values

How a single value is laid out after its key: numbers and truth values as varints, texts and
byte strings behind their length.  Negative numbers of 32 and of 64 bits are both written as
64-bit numbers, so that they take ten bytes; of a number read into 32 bits the low half counts.
-/

namespace ScanArchive.Wire

def delimited (body : Bytes) : Bytes := Varint.encode body.length ++ body

def delimitedSize (length : Nat) : Nat := Varint.size length + length

@[simp] theorem length_delimited (body : Bytes) :
    (delimited body).length = delimitedSize body.length := by
  simp [delimited, delimitedSize, Varint.length_encode]

def readDelimited (bytes : Bytes) : Except DecodeError (Bytes × Bytes) :=
  match readVarint bytes with
  | .error e => .error e
  | .ok (count, rest) =>
    match Bytes.split? count rest with
    | some found => .ok found
    | none => .error (.of .underflow)

theorem readDelimited_delimited {body : Bytes} (h : body.length < UInt64.size) (rest : Bytes) :
    readDelimited (delimited body ++ rest) = .ok (body, rest) := by
  rw [readDelimited, delimited, List.append_assoc,
    readVarint_eq_ok_iff.2 (Varint.read_encode h (body ++ rest))]
  simp only [Bytes.split?_append]

theorem suffix_of_readDelimited {bytes body rest : Bytes}
    (h : readDelimited bytes = .ok (body, rest)) : rest <:+ bytes := by
  unfold readDelimited at h
  split at h
  · cases h
  · rename_i count tail hc
    split at h
    · rename_i found hs
      simp only [Except.ok.injEq] at h
      subst h
      obtain ⟨rfl, -⟩ := Bytes.split?_eq_some_iff.1 hs
      exact (List.suffix_append ..).trans
        (Varint.suffix_of_read (readVarint_eq_ok_iff.1 hc)).1
    · cases h

structure Scalar (α : Type) where
  wireType : WireType
  /-- the value that a field has when it is left out -/
  zero : α
  write : α → Bytes
  size : α → Nat
  read : Bytes → Except DecodeError (α × Bytes)
  suffix_of_read : ∀ {bytes a rest}, read bytes = .ok (a, rest) → rest <:+ bytes

namespace Scalar

def ofVarint {α : Type} (zero : α) (toNat : α → Nat) (ofNat : Nat → α) : Scalar α where
  wireType := .varint
  zero := zero
  write a := Varint.encode (toNat a)
  size a := Varint.size (toNat a)
  read bytes := (readVarint bytes).map fun (n, rest) => (ofNat n, rest)
  suffix_of_read {bytes a rest} h := by
    cases hv : readVarint bytes with
    | error e => simp [hv, Except.map] at h
    | ok found =>
      simp only [hv, Except.map, Except.ok.injEq, Prod.mk.injEq] at h
      exact h.2 ▸ (Varint.suffix_of_read (readVarint_eq_ok_iff.1 hv)).1

def int64 : Scalar Int64 :=
  ofVarint 0 (fun v => v.toUInt64.toNat) (fun n => n.toUInt64.toInt64)

/-- 32-bit numbers, extended to 64 bits. -/
def int32 : Scalar Int32 :=
  ofVarint 0 (fun v => v.toInt64.toUInt64.toNat) (fun n => n.toUInt32.toInt32)

/-- Truth values; every number but zero reads as true. -/
def bool : Scalar Bool := ofVarint false Bool.toNat (· != 0)

def blob : Scalar Bytes where
  wireType := .lengthDelimited
  zero := []
  write := delimited
  size body := delimitedSize body.length
  read := readDelimited
  suffix_of_read := suffix_of_readDelimited

def text : Scalar String where
  wireType := .lengthDelimited
  zero := ""
  write s := delimited (Bytes.ofText s)
  size s := delimitedSize s.utf8ByteSize
  read bytes :=
    match readDelimited bytes with
    | .error e => .error e
    | .ok (body, rest) =>
      match Bytes.toText? body with
      | some s => .ok (s, rest)
      | none => .error (.of .notUtf8)
  suffix_of_read {bytes a rest} h := by
    split at h
    · cases h
    · rename_i body tail hd
      split at h
      · simp only [Except.ok.injEq, Prod.mk.injEq] at h
        exact h.2 ▸ suffix_of_readDelimited hd
      · cases h

end Scalar
end ScanArchive.Wire
