import ScanArchive.Dict
import ScanArchive.Wire.Message

/-!
# Kinds of fields

The kinds of fields that messages are declared with.  A plain field is left out when it has its
zero value; an optional field is written whenever it is set, also to a zero value.  Lists of
texts repeat the field, lists of numbers are packed into one block, and dictionaries repeat an
entry message in ascending order of the keys.
-/

namespace ScanArchive.Wire.Field

variable {σ α κ : Type}

def readScalar (scalar : Scalar α) (wireType : WireType) (bytes : Bytes) :
    Except DecodeError (α × Bytes) :=
  if wireType = scalar.wireType then scalar.read bytes
  else .error (.of (.wireTypeMismatch wireType scalar.wireType))

def mergeScalar (scalar : Scalar α) (put : σ → α → σ) (wireType : WireType) (s : σ)
    (bytes : Bytes) : Except DecodeError (σ × Bytes) :=
  (readScalar scalar wireType bytes).map fun (a, rest) => (put s a, rest)

theorem suffix_of_mergeScalar {scalar : Scalar α} {put : σ → α → σ} {wireType : WireType}
    {s s' : σ} {bytes rest : Bytes}
    (h : mergeScalar scalar put wireType s bytes = .ok (s', rest)) : rest <:+ bytes := by
  unfold mergeScalar readScalar at h
  split at h
  · cases hr : scalar.read bytes with
    | error e => simp [hr, Except.map] at h
    | ok found =>
      simp only [hr, Except.map, Except.ok.injEq, Prod.mk.injEq] at h
      exact h.2 ▸ scalar.suffix_of_read hr
  · simp [Except.map] at h

def writeScalar (scalar : Scalar α) (tag : Nat) (a : α) : Bytes :=
  Key.encode ⟨tag, scalar.wireType⟩ ++ scalar.write a

def keySize (tag : Nat) (wireType : WireType) : Nat := Varint.size (tag * 8 + wireType.code)

def scalarSize (scalar : Scalar α) (tag : Nat) (a : α) : Nat :=
  keySize tag scalar.wireType + scalar.size a

/-- A field that always has a value and is left out when it has the zero value. -/
def plain [DecidableEq α] (scalar : Scalar α) (name : String) (tag : Nat) (get : σ → α)
    (put : σ → α → σ) : Field σ where
  name := name
  tag := tag
  write s := if get s = scalar.zero then [] else writeScalar scalar tag (get s)
  size s := if get s = scalar.zero then 0 else scalarSize scalar tag (get s)
  merge _ := mergeScalar scalar put
  suffix_of_merge := suffix_of_mergeScalar

def optional (scalar : Scalar α) (name : String) (tag : Nat) (get : σ → Option α)
    (put : σ → Option α → σ) : Field σ where
  name := name
  tag := tag
  write s := (get s).elim [] (writeScalar scalar tag)
  size s := (get s).elim 0 (scalarSize scalar tag)
  merge _ := mergeScalar scalar fun s a => put s (some a)
  suffix_of_merge := suffix_of_mergeScalar

/-- A list whose elements are written one field each. -/
def repeated (scalar : Scalar α) (name : String) (tag : Nat) (get : σ → List α)
    (put : σ → List α → σ) : Field σ where
  name := name
  tag := tag
  write s := (get s).flatMap (writeScalar scalar tag)
  size s := (get s).foldr (fun a sum => scalarSize scalar tag a + sum) 0
  merge _ := mergeScalar scalar fun s a => put s (get s ++ [a])
  suffix_of_merge := suffix_of_mergeScalar

def packedStep (ofNat : Nat → α) : Step (List α) where
  run latest bytes := (readVarint bytes).map fun (n, rest) => (ofNat n :: latest, rest)
  shrinks {latest bytes latest' rest} h := by
    cases hv : readVarint bytes with
    | error e => simp [hv, Except.map] at h
    | ok found =>
      simp only [hv, Except.map, Except.ok.injEq, Prod.mk.injEq] at h
      exact h.2 ▸ Varint.suffix_of_read (readVarint_eq_ok_iff.1 hv)

/-- A list of numbers, written as one block and read in that form or one field each. -/
def packed (toNat : α → Nat) (ofNat : Nat → α) (name : String) (tag : Nat) (get : σ → List α)
    (put : σ → List α → σ) : Field σ where
  name := name
  tag := tag
  write s :=
    if (get s).isEmpty then []
    else Key.encode ⟨tag, .lengthDelimited⟩
      ++ delimited ((get s).flatMap fun a => Varint.encode (toNat a))
  size s :=
    if (get s).isEmpty then 0
    else keySize tag .lengthDelimited
      + delimitedSize ((get s).foldr (fun a sum => Varint.size (toNat a) + sum) 0)
  merge _ wireType s bytes :=
    if wireType = .lengthDelimited then
      ((packedStep ofNat).block [] bytes).map fun (latest, rest) =>
        (put s (get s ++ latest.reverse), rest)
    else if wireType = .varint then
      (readVarint bytes).map fun (n, rest) => (put s (get s ++ [ofNat n]), rest)
    else .error (.of (.wireTypeMismatch wireType .varint))
  suffix_of_merge {depth wireType s bytes s' rest} h := by
    split at h
    · cases hb : (packedStep ofNat).block [] bytes with
      | error e => simp [hb, Except.map] at h
      | ok found =>
        simp only [hb, Except.map, Except.ok.injEq, Prod.mk.injEq] at h
        exact h.2 ▸ Step.suffix_of_block hb
    · split at h
      · cases hv : readVarint bytes with
        | error e => simp [hv, Except.map] at h
        | ok found =>
          simp only [hv, Except.map, Except.ok.injEq, Prod.mk.injEq] at h
          exact h.2 ▸ (Varint.suffix_of_read (readVarint_eq_ok_iff.1 hv)).1
      · cases h

def mergeNested (m : Message α) (depth : Nat) (inner : α) (bytes : Bytes) :
    Except DecodeError (α × Bytes) :=
  match depth with
  | 0 => .error (.of .recursionLimit)
  | depth + 1 => (m.step depth).block inner bytes

theorem suffix_of_mergeNested {m : Message α} {depth : Nat} {inner inner' : α}
    {bytes rest : Bytes} (h : mergeNested m depth inner bytes = .ok (inner', rest)) :
    rest <:+ bytes := by
  cases depth with
  | zero => cases h
  | succ depth => exact Step.suffix_of_block h

/-- A message inside a message.  Reading the field again adds to the message that is there. -/
def message (m : Message α) (name : String) (tag : Nat) (get : σ → Option α)
    (put : σ → Option α → σ) : Field σ where
  name := name
  tag := tag
  write s := (get s).elim [] fun inner =>
    Key.encode ⟨tag, .lengthDelimited⟩ ++ delimited (m.encode inner)
  size s := (get s).elim 0 fun inner =>
    keySize tag .lengthDelimited + delimitedSize (m.size inner)
  merge depth wireType s bytes :=
    if wireType = .lengthDelimited then
      (mergeNested m depth ((get s).getD m.initial) bytes).map fun (inner, rest) =>
        (put s (some inner), rest)
    else .error (.of (.wireTypeMismatch wireType .lengthDelimited))
  suffix_of_merge {depth wireType s bytes s' rest} h := by
    split at h
    · cases hm : mergeNested m depth ((get s).getD m.initial) bytes with
      | error e => simp [hm, Except.map] at h
      | ok found =>
        simp only [hm, Except.map, Except.ok.injEq, Prod.mk.injEq] at h
        exact h.2 ▸ suffix_of_mergeNested hm
    · cases h

/-- An entry of a dictionary: the key and the text, each left out when zero. -/
def entryMessage [DecidableEq κ] (key : Scalar κ) : Message (κ × String) where
  name := none
  initial := (key.zero, "")
  fields := [
    plain key "key" 1 (·.1) fun entry k => (k, entry.2),
    plain Scalar.text "value" 2 (·.2) fun entry v => (entry.1, v)]

/-- A dictionary.  The wire type that comes with an entry is not looked at. -/
def dict [DecidableEq κ] [Ord κ] [Std.TransOrd κ] [Std.LawfulEqOrd κ] (key : Scalar κ)
    (name : String) (tag : Nat) (get : σ → Dict κ) (put : σ → Dict κ → σ) : Field σ where
  name := name
  tag := tag
  write s := (get s).toList.flatMap fun entry =>
    Key.encode ⟨tag, .lengthDelimited⟩ ++ delimited ((entryMessage key).encode entry)
  size s := (get s).toList.foldr (fun entry sum =>
    keySize tag .lengthDelimited + delimitedSize ((entryMessage key).size entry) + sum) 0
  merge depth _ s bytes :=
    (mergeNested (entryMessage key) depth (entryMessage key).initial bytes).map
      fun (entry, rest) => (put s ((get s).insert entry.1 entry.2), rest)
  suffix_of_merge {depth wireType s bytes s' rest} h := by
    cases hm : mergeNested (entryMessage key) depth (entryMessage key).initial bytes with
    | error e => simp [hm, Except.map] at h
    | ok found =>
      simp only [hm, Except.map, Except.ok.injEq, Prod.mk.injEq] at h
      exact h.2 ▸ suffix_of_mergeNested hm

end ScanArchive.Wire.Field
