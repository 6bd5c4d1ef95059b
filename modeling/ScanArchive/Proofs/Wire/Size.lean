import ScanArchive.Wire.Field

/-!
# Sizes are exact

The size that is computed for a field or a message is the length of what is written for it, so
that room can be set aside before anything is written.  One lemma for each kind of field;
`Message.length_encode` puts them together.
-/

namespace ScanArchive.Wire

variable {σ α κ : Type}

/-! ## 1. Scalars -/

def Scalar.Sized (scalar : Scalar α) : Prop := ∀ a, (scalar.write a).length = scalar.size a

namespace Scalar

theorem sized_ofVarint (zero : α) (toNat : α → Nat) (ofNat : Nat → α) :
    (ofVarint zero toNat ofNat).Sized :=
  fun a => Varint.length_encode (toNat a)

@[simp] theorem sized_int64 : int64.Sized := sized_ofVarint _ _ _

@[simp] theorem sized_int32 : int32.Sized := sized_ofVarint _ _ _

@[simp] theorem sized_bool : bool.Sized := sized_ofVarint _ _ _

@[simp] theorem sized_blob : blob.Sized := length_delimited

@[simp] theorem sized_text : text.Sized := fun s => length_delimited (Bytes.ofText s)

end Scalar

/-! ## 2. Fields -/

def Field.Sized (field : Field σ) : Prop := ∀ s, (field.write s).length = field.size s

theorem length_flatMap_eq_foldr {write : α → Bytes} {size : α → Nat} (values : List α)
    (h : ∀ a ∈ values, (write a).length = size a) :
    (values.flatMap write).length = values.foldr (fun a sum => size a + sum) 0 := by
  induction values with
  | nil => rfl
  | cons a values ih =>
    rw [List.flatMap_cons, List.length_append, List.foldr_cons, h a List.mem_cons_self,
      ih fun b hb => h b (List.mem_cons_of_mem a hb)]

def Message.Sized (m : Message σ) : Prop := ∀ field ∈ m.fields, field.Sized

/-- All fields together take the size of the message. -/
theorem Message.length_encode {m : Message σ} (hm : m.Sized) (s : σ) :
    (m.encode s).length = m.size s :=
  length_flatMap_eq_foldr m.fields fun field hfield => hm field hfield s

namespace Field

theorem length_key (tag : Nat) (wireType : WireType) :
    (Key.encode ⟨tag, wireType⟩).length = keySize tag wireType :=
  Varint.length_encode _

theorem length_writeScalar {scalar : Scalar α} (hs : scalar.Sized) (tag : Nat) (a : α) :
    (writeScalar scalar tag a).length = scalarSize scalar tag a := by
  rw [writeScalar, List.length_append, length_key, hs a, scalarSize]

theorem length_key_delimited (tag : Nat) (body : Bytes) :
    (Key.encode ⟨tag, .lengthDelimited⟩ ++ delimited body).length
      = keySize tag .lengthDelimited + delimitedSize body.length := by
  rw [List.length_append, length_key, length_delimited]

variable {name : String} {tag : Nat}

@[simp] theorem sized_plain [DecidableEq α] {scalar : Scalar α} (hs : scalar.Sized) {get : σ → α}
    {put : σ → α → σ} : (plain scalar name tag get put).Sized := by
  intro s
  show (if get s = scalar.zero then [] else writeScalar scalar tag (get s)).length
    = if get s = scalar.zero then 0 else scalarSize scalar tag (get s)
  by_cases hzero : get s = scalar.zero
  · rw [if_pos hzero, if_pos hzero, List.length_nil]
  · rw [if_neg hzero, if_neg hzero, length_writeScalar hs]

@[simp] theorem sized_optional {scalar : Scalar α} (hs : scalar.Sized) {get : σ → Option α}
    {put : σ → Option α → σ} : (optional scalar name tag get put).Sized := by
  intro s
  show ((get s).elim [] (writeScalar scalar tag)).length = (get s).elim 0 (scalarSize scalar tag)
  cases get s with
  | none => rfl
  | some a => exact length_writeScalar hs tag a

@[simp] theorem sized_repeated {scalar : Scalar α} (hs : scalar.Sized) {get : σ → List α}
    {put : σ → List α → σ} : (repeated scalar name tag get put).Sized :=
  fun s => length_flatMap_eq_foldr (get s) fun a _ => length_writeScalar hs tag a

@[simp] theorem sized_packed {toNat : α → Nat} {ofNat : Nat → α} {get : σ → List α}
    {put : σ → List α → σ} : (packed toNat ofNat name tag get put).Sized := by
  intro s
  show (if (get s).isEmpty then [] else Key.encode ⟨tag, .lengthDelimited⟩
      ++ delimited ((get s).flatMap fun a => Varint.encode (toNat a))).length
    = if (get s).isEmpty then 0 else keySize tag .lengthDelimited
      + delimitedSize ((get s).foldr (fun a sum => Varint.size (toNat a) + sum) 0)
  by_cases hnil : (get s).isEmpty
  · rw [if_pos hnil, if_pos hnil, List.length_nil]
  · rw [if_neg hnil, if_neg hnil, length_key_delimited,
      length_flatMap_eq_foldr (get s) fun a _ => Varint.length_encode (toNat a)]

@[simp] theorem sized_message {inner : Message α} (hi : inner.Sized) {get : σ → Option α}
    {put : σ → Option α → σ} : (message inner name tag get put).Sized := by
  intro s
  show ((get s).elim [] fun v => Key.encode ⟨tag, .lengthDelimited⟩
      ++ delimited (inner.encode v)).length
    = (get s).elim 0 fun v => keySize tag .lengthDelimited + delimitedSize (inner.size v)
  cases get s with
  | none => rfl
  | some v => rw [Option.elim_some, Option.elim_some, length_key_delimited,
      Message.length_encode hi]

theorem sized_entryMessage [DecidableEq κ] {key : Scalar κ} (hk : key.Sized) :
    (entryMessage key).Sized :=
  List.forall_mem_cons.2 ⟨sized_plain hk,
    List.forall_mem_singleton.2 (sized_plain Scalar.sized_text)⟩

@[simp] theorem sized_dict [DecidableEq κ] [Ord κ] [Std.TransOrd κ] [Std.LawfulEqOrd κ]
    {key : Scalar κ} (hk : key.Sized) {get : σ → Dict κ} {put : σ → Dict κ → σ} :
    (dict key name tag get put).Sized := by
  intro s
  refine length_flatMap_eq_foldr (get s).toList fun entry _ => ?_
  rw [length_key_delimited, Message.length_encode (sized_entryMessage hk)]

end Field
end ScanArchive.Wire
