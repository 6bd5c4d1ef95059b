import ScanArchive.Proofs.Wire.Message

/-!
# Messages read as others

What a message writes is read by a message with other fields.  A field that is unknown to the
reader is passed over, and one of another wire type is refused, unless it is left out.  A reading
that fails anywhere fails; `Message.Leads` says what holds of the message that is read otherwise.
-/

namespace ScanArchive.Wire

variable {σ τ α β κ : Type}

/-! ## 1. Values behind keys -/

/-- A value of one of the two wire types that are written. -/
inductive Value where
  | number (n : Nat)
  | block (body : Bytes)

namespace Value

def wireType : Value → WireType
  | number _ => .varint
  | block _ => .lengthDelimited

def write : Value → Bytes
  | number n => Varint.encode n
  | block body => delimited body

def record (tag : Nat) (v : Value) : Bytes := Key.encode ⟨tag, v.wireType⟩ ++ v.write

theorem skipValue_write (v : Value) (rest : Bytes) :
    (∃ e, skipValue v.wireType (v.write ++ rest) = .error e) ∨
      skipValue v.wireType (v.write ++ rest) = .ok rest := by
  cases v with
  | number n =>
    show (∃ e, (readVarint (Varint.encode n ++ rest)).map (·.2) = .error e) ∨
      (readVarint (Varint.encode n ++ rest)).map (·.2) = .ok rest
    by_cases hn : n < UInt64.size
    · right
      rw [readVarint_eq_ok_iff.2 (Varint.read_encode hn rest)]
      rfl
    · left
      rw [readVarint, Varint.read_encode_of_le (Nat.le_of_not_lt hn)]
      exact ⟨_, rfl⟩
  | block body =>
    by_cases hsize : body.length < UInt64.size
    · right
      simp only [skipValue, wireType, write, delimited, List.append_assoc,
        readVarint_eq_ok_iff.2 (Varint.read_encode hsize (body ++ rest)), Bytes.split?_append]
    · left
      simp only [skipValue, wireType, write, delimited, List.append_assoc, readVarint,
        Varint.read_encode_of_le (Nat.le_of_not_lt hsize)]
      exact ⟨_, rfl⟩

theorem skipField_write (depth tag : Nat) (v : Value) (rest : Bytes) :
    (∃ e, skipField depth ⟨tag, v.wireType⟩ (v.write ++ rest) = .error e) ∨
      skipField depth ⟨tag, v.wireType⟩ (v.write ++ rest) = .ok rest := by
  rw [skipField]
  by_cases hdepth : depth = 0
  · rw [if_pos hdepth]
    exact .inl ⟨_, rfl⟩
  · have hgroup : v.wireType ≠ .startGroup := by
      cases v <;> exact WireType.noConfusion
    rw [if_neg hdepth, if_neg hgroup]
    exact v.skipValue_write rest

end Value

def Scalar.Spelled (scalar : Scalar α) : Prop :=
  ∀ a, ∃ v : Value, v.wireType = scalar.wireType ∧ scalar.write a = v.write

namespace Scalar

theorem spelled_ofVarint (zero : α) (toNat : α → Nat) (ofNat : Nat → α) :
    (ofVarint zero toNat ofNat).Spelled :=
  fun a => ⟨.number (toNat a), rfl, rfl⟩

@[simp] theorem spelled_int64 : int64.Spelled := spelled_ofVarint _ _ _

@[simp] theorem spelled_int32 : int32.Spelled := spelled_ofVarint _ _ _

@[simp] theorem spelled_bool : bool.Spelled := spelled_ofVarint _ _ _

@[simp] theorem spelled_blob : blob.Spelled := fun body => ⟨.block body, rfl, rfl⟩

@[simp] theorem spelled_text : text.Spelled := fun s => ⟨.block (Bytes.ofText s), rfl, rfl⟩

end Scalar

/-- Whatever the message, the field is written as any number of values behind its key. -/
def Field.Spelled (field : Field σ) : Prop :=
  ∀ s, ∃ values : List Value, field.write s = values.flatMap (·.record field.tag)

namespace Field

variable {name : String} {tag : Nat}

theorem exists_record_writeScalar {scalar : Scalar α} (hs : scalar.Spelled) (tag : Nat) (a : α) :
    ∃ v : Value, v.wireType = scalar.wireType ∧ writeScalar scalar tag a = v.record tag := by
  obtain ⟨v, hwire, hwrite⟩ := hs a
  exact ⟨v, hwire, by rw [writeScalar, Value.record, hwire, hwrite]⟩

@[simp] theorem spelled_plain [DecidableEq α] {scalar : Scalar α} (hs : scalar.Spelled)
    {get : σ → α} {put : σ → α → σ} : (plain scalar name tag get put).Spelled := by
  intro s
  show ∃ values : List Value, (if get s = scalar.zero then [] else writeScalar scalar tag (get s))
    = values.flatMap (·.record tag)
  by_cases hzero : get s = scalar.zero
  · rw [if_pos hzero]
    exact ⟨[], rfl⟩
  · obtain ⟨v, -, hv⟩ := exists_record_writeScalar hs tag (get s)
    rw [if_neg hzero, hv]
    exact ⟨[v], (List.flatMap_singleton _ _).symm⟩

@[simp] theorem spelled_optional {scalar : Scalar α} (hs : scalar.Spelled) {get : σ → Option α}
    {put : σ → Option α → σ} : (optional scalar name tag get put).Spelled := by
  intro s
  show ∃ values : List Value, (get s).elim [] (writeScalar scalar tag)
    = values.flatMap (·.record tag)
  cases get s with
  | none => exact ⟨[], rfl⟩
  | some a =>
    obtain ⟨v, -, hv⟩ := exists_record_writeScalar hs tag a
    rw [Option.elim_some, hv]
    exact ⟨[v], (List.flatMap_singleton _ _).symm⟩

@[simp] theorem spelled_message {inner : Message α} {get : σ → Option α}
    {put : σ → Option α → σ} : (message inner name tag get put).Spelled := by
  intro s
  show ∃ values : List Value, ((get s).elim [] fun v => Key.encode ⟨tag, .lengthDelimited⟩
    ++ delimited (inner.encode v)) = values.flatMap (·.record tag)
  cases get s with
  | none => exact ⟨[], rfl⟩
  | some v => exact ⟨[.block (inner.encode v)], (List.flatMap_singleton _ _).symm⟩

@[simp] theorem spelled_dict [DecidableEq κ] [Ord κ] [Std.TransOrd κ] [Std.LawfulEqOrd κ]
    {key : Scalar κ} {get : σ → Dict κ} {put : σ → Dict κ → σ} :
    (dict key name tag get put).Spelled := by
  intro s
  exact ⟨(get s).toList.map fun entry => .block ((entryMessage key).encode entry),
    by rw [List.flatMap_map]; rfl⟩

end Field

/-! ## 2. What a reading leads to -/

/--
From a message of which `p` holds, reading `bytes` fails or comes to one of which `q` holds,
whatever follows them.
-/
def Message.Leads (m : Message σ) (depth : Nat) (p : σ → Prop) (bytes : Bytes) (q : σ → Prop) :
    Prop :=
  ∀ t, p t → ∀ (limit : Nat) (rest : Bytes), limit ≤ rest.length →
    (∃ e, (m.step depth).repeatUntil limit t (bytes ++ rest) = .error e) ∨
      ∃ t', q t' ∧ (m.step depth).repeatUntil limit t (bytes ++ rest)
        = (m.step depth).repeatUntil limit t' rest

namespace Message

variable {m : Message σ} {depth : Nat} {p q r : σ → Prop} {bytes bytes' : Bytes}

theorem leads_nil (m : Message σ) (depth : Nat) (p : σ → Prop) : m.Leads depth p [] p :=
  fun t ht _ _ _ => .inr ⟨t, ht, rfl⟩

theorem Leads.append (h : m.Leads depth p bytes q) (h' : m.Leads depth q bytes' r) :
    m.Leads depth p (bytes ++ bytes') r := by
  intro t ht limit rest hl
  rw [List.append_assoc]
  rcases h t ht limit (bytes' ++ rest) (by rw [List.length_append]; omega) with he | ⟨t₁, ht₁, heq⟩
  · exact .inl he
  · rw [heq]
    exact h' t₁ ht₁ limit rest hl

theorem leads_flatMap {pieces : List β} {write : β → Bytes}
    (h : ∀ a ∈ pieces, m.Leads depth p (write a) p) : m.Leads depth p (pieces.flatMap write) p := by
  induction pieces with
  | nil => exact m.leads_nil depth p
  | cons a pieces ih =>
    obtain ⟨hfirst, hrest⟩ := List.forall_mem_cons.1 h
    rw [List.flatMap_cons]
    exact hfirst.append (ih hrest)

theorem Leads.of_decode (h : m.Leads maxDepth p bytes q) (hinitial : p m.initial) {s : σ}
    (hdecode : m.decode bytes = .ok s) : q s := by
  rw [decode] at hdecode
  rcases h m.initial hinitial 0 [] (Nat.le_refl 0) with ⟨e, he⟩ | ⟨t, ht, heq⟩
  · rw [List.append_nil] at he
    rw [he] at hdecode
    cases hdecode
  · rw [List.append_nil, show (0 : Nat) = ([] : Bytes).length from rfl,
      Step.repeatUntil_length] at heq
    rw [show (0 : Nat) = ([] : Bytes).length from rfl, heq] at hdecode
    cases hdecode
    exact ht

theorem leads_record {tag : Nat} {v : Value}
    (hrun : ∀ t, p t → ∀ rest, (∃ e, m.mergeField depth t (v.record tag ++ rest) = .error e) ∨
      ∃ t', q t' ∧ m.mergeField depth t (v.record tag ++ rest) = .ok (t', rest)) :
    m.Leads depth p (v.record tag) q := by
  intro t ht limit rest hl
  have hkey : 0 < (Key.encode ⟨tag, v.wireType⟩).length := Varint.length_encode_pos _
  have hlimit : limit < (v.record tag ++ rest).length := by
    rw [Value.record, List.length_append, List.length_append]
    omega
  rcases hrun t ht rest with ⟨e, he⟩ | ⟨t', ht', hok⟩
  · have hrun : (m.step depth).run t (v.record tag ++ rest) = .error e := he
    rw [Step.repeatUntil_of_lt hlimit, hrun]
    exact .inl ⟨e, rfl⟩
  · exact .inr ⟨t', ht', Step.repeatUntil_of_run hok hlimit⟩

theorem leads_record_of_unknown {tag : Nat} (hpos : 0 < tag) (hlt : tag < 0x20000000)
    (hunknown : ∀ field ∈ m.fields, field.tag ≠ tag) (v : Value) :
    m.Leads depth p (v.record tag) p := by
  have hfind : m.fields.find? (·.tag = tag) = none :=
    List.find?_eq_none.2 fun field hfield => by simpa using hunknown field hfield
  refine leads_record fun t ht rest => ?_
  rw [mergeField, Value.record, List.append_assoc, Key.read_encode hpos hlt]
  simp only [hfind]
  rcases v.skipField_write depth tag rest with ⟨e, he⟩ | hok
  · rw [he]
    exact .inl ⟨e, rfl⟩
  · rw [hok]
    exact .inr ⟨t, ht, rfl⟩

theorem leads_write_of_unknown {field : Field τ} (hspelled : field.Spelled)
    (htag : 0 < field.tag ∧ field.tag < 0x20000000)
    (hunknown : ∀ known ∈ m.fields, known.tag ≠ field.tag) (s : τ) :
    m.Leads depth p (field.write s) p := by
  obtain ⟨values, hvalues⟩ := hspelled s
  rw [hvalues]
  exact leads_flatMap fun v _ => leads_record_of_unknown htag.1 htag.2 hunknown v

theorem leads_record_of_merge (hm : m.WellTagged) {field : Field σ} (hf : field ∈ m.fields)
    {v : Value}
    (hmerge : ∀ t, p t → ∀ rest,
      (∃ e, field.merge depth v.wireType t (v.write ++ rest) = .error e) ∨
        ∃ t', q t' ∧ field.merge depth v.wireType t (v.write ++ rest) = .ok (t', rest)) :
    m.Leads depth p (v.record field.tag) q := by
  obtain ⟨hpos, hlt⟩ := hm.2 field.tag (List.mem_map_of_mem hf)
  refine leads_record fun t ht rest => ?_
  rw [mergeField, Value.record, List.append_assoc, Key.read_encode hpos hlt]
  simp only [find?_tag hm hf]
  rcases hmerge t ht rest with ⟨e, he⟩ | ⟨t', ht', hok⟩
  · rw [he]
    exact .inl ⟨_, rfl⟩
  · rw [hok]
    exact .inr ⟨t', ht', rfl⟩

end Message

namespace Field

open Message

variable {m : Message σ} {depth : Nat} {p q : σ → Prop} {name name' : String} {tag : Nat}

/-- Where the reader has a field of another wire type, a field is left out or refused. -/
theorem leads_plain_of_ne [DecidableEq α] [DecidableEq β] (hm : m.WellTagged)
    {scalar : Scalar α} {get : τ → α} {put : τ → α → τ} (hs : scalar.Spelled)
    {known : Scalar β} {get' : σ → β} {put' : σ → β → σ}
    (hf : plain known name' tag get' put' ∈ m.fields)
    (hne : scalar.wireType ≠ known.wireType) (s : τ) :
    m.Leads depth p ((plain scalar name tag get put).write s)
      fun t => p t ∧ get s = scalar.zero := by
  show m.Leads depth p (if get s = scalar.zero then [] else writeScalar scalar tag (get s)) _
  by_cases hzero : get s = scalar.zero
  · rw [if_pos hzero]
    exact fun t ht _ _ _ => .inr ⟨t, ⟨ht, hzero⟩, rfl⟩
  · rw [if_neg hzero]
    obtain ⟨v, hwire, hv⟩ := exists_record_writeScalar hs tag (get s)
    rw [hv]
    refine leads_record_of_merge hm hf fun t _ rest => .inl ⟨.of (.wireTypeMismatch v.wireType
      known.wireType), ?_⟩
    show mergeScalar known put' v.wireType t (v.write ++ rest) = _
    rw [mergeScalar, readScalar, if_neg (hwire ▸ hne)]
    rfl

theorem leads_plain_text (hm : m.WellTagged) {get : τ → String} {put : τ → String → τ}
    {get' : σ → String} {put' : σ → String → σ}
    (hf : plain .text name' tag get' put' ∈ m.fields) (hput : ∀ t a, p t → p (put' t a)) (s : τ) :
    m.Leads depth p ((plain .text name tag get put).write s) p := by
  show m.Leads depth p (if get s = "" then []
    else Value.record tag (.block (Bytes.ofText (get s)))) p
  by_cases hempty : get s = ""
  · rw [if_pos hempty]
    exact m.leads_nil depth p
  · rw [if_neg hempty]
    refine leads_record_of_merge hm hf fun t ht rest => ?_
    show (∃ e, mergeScalar .text put' .lengthDelimited t
        (delimited (Bytes.ofText (get s)) ++ rest) = .error e) ∨
      ∃ t', p t' ∧ mergeScalar .text put' .lengthDelimited t
        (delimited (Bytes.ofText (get s)) ++ rest) = .ok (t', rest)
    have hwire : WireType.lengthDelimited = Scalar.text.wireType := rfl
    rw [mergeScalar, readScalar, if_pos hwire]
    by_cases hsize : (Bytes.ofText (get s)).length < UInt64.size
    · have hread : Scalar.text.read (delimited (Bytes.ofText (get s)) ++ rest)
          = .ok (get s, rest) := by
        simp only [Scalar.text, readDelimited_delimited hsize, Bytes.toText?_ofText]
      rw [hread]
      exact .inr ⟨put' t (get s), hput t _ ht, rfl⟩
    · have hread : Scalar.text.read (delimited (Bytes.ofText (get s)) ++ rest)
          = .error (.of .invalidVarint) := by
        simp only [Scalar.text, readDelimited, delimited, List.append_assoc, readVarint,
          Varint.read_encode_of_le (Nat.le_of_not_lt hsize)]
      rw [hread]
      exact .inl ⟨_, rfl⟩

end Field
end ScanArchive.Wire
