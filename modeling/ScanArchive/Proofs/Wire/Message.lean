import ScanArchive.Proofs.Wire.Scalar
import ScanArchive.Wire.Field

/-!
# Messages read back

Reading what a message writes puts its fields into the empty message one after another.  A
field *carries* its value from a message `s` to a message `t` when reading what it writes for
`s` puts the value into `t`; a message that carries all of its fields from any `s` to the empty
message reads back (`decode_encode`).
-/

namespace ScanArchive.Wire

variable {σ α κ : Type}

/-! ## 1. Steps -/

namespace Step

/-- Until the limit is reached, reading goes on with what a step leaves and ends with its error. -/
theorem repeatUntil_of_lt {step : Step σ} {limit : Nat} {s : σ} {bytes : Bytes}
    (hlimit : limit < bytes.length) :
    step.repeatUntil limit s bytes
      = (step.run s bytes).bind fun found => step.repeatUntil limit found.1 found.2 := by
  have hmore : (bytes.drop limit).isEmpty = false := by
    rw [List.isEmpty_eq_false_iff, ← List.length_pos_iff, List.length_drop]
    omega
  rw [repeatUntil, if_neg (by rw [hmore]; decide)]
  split
  · rename_i e he
    simp only [he, Except.bind]
  · rename_i s₁ rest₁ he
    simp only [he, Except.bind]

theorem repeatUntil_of_run {step : Step σ} {limit : Nat} {s s' : σ} {bytes rest : Bytes}
    (hrun : step.run s bytes = .ok (s', rest)) (hlimit : limit < bytes.length) :
    step.repeatUntil limit s bytes = step.repeatUntil limit s' rest := by
  rw [repeatUntil_of_lt hlimit, hrun]
  rfl

theorem repeatUntil_length (step : Step σ) (s : σ) (rest : Bytes) :
    step.repeatUntil rest.length s rest = .ok (s, rest) := by
  rw [repeatUntil, if_pos (by simp)]

theorem block_delimited {step : Step σ} {s s' : σ} {bytes rest : Bytes}
    (hsize : bytes.length < UInt64.size)
    (h : step.repeatUntil rest.length s (bytes ++ rest) = .ok (s', rest)) :
    step.block s (delimited bytes ++ rest) = .ok (s', rest) := by
  have hcount : readVarint (delimited bytes ++ rest) = .ok (bytes.length, bytes ++ rest) := by
    rw [delimited, List.append_assoc]
    exact readVarint_eq_ok_iff.2 (Varint.read_encode hsize _)
  have hlimit : (bytes ++ rest).length - bytes.length = rest.length := by
    rw [List.length_append]; omega
  rw [block, hcount]
  simp only [hlimit, h]
  rw [if_neg (by rw [List.length_append]; omega), if_pos trivial]

end Step

/-! ## 2. Reading a run of fields -/

namespace Message

/-- The tags of a message are different and fit into keys. -/
def WellTagged (m : Message σ) : Prop :=
  (m.fields.map (·.tag)).Nodup ∧ ∀ tag ∈ m.fields.map (·.tag), 0 < tag ∧ tag < 0x20000000

instance (m : Message σ) : Decidable m.WellTagged := inferInstanceAs (Decidable (_ ∧ _))

/-- Reading `bytes` changes the message from `t` to `t'`, whatever follows them. -/
def Takes (m : Message σ) (depth : Nat) (t : σ) (bytes : Bytes) (t' : σ) : Prop :=
  ∀ (limit : Nat) (rest : Bytes), limit ≤ rest.length →
    (m.step depth).repeatUntil limit t (bytes ++ rest)
      = (m.step depth).repeatUntil limit t' rest

theorem takes_nil (m : Message σ) (depth : Nat) (t : σ) : m.Takes depth t [] t :=
  fun _ _ _ => rfl

theorem Takes.append {m : Message σ} {depth : Nat} {t t₁ t₂ : σ} {bytes₁ bytes₂ : Bytes}
    (h₁ : m.Takes depth t bytes₁ t₁) (h₂ : m.Takes depth t₁ bytes₂ t₂) :
    m.Takes depth t (bytes₁ ++ bytes₂) t₂ := by
  intro limit rest hl
  rw [List.append_assoc, h₁ limit (bytes₂ ++ rest) (by rw [List.length_append]; omega),
    h₂ limit rest hl]

theorem find?_tag {m : Message σ} (hm : m.WellTagged) {field : Field σ} (hf : field ∈ m.fields) :
    m.fields.find? (·.tag = field.tag) = some field := by
  obtain ⟨hnodup, -⟩ := hm
  generalize m.fields = fields at hf hnodup
  induction fields with
  | nil => cases hf
  | cons f fields ih =>
    obtain ⟨hnot, hnodup⟩ := List.nodup_cons.1 hnodup
    rcases List.mem_cons.1 hf with rfl | hf
    · exact List.find?_cons_of_pos (by simp)
    · have hne : f.tag ≠ field.tag := fun h => hnot (List.mem_map.2 ⟨field, hf, h.symm⟩)
      rw [List.find?_cons_of_neg (by simpa using hne)]
      exact ih hf hnodup

theorem takes_of_merge {m : Message σ} (hm : m.WellTagged) {field : Field σ}
    (hf : field ∈ m.fields) {depth : Nat} {wireType : WireType} {t t' : σ} {bytes : Bytes}
    (hmerge : ∀ rest, field.merge depth wireType t (bytes ++ rest) = .ok (t', rest)) :
    m.Takes depth t (Key.encode ⟨field.tag, wireType⟩ ++ bytes) t' := by
  intro limit rest hl
  obtain ⟨hpos, hlt⟩ := hm.2 field.tag (List.mem_map_of_mem hf)
  have hrun : (m.step depth).run t (Key.encode ⟨field.tag, wireType⟩ ++ bytes ++ rest)
      = .ok (t', rest) := by
    show m.mergeField depth t _ = _
    rw [mergeField, List.append_assoc, Key.read_encode hpos hlt]
    simp only [find?_tag hm hf, hmerge rest]
    rfl
  have hkey : 0 < (Key.encode ⟨field.tag, wireType⟩).length := Varint.length_encode_pos _
  exact Step.repeatUntil_of_run hrun (by simp only [List.length_append]; omega)

theorem decode_of_takes {m : Message σ} {s : σ} {bytes : Bytes}
    (h : m.Takes maxDepth m.initial bytes s) : m.decode bytes = .ok s := by
  have h := h 0 [] (Nat.le_refl 0)
  rw [List.append_nil] at h
  rw [decode, h, show (0 : Nat) = ([] : Bytes).length from rfl, Step.repeatUntil_length]
  rfl

end Message

/-! ## 3. Fields that carry their value -/

/-- Reading what the field writes for `s` changes a message from `t` to `t'`. -/
def Field.Carries (field : Field σ) (depth : Nat) (s t t' : σ) : Prop :=
  (field.write s).length < UInt64.size →
    ∀ m : Message σ, m.WellTagged → field ∈ m.fields → m.Takes depth t (field.write s) t'

/-- All of the fields carry their values from `s`, which changes `t` to `t'`. -/
inductive Carried (depth : Nat) (s : σ) : List (Field σ) → σ → σ → Prop where
  | nil {t : σ} : Carried depth s [] t t
  | cons {field : Field σ} {fields : List (Field σ)} {t t₁ t' : σ} :
      field.Carries depth s t t₁ → Carried depth s fields t₁ t' →
        Carried depth s (field :: fields) t t'

theorem Carried.takes {m : Message σ} (hm : m.WellTagged) {depth : Nat} {s t t' : σ}
    {fields : List (Field σ)} (h : Carried depth s fields t t') (hsub : fields ⊆ m.fields)
    (hsize : (fields.flatMap (·.write s)).length < UInt64.size) :
    m.Takes depth t (fields.flatMap (·.write s)) t' := by
  -- field by field, each on what the fields before it left
  induction h with
  | nil => exact m.takes_nil depth _
  | cons hfield _ ih =>
    rw [List.flatMap_cons, List.length_append] at hsize
    rw [List.flatMap_cons]
    exact (hfield (by omega) m hm (hsub List.mem_cons_self)).append
      (ih (fun f hf => hsub (List.mem_cons_of_mem _ hf)) (by omega))

namespace Message

/-- A message that carries its fields from each message to the empty one. -/
structure Lossless (m : Message σ) (depth : Nat) : Prop where
  wellTagged : m.WellTagged
  carried : ∀ s, Carried depth s m.fields m.initial s

theorem Lossless.takes {m : Message σ} {depth : Nat} (hm : m.Lossless depth) {s : σ}
    (hsize : (m.encode s).length < UInt64.size) : m.Takes depth m.initial (m.encode s) s :=
  (hm.carried s).takes hm.wellTagged (List.Subset.refl _) hsize

/-- What is written is read back, if it is short enough to have a length. -/
theorem Lossless.decode_encode {m : Message σ} (hm : m.Lossless maxDepth) {s : σ}
    (hsize : (m.encode s).length < UInt64.size) : m.decode (m.encode s) = .ok s :=
  decode_of_takes (hm.takes hsize)

end Message
end ScanArchive.Wire
