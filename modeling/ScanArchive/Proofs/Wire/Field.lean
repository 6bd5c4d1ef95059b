import ScanArchive.Proofs.Wire.Message

/-!
# Fields carry their values

One lemma for each kind of field: reading what the field writes for a message `s` into a message
`t` that is blank in this field puts the value of `s` into `t`.
-/

namespace ScanArchive

/-! ## 1. Dictionaries in ascending order -/

namespace Dict

variable {κ : Type} [Ord κ]

theorem insertEntry_of_forall_lt [Std.OrientedOrd κ] {key : κ} {value : String}
    {entries : List (κ × String)} (h : ∀ entry ∈ entries, compare entry.1 key = .lt) :
    insertEntry key value entries = entries ++ [(key, value)] := by
  induction entries with
  | nil => rfl
  | cons e rest ih =>
    have hgt : compare key e.1 = .gt := Std.OrientedCmp.gt_iff_lt.2 (h e List.mem_cons_self)
    rw [insertEntry, hgt]
    simp only [List.cons_append, List.cons.injEq, true_and]
    exact ih fun entry he => h entry (List.mem_cons_of_mem _ he)

end Dict

namespace Wire

variable {σ α κ : Type}

/-- A part of a message that is read and replaced as a value of its own. -/
structure Access (get : σ → α) (put : σ → α → σ) : Prop where
  get_put : ∀ s a, get (put s a) = a
  put_get : ∀ s, put s (get s) = s
  put_put : ∀ s a b, put (put s a) b = put s b

namespace Field

/-! ## 2. Scalars -/

theorem mergeScalar_write {scalar : Scalar α} (hs : scalar.Reads) (put : σ → α → σ) {t : σ} {a : α}
    (hsize : (scalar.write a).length < UInt64.size) (rest : Bytes) :
    mergeScalar scalar put scalar.wireType t (scalar.write a ++ rest) = .ok (put t a, rest) := by
  rw [mergeScalar, readScalar, if_pos rfl, hs a rest hsize]
  rfl

theorem length_write_le (scalar : Scalar α) (tag : Nat) (a : α) :
    (scalar.write a).length ≤ (writeScalar scalar tag a).length := by
  rw [writeScalar, List.length_append]
  omega

variable {get : σ → α} {put : σ → α → σ} {name : String} {tag depth : Nat} {s t : σ}

theorem carries_plain [DecidableEq α] {scalar : Scalar α} (hs : scalar.Reads)
    (ht : put t scalar.zero = t) :
    (plain scalar name tag get put).Carries depth s t (put t (get s)) := by
  intro hsize m hm hf
  show m.Takes depth t (if get s = scalar.zero then [] else writeScalar scalar tag (get s)) _
  change (if get s = scalar.zero then [] else writeScalar scalar tag (get s)).length < _ at hsize
  by_cases hzero : get s = scalar.zero
  · rw [if_pos hzero, hzero, ht]
    exact m.takes_nil depth t
  · rw [if_neg hzero] at hsize ⊢
    have hlen := Nat.lt_of_le_of_lt (length_write_le scalar tag (get s)) hsize
    exact Message.takes_of_merge hm hf (mergeScalar_write hs put hlen)

theorem carries_optional {get : σ → Option α} {put : σ → Option α → σ} {scalar : Scalar α}
    (hs : scalar.Reads) (ht : put t none = t) :
    (optional scalar name tag get put).Carries depth s t (put t (get s)) := by
  intro hsize m hm hf
  show m.Takes depth t ((get s).elim [] (writeScalar scalar tag)) _
  change ((get s).elim [] (writeScalar scalar tag)).length < _ at hsize
  cases hv : get s with
  | none =>
    show m.Takes depth t [] (put t none)
    rw [ht]
    exact m.takes_nil depth t
  | some a =>
    rw [hv] at hsize
    have hlen := Nat.lt_of_le_of_lt (length_write_le scalar tag a) hsize
    exact Message.takes_of_merge hm hf
      (mergeScalar_write hs (fun s a => put s (some a)) hlen)

/-! ## 3. Lists -/

theorem carries_repeated {get : σ → List α} {put : σ → List α → σ} {scalar : Scalar α}
    (hs : scalar.Reads) (ha : Access get put) (ht : get t = []) :
    (repeated scalar name tag get put).Carries depth s t (put t (get s)) := by
  intro hsize m hm hf
  show m.Takes depth t ((get s).flatMap (writeScalar scalar tag)) _
  change ((get s).flatMap (writeScalar scalar tag)).length < _ at hsize
  -- elements are added behind those that were read before
  suffices h : ∀ (values : List α) (t : σ),
      (values.flatMap (writeScalar scalar tag)).length < UInt64.size →
        m.Takes depth t (values.flatMap (writeScalar scalar tag)) (put t (get t ++ values)) by
    simpa only [ht, List.nil_append] using h (get s) t hsize
  intro values
  induction values with
  | nil =>
    intro t _
    rw [List.append_nil, ha.put_get]
    exact m.takes_nil depth t
  | cons a values ih =>
    intro t hsize
    rw [List.flatMap_cons, List.length_append] at hsize
    have hlen : (scalar.write a).length < UInt64.size :=
      Nat.lt_of_le_of_lt (length_write_le scalar tag a) (by omega)
    have hhead : m.Takes depth t (writeScalar scalar tag a) (put t (get t ++ [a])) :=
      Message.takes_of_merge hm hf
        (mergeScalar_write hs (fun s a => put s (get s ++ [a])) hlen)
    have htail := ih (put t (get t ++ [a])) (by omega)
    rw [ha.get_put, ha.put_put, List.append_assoc] at htail
    exact hhead.append htail

/-- The numbers of a packed list, the last one first. -/
theorem packedStep_repeatUntil {toNat : α → Nat} {ofNat : Nat → α}
    (hlt : ∀ a, toNat a < UInt64.size) (hback : ∀ a, ofNat (toNat a) = a) (values latest : List α)
    (rest : Bytes) :
    (packedStep ofNat).repeatUntil rest.length latest
        ((values.flatMap fun a => Varint.encode (toNat a)) ++ rest)
      = .ok (values.reverse ++ latest, rest) := by
  induction values generalizing latest with
  | nil => exact Step.repeatUntil_length _ latest rest
  | cons a values ih =>
    rw [List.flatMap_cons, List.append_assoc]
    have hrun : (packedStep ofNat).run latest
        (Varint.encode (toNat a) ++ ((values.flatMap fun a => Varint.encode (toNat a)) ++ rest))
          = .ok (a :: latest, (values.flatMap fun a => Varint.encode (toNat a)) ++ rest) := by
      show (readVarint _).map _ = _
      rw [readVarint_eq_ok_iff.2 (Varint.read_encode (hlt a) _)]
      simp only [Except.map, hback]
    have hpos := Varint.length_encode_pos (toNat a)
    rw [Step.repeatUntil_of_run hrun (by simp only [List.length_append]; omega), ih,
      List.reverse_cons, List.append_assoc, List.singleton_append]

theorem carries_packed {get : σ → List α} {put : σ → List α → σ} {toNat : α → Nat}
    {ofNat : Nat → α} (hlt : ∀ a, toNat a < UInt64.size) (hback : ∀ a, ofNat (toNat a) = a)
    (ht : get t = []) (hput : put t [] = t) :
    (packed toNat ofNat name tag get put).Carries depth s t (put t (get s)) := by
  intro hsize m hm hf
  show m.Takes depth t (if (get s).isEmpty then [] else _) _
  change (if (get s).isEmpty then [] else _).length < _ at hsize
  by_cases hnil : (get s).isEmpty
  · rw [if_pos hnil, List.isEmpty_iff.1 hnil, hput]
    exact m.takes_nil depth t
  · rw [if_neg hnil] at hsize ⊢
    rw [List.length_append] at hsize
    refine Message.takes_of_merge hm hf fun rest => ?_
    have hlen := length_le_length_delimited ((get s).flatMap fun a => Varint.encode (toNat a))
    have hblock : (packedStep ofNat).block []
        (delimited ((get s).flatMap fun a => Varint.encode (toNat a)) ++ rest)
          = .ok ((get s).reverse, rest) :=
      Step.block_delimited (by omega) (by
        rw [packedStep_repeatUntil hlt hback, List.append_nil])
    simp only [packed, if_true, hblock, Except.map, ht, List.nil_append, List.reverse_reverse]

/-! ## 4. Messages and dictionaries -/

theorem mergeNested_encode {m : Message α} {depth : Nat} {inner : α}
    (hsize : (m.encode inner).length < UInt64.size)
    (h : m.Takes depth m.initial (m.encode inner) inner) (rest : Bytes) :
    mergeNested m (depth + 1) m.initial (delimited (m.encode inner) ++ rest)
      = .ok (inner, rest) :=
  Step.block_delimited hsize (by
    rw [h rest.length rest (Nat.le_refl _), Step.repeatUntil_length])

theorem carries_message {get : σ → Option α} {put : σ → Option α → σ} {inner : Message α}
    (hi : inner.Lossless depth) (ht : get t = none) (hput : put t none = t) :
    (message inner name tag get put).Carries (depth + 1) s t (put t (get s)) := by
  intro hsize m hm hf
  show m.Takes (depth + 1) t ((get s).elim [] _) _
  change ((get s).elim [] _).length < _ at hsize
  cases hv : get s with
  | none =>
    show m.Takes (depth + 1) t [] (put t none)
    rw [hput]
    exact m.takes_nil (depth + 1) t
  | some v =>
    rw [hv, Option.elim_some, List.length_append] at hsize
    have hlen := length_le_length_delimited (inner.encode v)
    have hinner : (inner.encode v).length < UInt64.size := by omega
    refine Message.takes_of_merge hm hf fun rest => ?_
    have hread := mergeNested_encode hinner (hi.takes hinner) rest
    simp only [message, if_true, ht, Option.getD_none, hread, Except.map]

theorem lossless_entryMessage [DecidableEq κ] {key : Scalar κ} (hk : key.Reads) (depth : Nat) :
    (entryMessage key).Lossless depth where
  wellTagged := ⟨show [1, 2].Nodup by decide,
    show ∀ tag ∈ [1, 2], 0 < tag ∧ tag < 0x20000000 by decide⟩
  carried entry :=
    .cons (carries_plain hk rfl) <| .cons (carries_plain Scalar.reads_text rfl) .nil

theorem carries_dict [DecidableEq κ] [Ord κ] [Std.TransOrd κ] [Std.LawfulEqOrd κ]
    {get : σ → Dict κ} {put : σ → Dict κ → σ} {key : Scalar κ} (hk : key.Reads)
    (ha : Access get put) (ht : get t = .empty) :
    (dict key name tag get put).Carries (depth + 1) s t (put t (get s)) := by
  intro hsize m hm hf
  show m.Takes (depth + 1) t ((get s).toList.flatMap fun entry =>
    Key.encode ⟨tag, .lengthDelimited⟩ ++ delimited ((entryMessage key).encode entry)) _
  change ((get s).toList.flatMap fun entry => Key.encode ⟨tag, .lengthDelimited⟩
    ++ delimited ((entryMessage key).encode entry)).length < _ at hsize
  -- entries come in ascending order, so that each is put behind those that were read before
  suffices h : ∀ (entries : List (κ × String)) (t : σ) (d : Dict κ),
      d.toList = (get t).toList ++ entries →
      (entries.flatMap fun entry => Key.encode ⟨tag, .lengthDelimited⟩
        ++ delimited ((entryMessage key).encode entry)).length < UInt64.size →
        m.Takes (depth + 1) t (entries.flatMap fun entry => Key.encode ⟨tag, .lengthDelimited⟩
          ++ delimited ((entryMessage key).encode entry)) (put t d) from
    h (get s).toList t (get s) (by rw [ht]; rfl) hsize
  intro entries
  induction entries with
  | nil =>
    intro t d hd _
    have hd : d = get t := Dict.ext (by rw [hd, List.append_nil])
    rw [hd, ha.put_get]
    exact m.takes_nil (depth + 1) t
  | cons entry entries ih =>
    intro t d hd hsize
    simp only [List.flatMap_cons, List.length_append] at hsize
    have hlen := length_le_length_delimited ((entryMessage key).encode entry)
    have hsorted := hd ▸ d.sorted
    have hbefore : ∀ e ∈ (get t).toList, compare e.1 entry.1 = .lt := fun e he =>
      (List.pairwise_append.1 hsorted).2.2 e he entry List.mem_cons_self
    have hinsert : ((get t).insert entry.1 entry.2).toList = (get t).toList ++ [entry] :=
      Dict.insertEntry_of_forall_lt hbefore
    have hhead : m.Takes (depth + 1) t (Key.encode ⟨tag, .lengthDelimited⟩
        ++ delimited ((entryMessage key).encode entry))
          (put t ((get t).insert entry.1 entry.2)) := by
      refine Message.takes_of_merge hm hf fun rest => ?_
      show (mergeNested (entryMessage key) (depth + 1) (entryMessage key).initial _).map _ = _
      rw [mergeNested_encode (by omega) ((lossless_entryMessage hk depth).takes (by omega)) rest]
      rfl
    have htail := ih (put t ((get t).insert entry.1 entry.2)) d
      (by rw [ha.get_put, hinsert, List.append_assoc]; exact hd) (by omega)
    rw [ha.put_put] at htail
    rw [List.flatMap_cons]
    exact hhead.append htail

end Field
end Wire
end ScanArchive
