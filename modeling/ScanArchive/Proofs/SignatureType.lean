import Mathlib
import ScanArchive.Proofs.Dict
import ScanArchive.SignatureType

/-!
# Signatures under other keys

Signatures go from names to ordinals and back without a loss, or not at all.  Main statement:
`maps_convert_losslessly`.  Both directions are instances of one conversion (`Converts`): what it
gives is known from the last values of the pairs, and what it refuses is the first unknown key.
-/

namespace ScanArchive.SignatureType

open Dict

/-! ## 1. The table -/

theorem name_injective : Function.Injective name := by
  intro a b h
  revert h
  cases a <;> cases b <;> decide

theorem ordinal_injective : Function.Injective ordinal := by
  intro a b h
  revert h
  cases a <;> cases b <;> decide

theorem ofName?_eq_some_iff {s : String} {t : SignatureType} :
    ofName? s = some t ↔ t.name = s := by
  constructor
  · intro h
    simpa using List.find?_some h
  · rintro rfl
    cases t <;> decide

theorem ordinal_of_getElem? {i : Nat} {t : SignatureType} (h : all[i]? = some t) :
    t.ordinal = Int32.ofNat i := by
  have hlt : i < 7 := (List.getElem?_eq_some_iff.1 h).1
  interval_cases i <;> cases h <;> rfl

theorem ofOrdinal?_eq_some_iff {key : Int32} {t : SignatureType} :
    ofOrdinal? key = some t ↔ t.ordinal = key := by
  constructor
  · intro h
    unfold ofOrdinal? at h
    split at h
    · cases h
    · rename_i hnonneg
      rw [ordinal_of_getElem? h, Int32.ofNat_toNatClampNeg key (Int32.not_lt.1 hnonneg)]
  · rintro rfl
    cases t <;> decide

/-! ## 2. Conversion of keys -/

variable {κ κ' : Type}

/-- Keys of types are converted to other keys of the same types, and no other keys are. -/
structure Converts (convertKey : κ → Except ValidationError κ') (key : SignatureType → κ)
    (key' : SignatureType → κ') (spell : κ → String) : Prop where
  known : ∀ t, convertKey (key t) = .ok (key' t)
  unknown : ∀ k, k ∉ Set.range key → convertKey k = .error (.unknownSignatureType (spell k))
  injective : Function.Injective key
  injective' : Function.Injective key'

theorem converts_encodeKey : Converts encodeKey name ordinal id where
  known t := by rw [encodeKey, ofName?_eq_some_iff.2 rfl]
  unknown k hk := by
    cases h : ofName? k with
    | none => rw [encodeKey, h, id]
    | some t => exact absurd ⟨t, ofName?_eq_some_iff.1 h⟩ hk
  injective := name_injective
  injective' := ordinal_injective

theorem converts_decodeKey : Converts decodeKey ordinal name toString where
  known t := by rw [decodeKey, ofOrdinal?_eq_some_iff.2 rfl]
  unknown k hk := by
    cases h : ofOrdinal? k with
    | none => rw [decodeKey, h]
    | some t => exact absurd ⟨t, ofOrdinal?_eq_some_iff.1 h⟩ hk
  injective := ordinal_injective
  injective' := name_injective

def Known (key : SignatureType → κ) (pairs : List (κ × String)) : Prop :=
  ∀ pair ∈ pairs, pair.1 ∈ Set.range key

/-- The key stands in the pairs and is not that of any type, and all keys before it are. -/
def FirstUnknown (key : SignatureType → κ) (pairs : List (κ × String)) (k : κ) : Prop :=
  ∃ front value back, pairs = front ++ (k, value) :: back ∧ Known key front ∧ k ∉ Set.range key

theorem known_or_firstUnknown (key : SignatureType → κ) (pairs : List (κ × String)) :
    Known key pairs ∨ ∃ k, FirstUnknown key pairs k := by
  classical
  cases h : pairs.find? (fun pair => decide (pair.1 ∉ Set.range key)) with
  | none => exact .inl fun pair hpair => by simpa using List.find?_eq_none.1 h pair hpair
  | some pair =>
    obtain ⟨hunknown, front, back, heq, hfront⟩ := List.find?_eq_some_iff_append.1 h
    refine .inr ⟨pair.1, front, pair.2, back, heq, fun p hp => ?_, by simpa using hunknown⟩
    simpa using hfront p hp

namespace Converts

variable [Ord κ'] [Std.TransOrd κ'] [Std.LawfulEqOrd κ']
  {convertKey : κ → Except ValidationError κ'} {key : SignatureType → κ}
  {key' : SignatureType → κ'} {spell : κ → String} {pairs : List (κ × String)} {k : κ}

theorem convert_typed (h : Converts convertKey key key' spell)
    (typed : List (SignatureType × String)) :
    convert convertKey (typed.map fun pair => (key pair.1, pair.2))
      = .ok (ofList (typed.map fun pair => (key' pair.1, pair.2))) := by
  have hpairs : (typed.map fun pair => (key pair.1, pair.2)).mapM
      (fun pair => (convertKey pair.1).map fun k => (k, pair.2))
        = .ok (typed.map fun pair => (key' pair.1, pair.2)) := by
    induction typed with
    | nil => rfl
    | cons pair typed ih =>
      rw [List.map_cons, List.mapM_cons, ih, h.known]
      rfl
  rw [convert, hpairs]
  rfl

theorem exists_of_known (h : Converts convertKey key key' spell) (hknown : Known key pairs) :
    ∃ d, convert convertKey pairs = .ok d ∧ Known key' d.toList ∧
      ∀ t value, (key' t, value) ∈ d.toList ↔ LastValue pairs (key t) value := by
  obtain ⟨typed, rfl⟩ : pairs ∈ Set.range
      (List.map fun pair : SignatureType × String => (key pair.1, pair.2)) := by
    rw [Set.range_list_map]
    intro pair hpair
    obtain ⟨t, ht⟩ := hknown pair hpair
    exact ⟨(t, pair.2), Prod.ext ht rfl⟩
  refine ⟨_, h.convert_typed typed, fun entry hentry => ?_, fun t value => ?_⟩
  · obtain ⟨pair, -, heq⟩ := List.mem_map.1 (mem_ofList.1 hentry).mem
    exact ⟨pair.1, congrArg Prod.fst heq⟩
  · rw [mem_ofList, lastValue_map h.injective', lastValue_map h.injective]

theorem eq_error_of_firstUnknown (h : Converts convertKey key key' spell)
    (hk : FirstUnknown key pairs k) :
    convert convertKey pairs = .error (.unknownSignatureType (spell k)) := by
  obtain ⟨front, value, back, rfl, hfront, hunknown⟩ := hk
  have hpairs : (front ++ (k, value) :: back).mapM
      (fun pair => (convertKey pair.1).map fun k => (k, pair.2))
        = .error (.unknownSignatureType (spell k)) := by
    -- the known keys in front are passed over
    induction front with
    | nil =>
      rw [List.nil_append, List.mapM_cons, h.unknown k hunknown]
      rfl
    | cons pair front ih =>
      obtain ⟨⟨t, ht⟩, hfront⟩ := List.forall_mem_cons.1 hfront
      rw [List.cons_append, List.mapM_cons, ih hfront, ← ht, h.known]
      rfl
  rw [convert, hpairs]
  rfl

/-- Pairs are refused for the first key that is unknown, and for nothing else. -/
theorem eq_error_iff (h : Converts convertKey key key' spell) {e : ValidationError} :
    convert convertKey pairs = .error e ↔
      ∃ k, FirstUnknown key pairs k ∧ e = .unknownSignatureType (spell k) := by
  constructor
  · intro he
    rcases known_or_firstUnknown key pairs with hknown | ⟨k, hk⟩
    · obtain ⟨d, hd, -⟩ := h.exists_of_known hknown
      rw [hd] at he
      cases he
    · rw [h.eq_error_of_firstUnknown hk] at he
      exact ⟨k, hk, (Except.error.inj he).symm⟩
  · rintro ⟨k, hk, rfl⟩
    exact h.eq_error_of_firstUnknown hk

theorem known_of_eq_ok (h : Converts convertKey key key' spell) {d : Dict κ'}
    (hd : convert convertKey pairs = .ok d) : Known key pairs := by
  rcases known_or_firstUnknown key pairs with hknown | ⟨k, hk⟩
  · exact hknown
  · rw [h.eq_error_of_firstUnknown hk] at hd
    cases hd

theorem exists_back [Ord κ] [Std.TransOrd κ] [Std.LawfulEqOrd κ]
    {convertBack : κ' → Except ValidationError κ} {spell' : κ' → String}
    (h : Converts convertKey key key' spell) (hback : Converts convertBack key' key spell')
    (hknown : Known key pairs) :
    ∃ there back, convert convertKey pairs = .ok there ∧
      convert convertBack there.toList = .ok back ∧
      ∀ k value, (k, value) ∈ back.toList ↔ LastValue pairs k value := by
  obtain ⟨there, hthere, hthereKnown, hthereValues⟩ := h.exists_of_known hknown
  obtain ⟨back, hbackward, hbackKnown, hbackValues⟩ := hback.exists_of_known hthereKnown
  refine ⟨there, back, hthere, hbackward, fun k value => ?_⟩
  have hvalues : ∀ t, (key t, value) ∈ back.toList ↔ LastValue pairs (key t) value := fun t => by
    rw [hbackValues, lastValue_iff_mem there.pairwise_ne, hthereValues]
  constructor
  · intro hmem
    obtain ⟨t, rfl⟩ := hbackKnown _ hmem
    exact (hvalues t).1 hmem
  · intro hlast
    obtain ⟨t, rfl⟩ := hknown _ hlast.mem
    exact (hvalues t).2 hlast

end Converts

/-! ## 3. Signatures -/

theorem firstUnknown_iff_isLeast {wire : Dict Int32} {k : Int32} :
    FirstUnknown ordinal wire.toList k ↔
      IsLeast {k | k ∈ wire.toList.map Prod.fst ∧ k ∉ Set.range ordinal} k := by
  -- the keys of a dictionary ascend, so that the first is the least
  constructor
  · rintro ⟨front, value, back, heq, hfront, hunknown⟩
    have hsorted := wire.sorted
    rw [heq, List.pairwise_append] at hsorted
    refine ⟨⟨by simp [heq], hunknown⟩, ?_⟩
    rintro other ⟨hother, hotherUnknown⟩
    obtain ⟨pair, hpair, rfl⟩ := List.mem_map.1 hother
    rw [heq] at hpair
    rcases List.mem_append.1 hpair with hpair | hpair
    · exact absurd (hfront pair hpair) hotherUnknown
    · rcases List.mem_cons.1 hpair with rfl | hpair
      · exact Int32.le_refl _
      · have hlt := (List.pairwise_cons.1 hsorted.2.1).1 pair hpair
        exact Int32.le_of_lt (Std.compare_eq_lt.1 hlt)
  · rintro ⟨⟨hk, hunknown⟩, hleast⟩
    obtain ⟨⟨k, value⟩, hpair, rfl⟩ := List.mem_map.1 hk
    obtain ⟨front, back, heq⟩ := List.append_of_mem hpair
    refine ⟨front, value, back, heq, fun pair hfront => ?_, hunknown⟩
    by_contra hpairUnknown
    have hsorted := wire.sorted
    rw [heq, List.pairwise_append] at hsorted
    have hlt := Std.compare_eq_lt.1 (hsorted.2.2 pair hfront _ List.mem_cons_self)
    have hmem : pair.1 ∈ wire.toList.map Prod.fst :=
      List.mem_map_of_mem (heq ▸ List.mem_append_left _ hfront)
    exact Int32.lt_irrefl (Int32.lt_of_lt_of_le hlt (hleast ⟨hmem, hpairUnknown⟩))

/--
Signatures under names are put under ordinals just if all names are in the table, and then they
come back with the last value of each name; otherwise the first name that is not in the table is
refused.  Signatures under ordinals are put under names just if all ordinals are in the table, and
then they come back as they were; otherwise the smallest ordinal that is not in it is refused.
-/
theorem maps_convert_losslessly (pairs : List (String × String)) (wire : Dict Int32) :
    (Known name pairs ↔
      ∃ encoded decoded, encodeMap pairs = .ok encoded ∧ decodeMap encoded = .ok decoded ∧
        ∀ name value, (name, value) ∈ decoded.toList ↔ LastValue pairs name value) ∧
    (∀ e, encodeMap pairs = .error e ↔
      ∃ unknown, FirstUnknown name pairs unknown ∧ e = .unknownSignatureType unknown) ∧
    (Known ordinal wire.toList ↔
      ∃ decoded, decodeMap wire = .ok decoded ∧ encodeMap decoded.toList = .ok wire) ∧
    (∀ e, decodeMap wire = .error e ↔
      ∃ unknown,
        IsLeast {k | k ∈ wire.toList.map Prod.fst ∧ k ∉ Set.range ordinal} unknown ∧
        e = .unknownSignatureType (toString unknown)) := by
  refine ⟨⟨fun hknown => ?_, ?_⟩, fun e => converts_encodeKey.eq_error_iff, ⟨fun hknown => ?_, ?_⟩,
    fun e => ?_⟩
  · exact converts_encodeKey.exists_back converts_decodeKey hknown
  · rintro ⟨encoded, -, hencoded, -⟩
    exact converts_encodeKey.known_of_eq_ok hencoded
  · obtain ⟨decoded, encoded, hdecoded, hencoded, hvalues⟩ :=
      converts_decodeKey.exists_back converts_encodeKey hknown
    have hsame : encoded = wire := Dict.ext_mem fun key value =>
      (hvalues key value).trans (lastValue_iff_mem wire.pairwise_ne)
    exact ⟨decoded, hdecoded, hsame ▸ hencoded⟩
  · rintro ⟨decoded, hdecoded, -⟩
    exact converts_decodeKey.known_of_eq_ok hdecoded
  · refine converts_decodeKey.eq_error_iff.trans (exists_congr fun k => ?_)
    rw [firstUnknown_iff_isLeast]

example : encodeMap [("DEEP_NO_SIZE", "a"), ("MATCH_SHA1", "b"), ("DEEP_NO_SIZE", "c")]
    = .ok (.ofList [(0, "b"), (3, "c")]) := by
  decide

end ScanArchive.SignatureType
