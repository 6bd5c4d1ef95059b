import Mathlib
import ScanArchive.Dict

/-!
# The entries of dictionaries

What a dictionary of some pairs holds: for each key the value of its last pair (`mem_ofList`).  A
dictionary is given by its entries (`ext_mem`).
-/

namespace ScanArchive.Dict

variable {κ : Type} {key k : κ} {value v : String} {pairs : List (κ × String)}

/-! ## 1. Last values -/

/-- The value stands in the last of the pairs with the key. -/
def LastValue (pairs : List (κ × String)) (key : κ) (value : String) : Prop :=
  ∃ before after, pairs = before ++ (key, value) :: after ∧ ∀ pair ∈ after, pair.1 ≠ key

theorem LastValue.mem (h : LastValue pairs key value) : (key, value) ∈ pairs := by
  obtain ⟨before, after, rfl, -⟩ := h
  exact List.mem_append_right _ List.mem_cons_self

theorem not_lastValue_nil : ¬ LastValue [] key value := fun h => List.not_mem_nil h.mem

theorem lastValue_concat :
    LastValue (pairs ++ [(k, v)]) key value ↔
      key = k ∧ value = v ∨ key ≠ k ∧ LastValue pairs key value := by
  -- the new pair comes last of all, so it decides for its own key and for no other
  constructor
  · rintro ⟨before, after, heq, hafter⟩
    rcases List.eq_nil_or_concat' after with rfl | ⟨init, last, rfl⟩
    · obtain ⟨-, hlast⟩ := List.append_inj' heq rfl
      obtain ⟨rfl, rfl⟩ := Prod.mk.inj (List.cons.inj hlast).1
      exact .inl ⟨rfl, rfl⟩
    · rw [← List.cons_append, ← List.append_assoc] at heq
      obtain ⟨rfl, hlast⟩ := List.append_inj' heq rfl
      obtain rfl := (List.cons.inj hlast).1
      refine .inr ⟨fun hkey => hafter (k, v) (by simp) hkey.symm, before, init, rfl, ?_⟩
      exact fun pair hpair => hafter pair (List.mem_append_left _ hpair)
  · rintro (⟨rfl, rfl⟩ | ⟨hne, before, after, rfl, hafter⟩)
    · exact ⟨pairs, [], rfl, by simp⟩
    · refine ⟨before, after ++ [(k, v)], by simp, fun pair hpair => ?_⟩
      rcases List.mem_append.1 hpair with hpair | hpair
      · exact hafter pair hpair
      · rw [List.mem_singleton.1 hpair]
        exact hne.symm

theorem lastValue_iff_mem (h : pairs.Pairwise fun a b => a.1 ≠ b.1) :
    LastValue pairs key value ↔ (key, value) ∈ pairs := by
  refine ⟨LastValue.mem, fun hmem => ?_⟩
  obtain ⟨before, after, rfl⟩ := List.append_of_mem hmem
  have hafter := (List.pairwise_cons.1 (List.pairwise_append.1 h).2.1).1
  exact ⟨before, after, rfl, fun pair hpair => (hafter pair hpair).symm⟩

theorem lastValue_map {κ' : Type} {f : κ → κ'} (hf : Function.Injective f) :
    LastValue (pairs.map fun pair => (f pair.1, pair.2)) (f key) value ↔
      LastValue pairs key value := by
  induction pairs using List.reverseRecOn with
  | nil => simp only [List.map_nil, not_lastValue_nil]
  | append_singleton pairs pair ih =>
    obtain ⟨k, v⟩ := pair
    rw [List.map_append, List.map_singleton, lastValue_concat, lastValue_concat, ih, hf.eq_iff,
      hf.ne_iff]

/-! ## 2. Entries -/

variable [Ord κ] [Std.LawfulEqOrd κ]

theorem ne_of_compare_lt (h : compare key k = .lt) : key ≠ k := by
  rintro rfl
  rw [Std.ReflOrd.compare_self] at h
  cases h

theorem pairwise_ne (d : Dict κ) : d.toList.Pairwise fun a b => a.1 ≠ b.1 :=
  d.sorted.imp ne_of_compare_lt

variable [Std.TransOrd κ]

theorem mem_insertEntry_iff {entry : κ × String}
    (hsorted : pairs.Pairwise fun a b => compare a.1 b.1 = .lt) :
    entry ∈ insertEntry key value pairs ↔
      entry = (key, value) ∨ entry.1 ≠ key ∧ entry ∈ pairs := by
  induction pairs with
  | nil => simp [insertEntry]
  | cons first rest ih =>
    obtain ⟨hfirst, hrest⟩ := List.pairwise_cons.1 hsorted
    rw [insertEntry]
    cases hkey : compare key first.1 with
    | lt =>
      -- the key comes before all others
      have hother : entry ∈ first :: rest → entry.1 ≠ key := by
        intro hentry
        rcases List.mem_cons.1 hentry with rfl | hentry
        · exact (ne_of_compare_lt hkey).symm
        · exact (ne_of_compare_lt (Std.TransCmp.lt_trans hkey (hfirst entry hentry))).symm
      simp only [List.mem_cons] at hother ⊢
      tauto
    | eq =>
      obtain rfl := Std.LawfulEqCmp.eq_of_compare hkey
      have hother : entry ∈ rest → entry.1 ≠ first.1 := fun hentry =>
        (ne_of_compare_lt (hfirst entry hentry)).symm
      simp only [List.mem_cons]
      constructor
      · rintro (h | h)
        · exact .inl h
        · exact .inr ⟨hother h, .inr h⟩
      · rintro (h | ⟨hne, rfl | h⟩)
        · exact .inl h
        · exact absurd rfl hne
        · exact .inr h
    | gt =>
      have hne : first.1 ≠ key := ne_of_compare_lt (Std.OrientedCmp.gt_iff_lt.1 hkey)
      simp only [List.mem_cons, ih hrest]
      constructor
      · rintro (rfl | h | ⟨hother, h⟩)
        · exact .inr ⟨hne, .inl rfl⟩
        · exact .inl h
        · exact .inr ⟨hother, .inr h⟩
      · rintro (h | ⟨hother, rfl | h⟩)
        · exact .inr (.inl h)
        · exact .inl rfl
        · exact .inr (.inr ⟨hother, h⟩)

theorem mem_insert {d : Dict κ} :
    (key, value) ∈ (d.insert k v).toList ↔
      key = k ∧ value = v ∨ key ≠ k ∧ (key, value) ∈ d.toList := by
  rw [insert, mem_insertEntry_iff d.sorted, Prod.mk.injEq]

/-- Of the pairs with one key the last one counts. -/
theorem mem_ofList : (key, value) ∈ (ofList pairs).toList ↔ LastValue pairs key value := by
  induction pairs using List.reverseRecOn with
  | nil =>
    rw [iff_false_right not_lastValue_nil]
    exact List.not_mem_nil
  | append_singleton pairs pair ih =>
    rw [show ofList (pairs ++ [pair]) = (ofList pairs).insert pair.1 pair.2 from
      List.foldl_concat .., mem_insert, lastValue_concat, ih]

theorem ext_mem {a b : Dict κ}
    (h : ∀ key value, (key, value) ∈ a.toList ↔ (key, value) ∈ b.toList) : a = b := by
  have hnodup : ∀ d : Dict κ, d.toList.Nodup := fun d =>
    d.pairwise_ne.imp fun hne heq => hne (congrArg Prod.fst heq)
  have hperm : a.toList.Perm b.toList :=
    (List.perm_ext_iff_of_nodup (hnodup a) (hnodup b)).2 fun pair => h pair.1 pair.2
  refine ext (hperm.eq_of_pairwise (fun x y _ _ hxy hyx => ?_) a.sorted b.sorted)
  exact absurd hyx (Std.OrientedCmp.not_lt_of_lt hxy)

end ScanArchive.Dict
