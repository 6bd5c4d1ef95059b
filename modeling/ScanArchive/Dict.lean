/-!
# Dictionaries

Finite maps kept as lists in ascending order of their keys.  The order is part of the type, so
two dictionaries with the same entries are equal.
-/

namespace ScanArchive

/-- A finite map from keys to texts. -/
structure Dict (κ : Type) [Ord κ] where
  toList : List (κ × String)
  sorted : toList.Pairwise fun a b => compare a.1 b.1 = .lt

namespace Dict

variable {κ : Type} [Ord κ]

@[ext] theorem ext {a b : Dict κ} (h : a.toList = b.toList) : a = b := by
  cases a; cases b; simp_all

instance [DecidableEq κ] : DecidableEq (Dict κ) := fun a b =>
  decidable_of_iff (a.toList = b.toList) ⟨ext, fun h => h ▸ rfl⟩

def empty : Dict κ := ⟨[], .nil⟩

instance : EmptyCollection (Dict κ) := ⟨empty⟩

instance : Inhabited (Dict κ) := ⟨empty⟩

def insertEntry (key : κ) (value : String) : List (κ × String) → List (κ × String)
  | [] => [(key, value)]
  | entry :: rest =>
    match compare key entry.1 with
    | .lt => (key, value) :: entry :: rest
    | .eq => (key, value) :: rest
    | .gt => entry :: insertEntry key value rest

theorem mem_insertEntry {key : κ} {value : String} {entries : List (κ × String)}
    {entry : κ × String} (h : entry ∈ insertEntry key value entries) :
    entry = (key, value) ∨ entry ∈ entries := by
  induction entries with
  | nil => simpa [insertEntry] using h
  | cons e rest ih =>
    rw [insertEntry] at h
    split at h
    · simpa using h
    · rcases List.mem_cons.1 h with h | h
      · exact .inl h
      · exact .inr (List.mem_cons_of_mem _ h)
    · rcases List.mem_cons.1 h with h | h
      · exact .inr (h ▸ List.mem_cons_self)
      · exact (ih h).imp_right (List.mem_cons_of_mem _)

theorem sorted_insertEntry [Std.TransOrd κ] [Std.LawfulEqOrd κ] (key : κ) (value : String)
    {entries : List (κ × String)} (h : entries.Pairwise fun a b => compare a.1 b.1 = .lt) :
    (insertEntry key value entries).Pairwise fun a b => compare a.1 b.1 = .lt := by
  induction entries with
  | nil => simp [insertEntry]
  | cons e rest ih =>
    obtain ⟨he, hrest⟩ := List.pairwise_cons.1 h
    rw [insertEntry]
    split
    · rename_i hlt
      refine List.pairwise_cons.2 ⟨fun x hx => ?_, h⟩
      rcases List.mem_cons.1 hx with rfl | hx
      · exact hlt
      · exact Std.TransCmp.lt_trans hlt (he x hx)
    · rename_i heq
      obtain rfl := Std.LawfulEqCmp.eq_of_compare heq
      exact List.pairwise_cons.2 ⟨he, hrest⟩
    · rename_i hgt
      refine List.pairwise_cons.2 ⟨fun x hx => ?_, ih hrest⟩
      rcases mem_insertEntry hx with rfl | hx
      · exact Std.OrientedCmp.gt_iff_lt.1 hgt
      · exact he x hx

variable [Std.TransOrd κ] [Std.LawfulEqOrd κ]

/-- The dictionary with one more entry; an entry of the same key is replaced. -/
def insert (d : Dict κ) (key : κ) (value : String) : Dict κ :=
  ⟨insertEntry key value d.toList, sorted_insertEntry key value d.sorted⟩

/-- The dictionary of a list of pairs, of which a later one replaces an earlier one. -/
def ofList (pairs : List (κ × String)) : Dict κ :=
  pairs.foldl (fun d pair => d.insert pair.1 pair.2) empty

end Dict
end ScanArchive
