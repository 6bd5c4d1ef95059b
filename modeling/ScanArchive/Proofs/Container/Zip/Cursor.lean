import ScanArchive.Container.Zip.Source

/-!
# Attempts on the entries of a ZIP file

What comes of one entry under every limit, `entry?_cases`, and which entries are passed over.  An
attempt on a file that is being read is an attempt on the source of what is left of it,
`next_eq_left`, so that successive attempts give what the visited entries give.
-/

namespace ScanArchive

/-! ## 1. One entry -/

namespace Zip.Central

variable {c : Central} {file : Bytes}

def checked (c : Central) (contents : Bytes) (isFaulty : Bool) : Except Error (Option Entry) :=
  if isFaulty then .error (.archive (.other ("read " ++ c.name ++ ": corrupt deflate stream")))
  else if (Crc32.checksum contents).toNat ≠ c.crc then
    .error (.archive (.other ("read " ++ c.name ++ ": Invalid checksum")))
  else .ok (some { name := c.name, data := contents })

theorem checked_cases (c : Central) (contents : Bytes) (isFaulty : Bool) :
    c.checked contents isFaulty = .ok (some { name := c.name, data := contents }) ∨
      ∃ e, c.checked contents isFaulty = .error e := by
  rw [checked]
  split
  · exact .inr ⟨_, rfl⟩
  · split
    · exact .inr ⟨_, rfl⟩
    · exact .inl rfl

/-- The limit applies to contents before anything else that is wrong with them. -/
theorem entry?_of_found {method : Method} {record lengths : Bytes}
    (hencrypted : ¬ c.encrypted = true)
    (hsigned : signed file c.offset 4 localSignature "Invalid local file header" = .ok record)
    (hlengths : slice file (c.offset + 26) 4 = .ok lengths) (hmethod : c.method = some method)
    (hsealed : ¬ c.isSealed = true) (hdirectory : ¬ c.isDirectory = true) :
    ∃ (contents : Bytes) (isFaulty : Bool), ∀ limit, c.entry? file limit =
      if limit < contents.length then .error (.archive (.entryTooLarge c.name limit))
      else c.checked contents isFaulty := by
  cases hunpack : method.unpack ((file.drop
      (c.offset + 30 + number lengths 0 2 + number lengths 2 2)).take c.packedSize) with
  | mk contents isFaulty =>
    refine ⟨contents, isFaulty, fun limit => ?_⟩
    unfold entry?
    rw [if_neg hencrypted, hsigned, hlengths, hmethod]
    simp only [bind, Except.bind, pure, Except.pure, if_neg hsealed, if_neg hdirectory, hunpack,
      checked]
    by_cases hlong : limit < contents.length
    · simp only [if_pos hlong]
      rfl
    · simp only [if_neg hlong]
      cases isFaulty with
      | true => rfl
      | false =>
        by_cases hcrc : (Crc32.checksum contents).toNat ≠ c.crc
        · simp only [if_pos hcrc]
          rfl
        · simp only [if_neg hcrc]
          rfl

/-- An entry fails whatever the limit, is a directory and passed over, or has contents. -/
theorem entry?_cases (c : Central) (file : Bytes) :
    (∃ e, ∀ limit, c.entry? file limit = .error e) ∨
    (c.isDirectory = true ∧ ∀ limit, c.entry? file limit = .ok none) ∨
    (¬ c.isDirectory = true ∧ ∃ (contents : Bytes) (isFaulty : Bool), ∀ limit,
      c.entry? file limit =
        if limit < contents.length then .error (.archive (.entryTooLarge c.name limit))
        else c.checked contents isFaulty) := by
  -- one check after another, in the order in which they are made; the limit is not looked at
  by_cases hencrypted : c.encrypted = true
  · refine .inl ⟨unsupported "Password required to decrypt file", fun limit => ?_⟩
    unfold entry?
    rw [if_pos hencrypted]
    rfl
  · cases hsigned : signed file c.offset 4 localSignature "Invalid local file header" with
    | error e =>
      refine .inl ⟨e, fun limit => ?_⟩
      unfold entry?
      rw [if_neg hencrypted, hsigned]
      rfl
    | ok record =>
      cases hlengths : slice file (c.offset + 26) 4 with
      | error e =>
        refine .inl ⟨e, fun limit => ?_⟩
        unfold entry?
        rw [if_neg hencrypted, hsigned, hlengths]
        rfl
      | ok lengths =>
        cases hmethod : c.method with
        | none =>
          refine .inl ⟨unsupported "Compression method not supported", fun limit => ?_⟩
          unfold entry?
          rw [if_neg hencrypted, hsigned, hlengths, hmethod]
          rfl
        | some method =>
          by_cases hsealed : c.isSealed = true
          · refine .inl ⟨unsupported "Password required to decrypt file", fun limit => ?_⟩
            unfold entry?
            rw [if_neg hencrypted, hsigned, hlengths, hmethod]
            simp only [bind, Except.bind, pure, Except.pure]
            rw [if_pos hsealed]
            rfl
          · by_cases hdirectory : c.isDirectory = true
            · refine .inr (.inl ⟨hdirectory, fun limit => ?_⟩)
              unfold entry?
              rw [if_neg hencrypted, hsigned, hlengths, hmethod]
              simp only [bind, Except.bind, pure, Except.pure, if_neg hsealed]
              rw [if_pos hdirectory]
            · refine .inr (.inr ⟨hdirectory, ?_⟩)
              exact entry?_of_found hencrypted hsigned hlengths hmethod hsealed hdirectory

theorem entry?_of_isDirectory (h : c.isDirectory = true) (limit : Nat) :
    c.entry? file limit = .ok none ∨ ∃ e, c.entry? file limit = .error e := by
  rcases entry?_cases c file with ⟨e, hfails⟩ | ⟨-, hpassed⟩ | ⟨hdirectory, -⟩
  · exact .inr ⟨e, hfails limit⟩
  · exact .inl (hpassed limit)
  · exact absurd h hdirectory

theorem isDirectory_of_entry?_eq_none {limit : Nat} (h : c.entry? file limit = .ok none) :
    c.isDirectory = true := by
  rcases entry?_cases c file with ⟨e, hfails⟩ | ⟨hdirectory, -⟩ | ⟨-, contents, isFaulty, hgives⟩
  · rw [hfails] at h
    cases h
  · exact hdirectory
  · -- contents are given or too large or faulty, but never nothing
    rw [hgives] at h
    by_cases hlong : limit < contents.length
    · rw [if_pos hlong] at h
      cases h
    · rw [if_neg hlong] at h
      rcases c.checked_cases contents isFaulty with hchecked | ⟨e, hchecked⟩ <;>
        rw [hchecked] at h <;> cases h

theorem entry?_of_eq_some {bound : Nat} {e : Entry} (h : c.entry? file bound = .ok (some e))
    (limit : Nat) : c.entry? file limit =
      if limit < e.data.length then .error (.archive (.entryTooLarge c.name limit))
      else .ok (some e) := by
  rcases entry?_cases c file with ⟨e', hfails⟩ | ⟨-, hpassed⟩ | ⟨-, contents, isFaulty, hgives⟩
  · rw [hfails] at h
    cases h
  · rw [hpassed] at h
    cases h
  · rw [hgives] at h
    by_cases hlong : bound < contents.length
    · rw [if_pos hlong] at h
      cases h
    · rw [if_neg hlong] at h
      -- neither a fault nor the checksum depends on the limit
      rcases c.checked_cases contents isFaulty with hchecked | ⟨e', hchecked⟩
      · rw [hchecked] at h
        cases h
        rw [hgives, hchecked]
      · rw [hchecked] at h
        cases h

/-- Whether the entry costs no attempt of its own. -/
def isPassedOver (c : Central) (file : Bytes) (limit : Nat) : Bool :=
  match c.entry? file limit with
  | .ok none => true
  | _ => false

theorem isPassedOver_iff {limit : Nat} :
    c.isPassedOver file limit = true ↔ c.entry? file limit = .ok none := by
  rw [isPassedOver]
  split
  · simp_all
  · simp_all

end Zip.Central

/-! ## 2. One attempt after another -/

def Source.attempts : Nat → Source → List (Except Error (Option Entry))
  | 0, _ => []
  | n + 1, source => source.next.1 :: attempts n source.next.2

theorem Source.attempts_eq (n : Nat) (source : Source) :
    source.attempts n = (source.take n).map (Except.map some)
      ++ List.replicate (n - source.length) (.ok none) := by
  induction n generalizing source with
  | zero => simp [attempts]
  | succ n ih =>
    rw [attempts, ih]
    cases source with
    | nil => simp [next, List.replicate_succ]
    | cons attempt rest => cases attempt <;> simp [next, Except.map]

namespace ZipCursor

variable {c : ZipCursor}

/-- What is left of the file, as a source. -/
def left (c : ZipCursor) : Source :=
  ({ c.zip with entries := c.zip.entries.drop c.tried } : ZipFile).source c.limit

theorem left_of_end (h : c.zip.entries[c.tried]? = none) : c.left = [] := by
  rw [left, List.drop_eq_nil_of_le (List.getElem?_eq_none_iff.1 h)]
  rfl

theorem left_of_entry {central : Zip.Central} (h : c.zip.entries[c.tried]? = some central) :
    c.left = match central.entry? c.zip.file c.limit with
      | .ok none => left { c with tried := c.tried + 1 }
      | .ok (some entry) => .ok entry :: left { c with tried := c.tried + 1 }
      | .error e => .error e :: left { c with tried := c.tried + 1 } := by
  obtain ⟨hlt, hget⟩ := List.getElem?_eq_some_iff.1 h
  rw [left, List.drop_eq_getElem_cons hlt, hget, ZipFile.source, List.filterMap_cons]
  cases central.entry? c.zip.file c.limit with
  | error e => rfl
  | ok found => cases found <;> rfl

/-- An attempt on the file is an attempt on what is left of it. -/
theorem next_eq_left : (c.next.1, c.next.2.left) = c.left.next := by
  -- over the entries that are passed over in front of the first that is not
  fun_induction next c with
  | case1 c h => rw [left_of_end h, Source.next]
  | case2 c central h _ rest e hentry => rw [left_of_entry h, hentry, Source.next]
  | case3 c central h _ rest entry hentry => rw [left_of_entry h, hentry, Source.next]
  | case4 c central h _ rest hentry ih => rw [left_of_entry h, hentry, ih]

def attempts : Nat → ZipCursor → List (Except Error (Option Entry))
  | 0, _ => []
  | n + 1, c => c.next.1 :: attempts n c.next.2

theorem attempts_eq_left (n : Nat) (c : ZipCursor) : c.attempts n = c.left.attempts n := by
  induction n generalizing c with
  | zero => rfl
  | succ n ih => rw [attempts, Source.attempts, ih, ← next_eq_left]

end ZipCursor

namespace ZipFile

variable (z : ZipFile) (limit : Nat)

def visited : List Zip.Central := z.entries.filter (!·.isPassedOver z.file limit)

theorem source_eq_visited :
    (z.source limit).map (Except.map some)
      = (z.visited limit).map fun c => c.entry? z.file limit := by
  rw [source, visited]
  induction z.entries with
  | nil => rfl
  | cons c entries ih =>
    rw [List.filterMap_cons, List.filter_cons, Zip.Central.isPassedOver]
    cases hentry : c.entry? z.file limit with
    | error e => simp [ih, hentry, Except.map]
    | ok found => cases found <;> simp [ih, hentry, Except.map]

theorem filter_visited :
    (z.visited limit).filter (!·.isDirectory) = z.entries.filter (!·.isDirectory) := by
  rw [visited, List.filter_filter]
  apply List.filter_congr
  intro c _
  -- nothing but directories is passed over
  by_cases hdirectory : c.isDirectory = true
  · simp [hdirectory]
  · have hvisited : ¬ c.isPassedOver z.file limit = true := by
      intro hpassed
      apply hdirectory
      exact Zip.Central.isDirectory_of_entry?_eq_none (Zip.Central.isPassedOver_iff.1 hpassed)
    simp [hdirectory, hvisited]

/-- Attempts visit one entry after another; when there is none left, they find nothing. -/
theorem attempts_cursor (n : Nat) : (z.cursor limit).attempts n
    = ((z.visited limit).take n).map (fun c => c.entry? z.file limit)
      ++ List.replicate (n - (z.visited limit).length) (.ok none) := by
  have hlength := congrArg List.length (z.source_eq_visited limit)
  rw [List.length_map, List.length_map] at hlength
  -- nothing has been tried, so that all of the source is left
  rw [ZipCursor.attempts_eq_left]
  show (z.source limit).attempts n = _
  rw [Source.attempts_eq, List.map_take, source_eq_visited, ← List.map_take, hlength]

end ZipFile
end ScanArchive
