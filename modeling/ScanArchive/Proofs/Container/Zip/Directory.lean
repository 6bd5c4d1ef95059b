import ScanArchive.Proofs.Bytes
import ScanArchive.Proofs.Container.Zip.Records

/-!
# Finding the directory of a ZIP file

The end record is the last thing in a file that is written here, and leads to its directory.  The
bytes in front of it can look like the record that leads to a large end record, though there is
none; such a file is refused.
-/

namespace ScanArchive.Zip

/-! ## 1. The end record -/

theorem length_endRecord (count size offset : Nat) :
    (endRecord count size offset).length = endLength := by
  simp [endRecord, endLength]

theorem lastEnd_of_lt {left : Nat} (h : left < endLength) (offset : Nat) (found : Option Nat)
    (bytes : Bytes) : lastEnd offset left found bytes = found := by
  induction bytes generalizing offset left with
  | nil => rfl
  | cons byte rest ih =>
    rw [lastEnd, if_neg (fun hhere => by omega)]
    exact ih (by omega) (offset + 1)

/-- What is found in front of a place counts only if nothing is found behind it. -/
theorem lastEnd_append (front rest : Bytes) (offset left : Nat) (found : Option Nat) :
    ∃ found', lastEnd offset (front.length + left) found (front ++ rest)
      = lastEnd (offset + front.length) left found' rest := by
  induction front generalizing offset found with
  | nil =>
    rw [List.length_nil, Nat.zero_add]
    exact ⟨found, rfl⟩
  | cons byte front ih =>
    rw [List.cons_append, lastEnd, List.length_cons,
      show front.length + 1 + left - 1 = front.length + left by omega]
    obtain ⟨found', hfound⟩ := ih (offset + 1) _
    refine ⟨found', ?_⟩
    rw [hfound, show offset + 1 + front.length = offset + (front.length + 1) by omega]

theorem lastEnd_endRecord (front : Bytes) (count size offset : Nat) :
    lastEnd 0 (front ++ endRecord count size offset).length none
      (front ++ endRecord count size offset) = some front.length := by
  obtain ⟨found, hfound⟩ := lastEnd_append front (endRecord count size offset) 0 endLength none
  rw [List.length_append, length_endRecord, hfound]
  have hhere : (endRecord count size offset).take 4 = u32 endSignature := by
    simp only [endRecord, List.append_assoc]
    exact List.take_left' (length_u32 _)
  obtain ⟨byte, rest, hcons⟩ : ∃ byte rest, endRecord count size offset = byte :: rest := by
    exact ⟨_, _, rfl⟩
  rw [hcons] at hhere ⊢
  rw [lastEnd, if_pos ⟨by decide, Nat.le_refl _, hhere⟩, lastEnd_of_lt (by decide), Nat.zero_add]

def endOf (place count size offset : Nat) : End where
  offset := place
  disk := 0
  directoryDisk := 0
  countHere := min count maxCount
  count := min count maxCount
  directorySize := min size maxField
  directoryOffset := min offset maxField
  commentLength := 0

theorem read_endRecord (front : Bytes) (count size offset : Nat) :
    End.read (front ++ endRecord count size offset)
      = .ok (endOf front.length count size offset) := by
  have hdrop : (front ++ endRecord count size offset).drop front.length
      = endRecord count size offset ++ [] := by
    rw [List.drop_left, List.append_nil]
  have hlong : ¬ (front ++ endRecord count size offset).length < endLength := by
    rw [List.length_append, length_endRecord]
    omega
  have hslice := slice_eq hdrop
  rw [length_endRecord] at hslice
  have hcomment : slice (front ++ endRecord count size offset) (front.length + endLength) 0
      = .ok [] := by
    have hbehind : (front ++ endRecord count size offset).drop (front.length + endLength)
        = [] ++ [] := by
      rw [← length_endRecord count size offset]
      exact drop_add_length hdrop
    exact slice_eq hbehind
  have hnumbers : number (endRecord count size offset) 4 2 = 0 ∧
      number (endRecord count size offset) 6 2 = 0 ∧
      number (endRecord count size offset) 8 2 = min count maxCount ∧
      number (endRecord count size offset) 10 2 = min count maxCount ∧
      number (endRecord count size offset) 12 4 = min size maxField ∧
      number (endRecord count size offset) 16 4 = min offset maxField ∧
      number (endRecord count size offset) 20 2 = 0 := by
    simp [endRecord, maxCount, maxField]
  obtain ⟨hdisk, hdirectoryDisk, hcountHere, hcount, hsize, hoffset, hlength⟩ := hnumbers
  unfold End.read
  simp only [bind, Except.bind]
  rw [if_neg hlong, lastEnd_endRecord]
  simp only [hslice, hlength, hcomment, hdisk, hdirectoryDisk, hcountHere, hcount, hsize, hoffset]
  rfl

/-! ## 2. The large end record -/

theorem length_end64Record (count size offset : Nat) :
    (end64Record count size offset).length = end64Length := by
  simp [end64Record, end64Length]

theorem length_locator (offset : Nat) : (locator offset).length = locatorLength := by
  simp [locator, locatorLength]

theorem findEnd64_end64Record (places nominal count size offset : Nat) (rest : Bytes) :
    findEnd64 (places + 1) nominal (end64Record count size offset ++ rest)
      = .ok (nominal, end64Record count size offset) := by
  have hrecord : slice (end64Record count size offset ++ rest) 0 end64Length
      = .ok (end64Record count size offset) := by
    rw [← length_end64Record count size offset]
    exact slice_eq rfl
  have hstart : slice (end64Record count size offset ++ rest) 0 4 = .ok (u32 end64Signature) := by
    rw [← length_u32 end64Signature]
    simp only [end64Record, List.append_assoc]
    exact slice_eq rfl
  rw [findEnd64, hstart, hrecord]
  rfl

namespace Directory

theorem ofLocator_locator {front : Bytes} {count size offset : Nat}
    (hfront : front.length = offset + size) (hcount : count < UInt64.size)
    (hlength : front.length < UInt64.size) (rest : Bytes) :
    ofLocator (front ++ (end64Record count size offset ++ locator (offset + size)) ++ rest)
        (endOf (front ++ (end64Record count size offset ++ locator (offset + size))).length
          count size offset)
        (locator (offset + size))
      = .ok { shift := 0, start := offset, count } := by
  have hnominal : number (locator (offset + size)) 8 8 = offset + size := by
    rw [← hfront]
    simp [locator]
    exact hlength
  have hdisk : number (locator (offset + size)) 4 4 = 0 := by
    simp [locator]
  have hnumbers : number (end64Record count size offset) 16 4 = 0 ∧
      number (end64Record count size offset) 20 4 = 0 ∧
      number (end64Record count size offset) 32 8 = count ∧
      number (end64Record count size offset) 48 8 = offset := by
    have hoffset : offset < UInt64.size := by omega
    simp [end64Record]
    exact ⟨hcount, hoffset⟩
  obtain ⟨hhere, hthere, hentries, hstart⟩ := hnumbers
  have hplace : (front ++ (end64Record count size offset ++ locator (offset + size))).length
      = offset + size + 76 := by
    rw [List.length_append, List.length_append, length_end64Record, length_locator, hfront]
    rfl
  have hplaces : (front ++ (end64Record count size offset ++ locator (offset + size))).length
      - end64Reach + 1 - (offset + size) = 16 + 1 := by
    rw [hplace, end64Reach]
    omega
  -- the record is at the first of the places that are tried
  have hfound := findEnd64_end64Record 16 (offset + size) count size offset
    (locator (offset + size) ++ rest)
  rw [← hplaces] at hfound
  have hdrop : (front ++ (end64Record count size offset ++ locator (offset + size)) ++ rest).drop
      (offset + size) = end64Record count size offset ++ (locator (offset + size) ++ rest) := by
    rw [List.append_assoc, List.append_assoc, ← hfront, List.drop_left]
  have hsmall : ¬ UInt64.size ≤ offset + (offset + size - (offset + size)) := by omega
  have hreach : ¬ (front ++ (end64Record count size offset ++ locator (offset + size))).length
      < end64Reach := by
    rw [hplace, end64Reach]
    omega
  unfold ofLocator
  simp only [bind, Except.bind, hnominal, hdisk, hdrop, endOf]
  rw [if_neg (fun h => h.2 rfl), if_neg hreach, hfound]
  simp only [hhere, hthere, hentries, hstart]
  rw [if_neg (not_not_intro rfl), if_neg hsmall, Nat.sub_self]
  rfl

/-! ## 3. Both end records -/

def lastBytes (front : Bytes) : Bytes := front.drop (front.length - locatorLength)

/-- The bytes in front of the end record decide which of the two is read. -/
theorem find_endRecord (front : Bytes) (count size offset : Nat) :
    find (front ++ endRecord count size offset)
      = if front.length < locatorLength ∨ number (lastBytes front) 0 4 ≠ locatorSignature then
          ofEnd (endOf front.length count size offset)
        else
          ofLocator (front ++ endRecord count size offset)
            (endOf front.length count size offset) (lastBytes front) := by
  have hlength : (front ++ endRecord count size offset).length = front.length + endLength := by
    rw [List.length_append, length_endRecord]
  have hread := read_endRecord front count size offset
  have hcomment : (endOf front.length count size offset).commentLength = 0 := rfl
  unfold find
  simp only [bind, Except.bind, hread, hlength, hcomment]
  rw [if_neg (fun h => h.2 rfl)]
  by_cases hshort : front.length < locatorLength
  · have hreach : front.length + endLength < endLength + 0 + locatorLength := by omega
    rw [if_pos (Or.inl hshort), if_pos hreach]
  · have hreach : ¬ front.length + endLength < endLength + 0 + locatorLength := by omega
    have hplace : front.length + endLength - (endLength + 0 + locatorLength)
        = front.length - locatorLength := by omega
    have hdrop : (front ++ endRecord count size offset).drop (front.length - locatorLength)
        = lastBytes front ++ endRecord count size offset :=
      List.drop_append_of_le_length (Nat.sub_le _ _)
    have hlast : (lastBytes front).length = locatorLength := by
      rw [lastBytes, List.length_drop]
      omega
    have hslice := slice_eq hdrop
    rw [hlast] at hslice
    rw [if_neg hreach, hplace, hslice]
    simp only
    by_cases hsignature : number (lastBytes front) 0 4 = locatorSignature
    · rw [if_pos hsignature, if_neg (not_or.2 ⟨hshort, not_not_intro hsignature⟩)]
    · rw [if_neg hsignature, if_pos (Or.inr hsignature)]

theorem ofEnd_endOf {place count size offset : Nat} (hplace : place = offset + size)
    (hsmall : needsEnd64 count size offset = false) :
    ofEnd (endOf place count size offset) = .ok { shift := 0, start := offset, count } := by
  rw [needsEnd64, Bool.or_eq_false_iff, decide_eq_false_iff_not, decide_eq_false_iff_not] at hsmall
  have hcount : min count maxCount = count := by omega
  have hsize : min size maxField = size := by omega
  have hoffset : min offset maxField = offset := by omega
  unfold ofEnd
  simp only [endOf, hcount, hsize, hoffset]
  rw [if_neg (by omega), show place - size = offset by omega, Nat.sub_self]

theorem ofLocator_eq_error (file : Bytes) (e : End) (locator : Bytes)
    (hfar : e.offset ≤ number locator 8 8) :
    ∃ reason, ofLocator file e locator = .error (.archive (.other reason)) := by
  have hplaces : ¬ e.offset < end64Reach →
      e.offset - end64Reach + 1 - number locator 8 8 = 0 := by
    unfold end64Reach
    omega
  unfold ofLocator
  simp only [bind, Except.bind]
  split
  · exact ⟨_, rfl⟩
  · split
    · exact ⟨_, rfl⟩
    · rename_i hreach
      rw [hplaces hreach]
      exact ⟨_, rfl⟩

section

variable {front : Bytes} {count size offset : Nat} (hfront : front.length = offset + size)

include hfront

theorem find_ending_of_needsEnd64 (hcount : count < UInt64.size)
    (hlength : front.length < UInt64.size) (hneeds : needsEnd64 count size offset = true) :
    find (front ++ ending count size offset) = .ok { shift := 0, start := offset, count } := by
  have hlast : lastBytes (front ++ (end64Record count size offset ++ locator (offset + size)))
      = locator (offset + size) := by
    have hlength : (front ++ (end64Record count size offset ++ locator (offset + size))).length
        - locatorLength = (front ++ end64Record count size offset).length := by
      simp only [List.length_append, length_locator]
      omega
    rw [lastBytes, hlength, ← List.append_assoc, List.drop_left]
  have hlong : ¬ (front ++ (end64Record count size offset ++ locator (offset + size))).length
      < locatorLength := by
    simp only [List.length_append, length_locator]
    omega
  have hsignature : number (locator (offset + size)) 0 4 = locatorSignature := by
    simp [locator, locatorSignature]
  have hfile : front ++ ending count size offset
      = front ++ (end64Record count size offset ++ locator (offset + size))
        ++ endRecord count size offset := by
    rw [ending, if_pos hneeds]
    exact (List.append_assoc _ _ _).symm
  rw [hfile, find_endRecord, hlast, if_neg (not_or.2 ⟨hlong, not_not_intro hsignature⟩)]
  exact ofLocator_locator hfront hcount hlength _

theorem find_ending_of_number (hsmall : needsEnd64 count size offset = false)
    (hplain : front.length < locatorLength ∨ number (lastBytes front) 0 4 ≠ locatorSignature) :
    find (front ++ ending count size offset) = .ok { shift := 0, start := offset, count } := by
  have hfile : front ++ ending count size offset = front ++ endRecord count size offset := by
    rw [ending, hsmall]
    rfl
  rw [hfile, find_endRecord, if_pos hplain]
  exact ofEnd_endOf hfront hsmall

/--
A directory behind `front` is found, unless the end of `front` looks like a record that leads to a
large end record; if that leads too far, the file is refused.
-/
theorem find_ending (hcount : count < UInt64.size) (hlength : front.length < UInt64.size)
    (hlast : needsEnd64 count size offset = false →
      front.length < locatorLength ∨ front.length ≤ number (lastBytes front) 8 8) :
    find (front ++ ending count size offset) = .ok { shift := 0, start := offset, count } ∨
      ∃ reason, find (front ++ ending count size offset) = .error (.archive (.other reason)) := by
  cases hneeds : needsEnd64 count size offset with
  | true => exact .inl (find_ending_of_needsEnd64 hfront hcount hlength hneeds)
  | false =>
    by_cases hplain : front.length < locatorLength
        ∨ number (lastBytes front) 0 4 ≠ locatorSignature
    · exact .inl (find_ending_of_number hfront hneeds hplain)
    · have hfile : front ++ ending count size offset = front ++ endRecord count size offset := by
        rw [ending, hneeds]
        rfl
      have hfar := (hlast hneeds).resolve_left fun h => hplain (.inl h)
      rw [hfile, find_endRecord, if_neg hplain]
      exact .inr (ofLocator_eq_error _ _ _ hfar)

end

theorem le_number_lastBytes {front tail : Bytes} {byte : UInt8} (hbyte : byte ≠ 0)
    (htail : tail.length = 4) (hfront : 15 ≤ front.length) :
    256 ^ 7 ≤ number (lastBytes (front ++ byte :: tail)) 8 8 := by
  have hlength : (front ++ byte :: tail).length - locatorLength = front.length - 15 := by
    rw [List.length_append, List.length_cons, htail, locatorLength]
    omega
  have hlast : lastBytes (front ++ byte :: tail)
      = front.drop (front.length - 15) ++ byte :: tail := by
    rw [lastBytes, hlength, List.drop_append_of_le_length (Nat.sub_le _ _)]
  have hseven : ((front.drop (front.length - 15)).drop 8).length = 7 := by
    rw [List.length_drop, List.length_drop]
    omega
  have hnumber : ((front.drop (front.length - 15) ++ byte :: tail).drop 8).take 8
      = (front.drop (front.length - 15)).drop 8 ++ [byte] := by
    rw [List.drop_append_of_le_length (by rw [List.length_drop]; omega), List.append_cons]
    exact List.take_left' (by rw [List.length_append, hseven]; rfl)
  have hlarge := Bytes.pow_le_littleEndian hbyte ((front.drop (front.length - 15)).drop 8)
  rw [hlast, number, hnumber, ← hseven]
  exact hlarge

end Directory

end ScanArchive.Zip
