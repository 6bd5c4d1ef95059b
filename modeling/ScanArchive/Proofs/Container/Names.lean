import ScanArchive.Container.Tar.Layout
import ScanArchive.Proofs.Bytes
import ScanArchive.Proofs.Container.Zip.Records

/-!
# Names that are kept as they are

A relative path of ASCII characters stands in a tar file and in a ZIP file byte by byte, and is
read back as the same text from either, unless a zero ends it early in the tar file.
-/

namespace ScanArchive

open String

/-! ## 1. Texts of ASCII characters -/

namespace Text

theorem ofNat_toNat_ofNat {c : Char} (hc : c.toNat < 128) :
    Char.ofNat (UInt8.ofNat c.toNat).toNat = c := by
  rw [UInt8.toNat_ofNat', Nat.mod_eq_of_lt (by omega), Char.ofNat_toNat]

theorem ofNat_lt {c : Char} (hc : c.toNat < 128) : UInt8.ofNat c.toNat < 0x80 := by
  rw [UInt8.lt_iff_toNat_lt, UInt8.toNat_ofNat', Nat.mod_eq_of_lt (by omega)]
  exact hc

theorem lossyChar_ascii {c : Char} (hc : c.toNat < 128) (rest : Bytes) :
    lossyChar (UInt8.ofNat c.toNat) rest = (c, 1) := by
  unfold lossyChar
  rw [if_pos (ofNat_lt hc)]
  exact congrArg (·, 1) (ofNat_toNat_ofNat hc)

theorem lossyChars_ascii {text : List Char} (h : ∀ c ∈ text, c.toNat < 128) :
    lossyChars (text.map fun c => UInt8.ofNat c.toNat) = text := by
  induction text with
  | nil =>
    rw [List.map_nil, lossyChars]
  | cons c text ih =>
    obtain ⟨hc, htext⟩ := List.forall_mem_cons.1 h
    rw [List.map_cons, lossyChars, lossyChar_ascii hc]
    simp only [Nat.sub_self, List.drop_zero, ih htext]

variable {text : String} (h : ∀ c ∈ text.toList, c.toNat < 128)

include h

theorem ofText_eq : Bytes.ofText text = text.toList.map fun c => UInt8.ofNat c.toNat := by
  rw [← Bytes.ofText_ascii h, ofList_toList]

theorem ofBytesLossy_ofText : ofBytesLossy (Bytes.ofText text) = text := by
  rw [ofText_eq h, ofBytesLossy, lossyChars_ascii h, ofList_toList]

theorem ofCodePage437_ofText : ofCodePage437 (Bytes.ofText text) = text := by
  have hchars : (text.toList.map fun c => UInt8.ofNat c.toNat).map (fun b : UInt8 =>
      if b < 0x80 then Char.ofNat b.toNat
      else (codePage437[b.toNat - 0x80]?).getD replacement) = text.toList := by
    rw [List.map_map]
    refine (List.map_congr_left fun c hc => ?_).trans (List.map_id _)
    simp only [Function.comp_apply, if_pos (ofNat_lt (h c hc)), ofNat_toNat_ofNat (h c hc), id]
  rw [ofText_eq h, ofCodePage437, hchars, ofList_toList]

end Text

/-! ## 2. Parts of a path -/

theorem splitOnAux_slash (l m r : List Char) (acc : List String) :
    splitOnAux (ofList (l ++ m ++ r)) "/" ⟨utf8Len l⟩ ⟨utf8Len l + utf8Len m⟩ 0 acc
      = acc.reverse ++ (List.splitOnPPrepend (· == '/') r m.reverse).map ofList := by
  -- on what is left of the path; `l` stands behind, and `m` is the part that has been begun
  induction r generalizing l m acc with
  | nil =>
    have hend : Pos.Raw.atEnd (ofList (l ++ m ++ [])) ⟨utf8Len l + utf8Len m⟩ = true := by
      rw [atEnd_iff, rawEndPos_ofList, List.append_nil, utf8Len_append]
      exact Nat.le_refl _
    rw [splitOnAux.eq_1, if_pos hend, extract_of_valid l m []]
    simp
  | cons c r ih =>
    have hend : ¬ Pos.Raw.atEnd (ofList (l ++ m ++ c :: r)) ⟨utf8Len l + utf8Len m⟩ = true := by
      have hpos := c.utf8Size_pos
      rw [atEnd_iff, rawEndPos_ofList, utf8Len_append, utf8Len_append, utf8Len_cons,
        Pos.Raw.mk_le_mk]
      omega
    have hget := get_of_valid (l ++ m) (c :: r)
    have hnext := next_of_valid (l ++ m) c r
    rw [utf8Len_append] at hget hnext
    rw [splitOnAux.eq_1, if_neg hend, hget, List.splitOnPPrepend_cons_eq_if]
    by_cases hc : c = '/'
    · subst hc
      have hslash : ('/' == Pos.Raw.get "/" 0) = true := by decide
      have hover : Pos.Raw.atEnd "/" (Pos.Raw.next "/" 0) = true := by decide
      have hback : (⟨utf8Len l + utf8Len m + '/'.utf8Size⟩ : Pos.Raw).unoffsetBy
          (Pos.Raw.next "/" 0) = ⟨utf8Len l + utf8Len m⟩ := rfl
      -- the part ends here, and the next one starts behind the slash
      have hlater := ih (l ++ m ++ ['/']) [] (ofList m :: acc)
      rw [List.append_nil, List.append_assoc, List.singleton_append] at hlater
      simp only [utf8Len_append, utf8Len_cons, utf8Len_nil, Nat.add_zero] at hlater
      rw [Nat.zero_add] at hlater
      simp only [List.headD_cons, hslash, hnext, hover, hback, if_true, extract_of_valid,
        beq_self_eq_true]
      rw [hlater, List.splitOnP_eq_splitOnPPrepend, List.reverse_reverse, List.reverse_cons,
        List.append_assoc]
      rfl
    · have hslash : ¬ (c == Pos.Raw.get "/" 0) = true := by
        rw [beq_iff_eq]
        exact hc
      have hback : (⟨utf8Len l + utf8Len m⟩ : Pos.Raw).unoffsetBy 0
          = ⟨utf8Len l + utf8Len m⟩ := rfl
      have hlater := ih l (m ++ [c]) acc
      rw [List.append_assoc, List.append_assoc, List.singleton_append, ← List.append_assoc]
        at hlater
      rw [utf8Len_append, utf8Len_cons, utf8Len_nil, Nat.zero_add, ← Nat.add_assoc] at hlater
      simp only [List.headD_cons, if_neg hslash, hback, hnext, if_neg (mt beq_iff_eq.1 hc)]
      rw [hlater, List.reverse_append]
      rfl

theorem splitOn_slash (path : String) :
    path.splitOn "/" = (path.toList.splitOn '/').map ofList := by
  have hall := splitOnAux_slash [] [] path.toList []
  rw [List.nil_append, List.nil_append, ofList_toList] at hall
  exact hall

theorem intercalate_splitOn_slash (path : String) : "/".intercalate (path.splitOn "/") = path := by
  have htexts : (path.splitOn "/").map toList = path.toList.splitOn '/' := by
    rw [splitOn_slash, List.map_map]
    exact List.map_id'' (fun _ => toList_ofList) _
  rw [← toList_inj, toList_intercalate, htexts]
  exact List.intercalate_splitOn '/'

/-- A path of ASCII characters that leads down from where it starts, and is short. -/
structure IsRelative (path : String) : Prop where
  ascii : ∀ c ∈ path.toList, c.toNat < 128
  short : (Bytes.ofText path).length ≤ Tar.maxPath
  parts : ∀ part ∈ path.toList.splitOn '/', part ≠ [] ∧ part ≠ ['.'] ∧ part ≠ ['.', '.']
  backslash : '\\' ∉ path.toList

theorem isRelative_of_not_mem {path : String} (hascii : ∀ c ∈ path.toList, c.toNat < 128)
    (hshort : (Bytes.ofText path).length ≤ Tar.maxPath) (hslash : '/' ∉ path.toList)
    (hname : path.toList ≠ [] ∧ path.toList ≠ ['.'] ∧ path.toList ≠ ['.', '.'])
    (hbackslash : '\\' ∉ path.toList) : IsRelative path where
  ascii := hascii
  short := hshort
  parts := by
    rw [List.splitOn_eq_singleton hslash]
    exact List.forall_mem_singleton.2 hname
  backslash := hbackslash

namespace IsRelative

variable {path : String} (h : IsRelative path)

include h

/-- No slash stands first or last, since the part next to it would be empty. -/
theorem slash_ne {front rest : List Char} (hpath : path.toList = front ++ '/' :: rest) :
    front ≠ [] ∧ rest ≠ [] := by
  have hsplit := List.splitOn_append_cons_self (a := '/') front rest
  constructor
  · rintro rfl
    refine (h.parts [] ?_).1 rfl
    rw [hpath, hsplit, List.splitOn_nil]
    exact List.mem_cons_self
  · rintro rfl
    refine (h.parts [] ?_).1 rfl
    rw [hpath, hsplit, List.splitOn_nil]
    exact List.mem_append_right _ List.mem_cons_self

theorem startsWith_slash : path.startsWith "/" = false := by
  rw [Bool.eq_false_iff, Ne, startsWith_string_iff]
  rintro ⟨rest, hpath⟩
  exact (h.slash_ne hpath.symm).1 rfl

theorem endsWith_slash : path.endsWith "/" = false := by
  rw [Bool.eq_false_iff, Ne, endsWith_eq_endsWith_toSlice, Slice.endsWith_string_iff, copy_toSlice]
  rintro ⟨front, hpath⟩
  exact (h.slash_ne hpath.symm).2 rfl

theorem endsWith_backslash : path.endsWith "\\" = false := by
  rw [Bool.eq_false_iff, Ne, endsWith_eq_endsWith_toSlice, Slice.endsWith_string_iff, copy_toSlice]
  rintro ⟨front, hpath⟩
  refine h.backslash ?_
  rw [← hpath]
  exact List.mem_append_right _ List.mem_cons_self

theorem ne_of_mem_splitOn {part : String} (hpart : part ∈ path.splitOn "/") :
    part ≠ "" ∧ part ≠ "." ∧ part ≠ ".." := by
  rw [splitOn_slash] at hpart
  obtain ⟨chars, hchars, rfl⟩ := List.mem_map.1 hpart
  obtain ⟨hempty, hdot, hdots⟩ := h.parts chars hchars
  exact ⟨mt ofList_injective hempty, mt ofList_injective hdot, mt ofList_injective hdots⟩

/-! ## 3. Paths in containers -/

/-- A tar file has no room for a zero in a path, and keeps all others byte by byte. -/
theorem storedPath?_eq : Tar.storedPath? path
    = if '\x00' ∈ path.toList then none else some (Bytes.ofText path) := by
  have hall : Tar.parts path = path.splitOn "/" := by
    refine List.filter_eq_self.2 fun part hpart => ?_
    exact decide_eq_true (h.ne_of_mem_splitOn hpart).1
  have hnamed : (path.splitOn "/").filter (· ≠ ".") = path.splitOn "/" := by
    refine List.filter_eq_self.2 fun part hpart => ?_
    exact decide_eq_true (h.ne_of_mem_splitOn hpart).2.1
  have hnonempty : (path.splitOn "/").isEmpty = false := by
    rw [splitOn_slash, List.isEmpty_eq_false_iff, Ne, List.map_eq_nil_iff]
    exact List.splitOn_ne_nil _ _
  have hup : (path.splitOn "/").contains ".." = false := by
    rw [List.contains_eq_mem, decide_eq_false_iff_not]
    exact fun hmem => (h.ne_of_mem_splitOn hmem).2.2 rfl
  have hzero : (Bytes.ofText path).contains 0 = true ↔ '\x00' ∈ path.toList := by
    rw [Text.ofText_eq h.ascii, List.contains_eq_mem, decide_eq_true_eq, List.mem_map]
    constructor
    · rintro ⟨c, hc, hnull⟩
      have hback := Text.ofNat_toNat_ofNat (h.ascii c hc)
      rw [hnull] at hback
      exact hback ▸ hc
    · exact fun hnull => ⟨_, hnull, rfl⟩
  unfold Tar.storedPath?
  simp only [hall, hnamed, hnonempty, hup, h.startsWith_slash, h.endsWith_slash, Bool.false_eq_true,
    or_self, if_false, false_and, intercalate_splitOn_slash, String.append_empty, hzero,
    Nat.not_lt.2 h.short, false_or]

variable (method : Zip.Method) (data : Bytes)

theorem name_central :
    ((Zip.Member.ofEntry method ⟨path, data⟩).central 0).name = path := by
  have hflags : (Zip.Member.ofEntry method ⟨path, data⟩).flags = 0 := by
    refine if_pos (List.all_eq_true.2 fun b hb => ?_)
    rw [show (Zip.Member.ofEntry method ⟨path, data⟩).name = Bytes.ofText path from rfl,
      Text.ofText_eq h.ascii] at hb
    obtain ⟨c, hc, rfl⟩ := List.mem_map.1 hb
    exact decide_eq_true (Text.ofNat_lt (h.ascii c hc))
  unfold Zip.Member.central
  rw [hflags]
  exact Text.ofCodePage437_ofText h.ascii

theorem isDirectory_central :
    ((Zip.Member.ofEntry method ⟨path, data⟩).central 0).isDirectory = false := by
  rw [Zip.Central.isDirectory, h.name_central, h.endsWith_slash, h.endsWith_backslash]
  rfl

end IsRelative
end ScanArchive
