import ScanArchive.Container.Tar.Extension
import ScanArchive.Proofs.Bytes

/-!
# Headers of tar files

A header that is written here is read as that of a regular file with its path and its size, as
long as the path fits into it and the size has at most eleven octal digits.
-/

namespace ScanArchive.Tar

/-! ## 1. Numbers -/

def IsOctal (c : Char) : Prop := '0' ≤ c ∧ c.toNat < '0'.toNat + 8

theorem IsOctal.toNat_lt {c : Char} (h : IsOctal c) : c.toNat < 0x38 := h.2

theorem IsOctal.le_toNat {c : Char} (h : IsOctal c) : 0x30 ≤ c.toNat := h.1

theorem isOctal_digitChar {d : Nat} (h : d < 8) : IsOctal d.digitChar := by
  unfold IsOctal
  interval_cases d <;> decide

theorem isOctal_of_mem_toDigits {n : Nat} {c : Char} (h : c ∈ Nat.toDigits 8 n) : IsOctal c := by
  induction n using Nat.strongRecOn with
  | ind n ih =>
    rw [Nat.toDigits_eq_if (by decide)] at h
    by_cases hlt : n < 8
    · rw [if_pos hlt, List.mem_singleton] at h
      rw [h]
      exact isOctal_digitChar hlt
    · rw [if_neg hlt, List.mem_append, List.mem_singleton] at h
      rcases h with hfront | rfl
      · exact ih (n / 8) (by omega) hfront
      · exact isOctal_digitChar (Nat.mod_lt _ (by decide))

def octalDigits (width n : Nat) : List Char :=
  List.replicate (width - (Nat.toDigits 8 n).length) '0' ++ Nat.toDigits 8 n

section

variable (width n : Nat)

theorem isOctal_octalDigits : ∀ c ∈ octalDigits width n, IsOctal c := by
  intro c hc
  rcases List.mem_append.1 hc with hzero | hdigit
  · rw [(List.mem_replicate.1 hzero).2]
    exact ⟨le_refl _, by decide⟩
  · exact isOctal_of_mem_toDigits hdigit

theorem octalDigits_ne_nil : octalDigits width n ≠ [] := by
  intro hnil
  exact Nat.toDigits_ne_nil (List.append_eq_nil_iff.1 hnil).2

theorem octalField_eq :
    octalField (width + 1) n = Bytes.ofText (String.ofList (octalDigits width n)) ++ [0] := by
  rw [Bytes.ofText_ascii fun c hc => (isOctal_octalDigits width n c hc).toNat_lt.trans (by decide)]
  simp [octalField, octalDigits]

theorem untilZero_octalField :
    untilZero (octalField (width + 1) n) = Bytes.ofText (String.ofList (octalDigits width n)) := by
  have hoctal := isOctal_octalDigits width n
  have hdigit : ∀ b ∈ Bytes.ofText (String.ofList (octalDigits width n)), b ≠ 0 := by
    rw [Bytes.ofText_ascii fun c hc => (hoctal c hc).toNat_lt.trans (by decide)]
    intro b hb
    obtain ⟨c, hc, rfl⟩ := List.mem_map.1 hb
    have hlow := (hoctal c hc).le_toNat
    have hhigh := (hoctal c hc).toNat_lt
    rw [Ne, ← UInt8.toNat_inj, UInt8.toNat_ofNat', Nat.mod_eq_of_lt (by omega)]
    show c.toNat ≠ 0
    omega
  rw [untilZero, octalField_eq,
    List.takeWhile_append_of_pos fun b hb => decide_eq_true (hdigit b hb)]
  simp

theorem foldlM_octal {text : List Char} (h : ∀ c ∈ text, IsOctal c) (n : Nat) :
    text.foldlM (fun n c => if '0' ≤ c ∧ c.toNat < '0'.toNat + 8 then
      some (n * 8 + (c.toNat - '0'.toNat)) else none) n = some (Nat.ofDigitChars 8 text n) := by
  induction text generalizing n with
  | nil => rfl
  | cons c text ih =>
    obtain ⟨hc, htext⟩ := List.forall_mem_cons.1 h
    have hdigit : '0' ≤ c ∧ c.toNat < '0'.toNat + 8 := hc
    rw [List.foldlM_cons, if_pos hdigit, Option.bind_eq_bind, Option.bind_some, ih htext,
      Nat.mul_comm n 8]
    rfl

/-- Octal digits spell a number as long as it is not too large. -/
theorem number?_octalDigits (hn : n < UInt64.size) : number? 8 (octalDigits width n) = some n := by
  have hoctal := isOctal_octalDigits width n
  have hvalue : Nat.ofDigitChars 8 (octalDigits width n) 0 = n := by
    -- zeros in front do not count
    have hzeros : ∀ k, Nat.ofDigitChars 8 (List.replicate k '0') 0 = 0 := by
      intro k
      induction k with
      | zero => rfl
      | succ k ih => rw [List.replicate_succ]; exact ih
    rw [octalDigits, Nat.ofDigitChars_append, hzeros]
    exact Nat.ofDigitChars_toDigits (by decide) (by decide)
  have hfold := foldlM_octal hoctal 0
  rw [hvalue] at hfold
  cases hdigits : octalDigits width n with
  | nil => exact absurd hdigits (octalDigits_ne_nil width n)
  | cons c text =>
    rw [hdigits] at hfold hoctal
    -- the first digit is not taken for a sign
    have hplus : c ≠ '+' := by
      rintro rfl
      exact absurd (hoctal '+' List.mem_cons_self).1 (by decide)
    unfold number?
    split
    · rename_i heq
      exact absurd (List.cons.inj heq).1 hplus
    · rename_i digits hnot
      simp only [List.isEmpty_cons, hfold]
      simp [hn]

theorem IsOctal.isSpace {c : Char} (h : IsOctal c) : isSpace c = false := by
  have hlow := h.le_toNat
  have hhigh := h.toNat_lt
  simp [Tar.isSpace]
  omega

theorem dropWhile_isSpace {text : List Char} (h : ∀ c ∈ text, IsOctal c) :
    text.dropWhile isSpace = text := by
  cases text with
  | nil => rfl
  | cons c text =>
    have hc := (h c List.mem_cons_self).isSpace
    rw [List.dropWhile_cons_of_neg (by rw [hc]; decide)]

theorem octal?_octalField (hn : n < UInt64.size) : octal? (octalField (width + 1) n) = some n := by
  have hoctal := isOctal_octalDigits width n
  have hback : ∀ c ∈ (octalDigits width n).reverse, IsOctal c := fun c hc =>
    hoctal c (List.mem_reverse.1 hc)
  unfold octal?
  rw [untilZero_octalField, Bytes.toText?_ofText]
  simp only [Option.bind_eq_bind, Option.bind_some]
  rw [String.toList_ofList, dropWhile_isSpace hoctal, dropWhile_isSpace hback, List.reverse_reverse]
  exact number?_octalDigits width n hn

/-- The first byte of a number in a header is a digit, so that the number is not in bytes. -/
theorem size?_octalField (hn : n < UInt64.size) : size? (octalField (width + 1) n) = some n := by
  have hoctal := isOctal_octalDigits width n
  have hread := octal?_octalField width n hn
  cases hdigits : octalDigits width n with
  | nil => exact absurd hdigits (octalDigits_ne_nil width n)
  | cons c text =>
    have hfield := octalField_eq width n
    rw [Bytes.ofText_ascii fun c hc => (hoctal c hc).toNat_lt.trans (by decide), hdigits,
      List.map_cons, List.cons_append] at hfield
    have hlow : ¬ 0x80 ≤ UInt8.ofNat c.toNat := by
      have hhigh := (hoctal c (by rw [hdigits]; exact List.mem_cons_self)).toNat_lt
      rw [UInt8.le_iff_toNat_le, UInt8.toNat_ofNat', Nat.mod_eq_of_lt (by omega)]
      show ¬ 128 ≤ c.toNat
      omega
    unfold size?
    rw [hfield, List.head?_cons]
    simp only
    rw [if_neg hlow, ← hfield, hread]

end

/-! ## 2. Parts -/

theorem length_padded {width : Nat} {bytes : Bytes} (h : bytes.length ≤ width) :
    (Bytes.padded width bytes).length = width := by
  rw [Bytes.padded, List.length_append, List.length_replicate]
  omega

theorem length_padded_nil (width : Nat) : (Bytes.padded width []).length = width :=
  length_padded (Nat.zero_le width)

theorem length_octalField {width n : Nat} (hwidth : 0 < width) (hn : n < 8 ^ width) :
    (octalField (width + 1) n).length = width + 1 := by
  have hdigits : (Nat.toDigits 8 n).length ≤ width :=
    (Nat.length_toDigits_le_iff (by decide) hwidth).2 hn
  simp only [octalField, List.length_append, List.length_replicate, List.length_map,
    List.length_singleton]
  omega

theorem byteSum_le (bytes : Bytes) : byteSum bytes ≤ 255 * bytes.length := by
  have hfold : ∀ n, bytes.foldl (fun n b => n + b.toNat) n ≤ n + 255 * bytes.length := by
    induction bytes with
    | nil => exact fun n => Nat.le_refl n
    | cons b bytes ih =>
      intro n
      have hrest := ih (n + b.toNat)
      have hbyte := b.toNat_lt
      rw [List.foldl_cons, List.length_cons]
      omega
  have hall := hfold 0
  rw [Nat.zero_add] at hall
  exact hall

theorem part_eq {front middle rest : Bytes} {offset width : Nat} (hfront : front.length = offset)
    (hmiddle : middle.length = width) : part (front ++ (middle ++ rest)) offset width = middle := by
  rw [part, ← hfront, List.drop_left, ← hmiddle, List.take_left]

structure Fits (path : Bytes) (size : Nat) : Prop where
  path : path.length ≤ maxPath
  size : size < 8 ^ 11

theorem length_gnuMagic : gnuMagic.length = 8 := by cbv

theorem length_headerEnd : headerEnd.length = 356 := by
  rw [headerEnd, List.length_append, length_padded_nil,
    length_padded (by rw [length_gnuMagic]; decide)]

section

variable {path : Bytes} {size : Nat} (h : Fits path size)

include h

theorem length_headerStart : (headerStart path size).length = 148 := by
  have hmode : (octalField 8 0o644).length = 8 := length_octalField (by decide) (by decide)
  have hsize : (octalField 12 size).length = 12 := length_octalField (by decide) h.size
  have htime : (octalField 12 0).length = 12 := length_octalField (by decide) (by decide)
  simp only [headerStart, List.length_append, length_padded h.path,
    length_padded_nil, hmode, hsize, htime]
  rfl

theorem checksum_lt :
    byteSum (headerStart path size) + blankSum + byteSum headerEnd < 8 ^ 7 := by
  -- each of the bytes adds at most 255
  have hstart := byteSum_le (headerStart path size)
  have hend := byteSum_le headerEnd
  rw [length_headerStart h] at hstart
  rw [length_headerEnd] at hend
  unfold blankSum
  omega

theorem length_checksum :
    (octalField 8 (byteSum (headerStart path size) + blankSum + byteSum headerEnd)).length = 8 :=
  length_octalField (by decide) (checksum_lt h)

theorem length_header : (header path size).length = blockSize := by
  simp only [header, List.length_append, length_headerStart h, length_checksum h, length_headerEnd]
  rfl

theorem take_header : (header path size).take 148 = headerStart path size := by
  rw [header, List.append_assoc, ← length_headerStart h, List.take_left]

theorem drop_header : (header path size).drop 156 = headerEnd := by
  have hlength : (headerStart path size
      ++ octalField 8 (byteSum (headerStart path size) + blankSum + byteSum headerEnd)).length
        = 156 := by
    rw [List.length_append, length_headerStart h, length_checksum h]
  rw [header, ← hlength, List.drop_left]

theorem part_header {offset : Nat} (hoffset : 156 ≤ offset) (width : Nat) :
    part (header path size) offset width = part headerEnd (offset - 156) width := by
  rw [part, part, ← drop_header h, List.drop_drop, Nat.add_sub_cancel' hoffset]

/-! ## 3. Readings -/

theorem kind_header : kind (header path size) = '\x00' := by
  rw [kind, drop_header h]
  cbv

theorem isFile_header : isFile (header path size) = true := by
  rw [isFile, kind_header h]
  rfl

theorem announces_header {c : Char} (hc : c ≠ '\x00') : announces c (header path size) = false := by
  rw [announces, kind_header h, decide_eq_false hc.symm, Bool.and_false]

theorem isUstar_header : isUstar (header path size) = false := by
  rw [isUstar, part_header h (by decide)]
  cbv

omit h in
theorem all_header : (header path size).all (· = 0) = false := by
  have hsign : gnuMagic.all (· = 0) = false := by cbv
  -- the sign of the format is enough
  have hend : headerEnd.all (· = 0) = false := by
    rw [headerEnd, List.all_append]
    have hmore : (Bytes.padded 255 gnuMagic).all (· = 0) = false := by
      rw [Bytes.padded, List.all_append, hsign, Bool.false_and]
    rw [hmore, Bool.and_false]
  rw [header, List.all_append, hend, Bool.and_false]

theorem checkSum_header : checkSum (header path size) = .ok () := by
  have hlt := checksum_lt h
  have hfield : part (header path size) 148 8
      = octalField 8 (byteSum (headerStart path size) + blankSum + byteSum headerEnd) := by
    rw [header, List.append_assoc]
    exact part_eq (length_headerStart h) (length_checksum h)
  have hread : octal? (part (header path size) 148 8)
      = some (byteSum (headerStart path size) + blankSum + byteSum headerEnd) := by
    rw [hfield]
    exact octal?_octalField 7 _ (hlt.trans (by decide))
  have hmod : (byteSum (headerStart path size) + blankSum + byteSum headerEnd) % UInt32.size
      = byteSum (headerStart path size) + blankSum + byteSum headerEnd :=
    Nat.mod_eq_of_lt (hlt.trans (by decide))
  unfold checkSum
  rw [hread, take_header h, drop_header h]
  simp only [numberOf, bind, Except.bind, hmod, if_true]
  rfl

theorem headerSize_header : headerSize (header path size) = .ok size := by
  have hfront : (Bytes.padded maxPath path ++ octalField 8 0o644 ++ Bytes.padded 16 []).length
      = 124 := by
    have hmode : (octalField 8 0o644).length = 8 := length_octalField (by decide) (by decide)
    simp only [List.length_append, length_padded h.path,
      length_padded_nil, hmode]
    rfl
  have hfield : part (header path size) 124 12 = octalField 12 size := by
    rw [header, headerStart]
    simp only [List.append_assoc]
    simp only [← List.append_assoc (octalField 8 0o644),
      ← List.append_assoc (Bytes.padded maxPath path)]
    exact part_eq hfront (length_octalField (by decide) h.size)
  rw [headerSize, hfield, size?_octalField 11 size (h.size.trans (by decide))]
  rfl

theorem headerPath_header (hpath : ∀ b ∈ path, b ≠ 0) : headerPath (header path size) = path := by
  have hpart : part (header path size) 0 100 = Bytes.padded maxPath path := by
    have hshort := length_padded h.path
    rw [part, List.drop_zero, header, headerStart]
    simp only [List.append_assoc]
    exact List.take_left' hshort
  have huntil : untilZero (Bytes.padded maxPath path) = path := by
    rw [untilZero, Bytes.padded,
      List.takeWhile_append_of_pos fun b hb => decide_eq_true (hpath b hb)]
    cases maxPath - path.length with
    | zero => simp
    | succ k => simp [List.replicate_succ]
  unfold headerPath
  simp only
  rw [isUstar_header h, if_neg (fun hustar => absurd hustar.1 Bool.false_ne_true), hpart, huntil]

end

end ScanArchive.Tar
