import Mathlib
import ScanArchive.Container.Zip.Source

/-!
# Records of ZIP files

Each number of a record is read as it is written, if it fits, and each central record gives the
entry that it was written for.
-/

namespace ScanArchive.Zip

/-! ## 1. Numbers -/

section

variable (n offset width : Nat) (rest : Bytes)

@[simp] theorem length_u16 : (u16 n).length = 2 := Bytes.length_toLittleEndian 2 n

@[simp] theorem length_u32 : (u32 n).length = 4 := Bytes.length_toLittleEndian 4 n

@[simp] theorem length_u64 : (u64 n).length = 8 := Bytes.length_toLittleEndian 8 n

theorem number_toLittleEndian :
    number (Bytes.toLittleEndian width n ++ rest) 0 width = n % Nat.pow 256 width := by
  rw [number, List.drop_zero, List.take_left' (Bytes.length_toLittleEndian width n),
    Bytes.littleEndian_toLittleEndian]

theorem number_append (front : Bytes) :
    number (front ++ rest) (offset + front.length) width = number rest offset width := by
  rw [number, number, Nat.add_comm, ← List.drop_drop, List.drop_left]

@[simp] theorem number_u16 : number (u16 n ++ rest) 0 2 = n % 0x10000 :=
  number_toLittleEndian n 2 rest

@[simp] theorem number_u32 : number (u32 n ++ rest) 0 4 = n % 0x100000000 :=
  number_toLittleEndian n 4 rest

@[simp] theorem number_u64 : number (u64 n ++ rest) 0 8 = n % 0x10000000000000000 :=
  number_toLittleEndian n 8 rest

@[simp] theorem number_u16_last : number (u16 n) 0 2 = n % 0x10000 := by
  rw [← List.append_nil (u16 n), number_u16]

@[simp] theorem number_u32_last : number (u32 n) 0 4 = n % 0x100000000 := by
  rw [← List.append_nil (u32 n), number_u32]

@[simp] theorem number_u64_last : number (u64 n) 0 8 = n % 0x10000000000000000 := by
  rw [← List.append_nil (u64 n), number_u64]

@[simp] theorem number_u16_append :
    number (u16 n ++ rest) (offset + 2) width = number rest offset width :=
  number_append offset width rest (u16 n)

@[simp] theorem number_u32_append :
    number (u32 n ++ rest) (offset + 4) width = number rest offset width :=
  number_append offset width rest (u32 n)

@[simp] theorem number_u64_append :
    number (u64 n ++ rest) (offset + 8) width = number rest offset width :=
  number_append offset width rest (u64 n)

end

/-! ## 2. Slices -/

section

variable {file bytes rest : Bytes} {offset : Nat}

theorem slice_eq (h : file.drop offset = bytes ++ rest) :
    slice file offset bytes.length = .ok bytes := by
  rw [slice, h, Bytes.split?_append]

theorem drop_add_length (h : file.drop offset = bytes ++ rest) :
    file.drop (offset + bytes.length) = rest := by
  rw [← List.drop_drop, h, List.drop_left]

theorem signed_eq {signature count : Nat} (reason : String) (hcount : bytes.length = count)
    (hlong : 4 ≤ count) (hsignature : number bytes 0 4 = signature)
    (h : file.drop offset = bytes ++ rest) :
    signed file offset count signature reason = .ok bytes := by
  have hfront : (bytes.take 4).length = 4 := by
    rw [List.length_take]
    omega
  have hstart : slice file offset 4 = .ok (bytes.take 4) := by
    have hsplit : file.drop offset = bytes.take 4 ++ (bytes.drop 4 ++ rest) := by
      rw [← List.append_assoc, List.take_append_drop, h]
    rw [← slice_eq hsplit, hfront]
  have hsame : Bytes.littleEndian (bytes.take 4) = signature := hsignature
  rw [signed, hstart, ← hcount]
  simp only [bind, Except.bind]
  rw [if_neg (not_not_intro hsame)]
  exact slice_eq h

end

/-! ## 3. Records of an entry -/

namespace Member

variable (m : Member) (offset : Nat)

@[simp] theorem length_common : (m.common offset).length = 22 := by
  simp [common]

theorem length_localHead : (m.localHead offset).length = 30 := by
  simp [localHead]

theorem length_centralHead : (m.centralHead offset).length = 46 := by
  simp [centralHead]

/-- Whether the numbers of an entry fit into its records, but for the offset. -/
structure Fits (m : Member) : Prop where
  name : m.name.length ≤ maxCount
  crc : m.crc ≤ maxField
  size : m.size < maxField
  packed : m.packed.length < maxField

def central (m : Member) (offset : Nat) : Central where
  name := if m.flags / utf8Flag % 2 = 1 then Text.ofBytesLossy m.name else Text.ofCodePage437 m.name
  encrypted := false
  isSealed := false
  method := some m.method
  crc := m.crc
  packedSize := m.packed.length
  size := m.size
  offset := offset

theorem length_extra : (extra offset).length = if maxField < offset then 12 else 0 := by
  unfold extra
  split <;> simp

theorem length_extra_lt : (extra offset).length < 0x10000 := by
  rw [length_extra]
  split <;> decide

variable {m}

theorem flags_eq (m : Member) : m.flags = 0 ∨ m.flags = utf8Flag := by
  unfold flags
  split
  · exact .inl rfl
  · exact .inr rfl

theorem ofCode?_code (method : Method) : Method.ofCode? method.code = some method := by
  cases method <;> rfl

theorem numbers_centralHead (hm : m.Fits) :
    number (m.centralHead offset) 0 4 = centralSignature ∧
    number (m.centralHead offset) 8 2 = m.flags ∧
    number (m.centralHead offset) 10 2 = m.method.code ∧
    number (m.centralHead offset) 16 4 = m.crc ∧
    number (m.centralHead offset) 20 4 = m.packed.length ∧
    number (m.centralHead offset) 24 4 = m.size ∧
    number (m.centralHead offset) 28 2 = m.name.length ∧
    number (m.centralHead offset) 30 2 = (extra offset).length ∧
    number (m.centralHead offset) 32 2 = 0 ∧
    number (m.centralHead offset) 42 4 = min offset maxField := by
  have hname := hm.name
  have hcrc := hm.crc
  have hsize := hm.size
  have hpacked := hm.packed
  have hflags : m.flags < 0x10000 := by
    rcases m.flags_eq with h | h <;> (rw [h]; decide)
  have hmethod : m.method.code < 0x10000 := by
    cases m.method <;> decide
  have hextra := length_extra_lt offset
  simp only [maxCount, maxField] at hname hcrc hsize hpacked
  simp [centralHead, common, centralSignature, maxField]
  omega

end Member

/-! ## 4. Central records -/

namespace Central

variable {m : Member} {offset : Nat}

theorem readExtra_nil (x : Extended) : readExtra x [] = .ok x := by
  rw [readExtra]
  split
  · rfl
  · rename_i h
    rw [show Bytes.split? 4 ([] : Bytes) = none from rfl] at h
    cases h

theorem readExtra_largeNumbers {x : Extended} {extra head rest : Bytes} {numbers : List Nat}
    {used : Nat} (hsplit : Bytes.split? 4 extra = some (head, rest))
    (hkind : number head 0 2 = largeNumbers)
    (henlarge : enlarge x.numbers rest = (numbers, some used)) :
    readExtra x extra = readExtra { x with numbers } (rest.drop (max (number head 2 2) used)) := by
  rw [readExtra]
  split
  · rename_i h
    rw [hsplit] at h
    cases h
  · rename_i head' rest' h
    rw [hsplit] at h
    obtain ⟨rfl, rfl⟩ := Prod.mk.inj (Option.some.inj h)
    simp only
    rw [if_pos hkind, henlarge]

/-- An offset that is too large for the record is found in the extra field. -/
theorem readExtra_extra (hm : m.Fits) (hoffset : offset < UInt64.size) :
    readExtra {
      numbers := [m.size, m.packed.length, min offset maxField], method := m.method.code }
      (Member.extra offset) = .ok {
        numbers := [m.size, m.packed.length, offset], method := m.method.code } := by
  have hsize := Nat.ne_of_lt hm.size
  have hpacked := Nat.ne_of_lt hm.packed
  rw [Member.extra]
  by_cases hlarge : maxField < offset
  · have hmod : offset % 0x10000000000000000 = offset := Nat.mod_eq_of_lt hoffset
    have hsplit : Bytes.split? 4 (u16 largeNumbers ++ u16 8 ++ u64 offset)
        = some (u16 largeNumbers ++ u16 8, u64 offset) :=
      Bytes.split?_append (u16 largeNumbers ++ u16 8) (u64 offset)
    have henlarge : enlarge [m.size, m.packed.length, maxField] (u64 offset)
        = ([m.size, m.packed.length, offset], some 8) := by
      have hwhole : Bytes.split? 8 (u64 offset) = some (u64 offset, []) := by
        rw [Bytes.split?_eq_some_iff, List.append_nil]
        exact ⟨rfl, length_u64 offset⟩
      have hvalue : Bytes.littleEndian (u64 offset) = offset := by
        rw [u64, Bytes.littleEndian_toLittleEndian]
        exact hmod
      simp [enlarge, hsize, hpacked, hwhole, hvalue]
    have hlength : number (u16 largeNumbers ++ u16 8) 2 2 = 8 := by simp
    have hkind : number (u16 largeNumbers ++ u16 8) 0 2 = largeNumbers := by simp [largeNumbers]
    rw [if_pos hlarge, Nat.min_eq_right hlarge.le,
      readExtra_largeNumbers hsplit hkind henlarge, hlength, Nat.max_self,
      List.drop_eq_nil_of_le (Nat.le_of_eq (length_u64 offset)), readExtra_nil]
  · rw [if_neg hlarge, Nat.min_eq_left (Nat.le_of_not_lt hlarge), readExtra_nil]

theorem read_centralRecord (hm : m.Fits) (hoffset : offset < UInt64.size) {file rest : Bytes}
    {place : Nat} (hfile : file.drop place = m.centralRecord offset ++ rest) :
    read file 0 place
      = .ok (m.central offset, place + (m.centralRecord offset).length) := by
  have hhead := m.length_centralHead offset
  obtain ⟨hsignature, hflags, hmethod, hcrc, hpacked, hsize, hname, hextra, hcomment, hstart⟩ :=
    m.numbers_centralHead offset hm
  rw [Member.centralRecord, List.append_assoc, List.append_assoc] at hfile
  have hsigned := signed_eq "Invalid Central Directory header" hhead (by decide) hsignature hfile
  have htail : slice file (place + 46) (m.name.length + (Member.extra offset).length + 0)
      = .ok (m.name ++ Member.extra offset) := by
    have hbehind := drop_add_length hfile
    rw [hhead, ← List.append_assoc] at hbehind
    rw [← slice_eq hbehind, List.length_append]
    rfl
  have hplain : decide (m.flags % 2 = 1) = false := by
    rcases m.flags_eq with h | h <;> (rw [h]; rfl)
  have hmethod' : m.method.code ≠ encryptedMethod := by
    cases m.method <;> decide
  have hread := readExtra_extra hm hoffset
  unfold read
  simp only [bind, Except.bind, hsigned, hflags, hmethod, hcrc, hpacked, hsize, hname, hextra,
    hcomment, hstart, htail, List.take_left, List.drop_left, List.take_length, hread]
  have hstart : ¬ UInt64.size ≤ [m.size, m.packed.length, offset][2]?.getD 0 + 0 :=
    Nat.not_le_of_lt hoffset
  rw [if_neg (fun h => hmethod' h.1), if_neg hstart, Member.ofCode?_code, hplain]
  have hlength : place + 46 + m.name.length + (Member.extra offset).length + 0
      = place + (m.centralRecord offset).length := by
    rw [Member.centralRecord, List.length_append, List.length_append, hhead]
    omega
  rw [hlength]
  rfl

end Central

end ScanArchive.Zip
