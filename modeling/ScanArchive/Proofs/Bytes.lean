import Mathlib
import ScanArchive.Bytes

/-!
# Texts and numbers as bytes

A text takes at least one byte for each of its characters, and a number is at least as large as
its last byte makes it.
-/

namespace ScanArchive.Bytes

theorem ofText_ofList (text : List Char) :
    ofText (String.ofList text) = text.flatMap String.utf8EncodeChar := by
  simp [ofText, List.utf8Encode]

theorem utf8EncodeChar_ascii {c : Char} (h : c.toNat < 128) :
    String.utf8EncodeChar c = [UInt8.ofNat c.toNat] := by
  unfold String.utf8EncodeChar
  have hshort : c.val.toNat ≤ 127 := Nat.le_of_lt_succ h
  simp only [hshort, if_true]
  rfl

theorem ofText_ascii {text : List Char} (h : ∀ c ∈ text, c.toNat < 128) :
    ofText (String.ofList text) = text.map fun c => UInt8.ofNat c.toNat := by
  rw [ofText_ofList]
  induction text with
  | nil => rfl
  | cons c text ih =>
    obtain ⟨hc, htext⟩ := List.forall_mem_cons.1 h
    rw [List.flatMap_cons, utf8EncodeChar_ascii hc, ih htext]
    rfl

theorem length_le_length_ofText (text : List Char) :
    text.length ≤ (ofText (String.ofList text)).length := by
  rw [ofText_ofList]
  induction text with
  | nil => exact Nat.zero_le _
  | cons c text ih =>
    have hpos := c.utf8Size_pos
    rw [List.flatMap_cons, List.length_append, String.length_utf8EncodeChar, List.length_cons]
    omega

theorem pow_le_littleEndian {last : UInt8} (hlast : last ≠ 0) (front : Bytes) :
    256 ^ front.length ≤ littleEndian (front ++ [last]) := by
  induction front with
  | nil =>
    have hpos : 0 < last.toNat := Nat.pos_of_ne_zero fun h => hlast (UInt8.toNat_inj.1 h)
    simp [littleEndian]
    omega
  | cons byte front ih =>
    have hcons : littleEndian (byte :: front ++ [last])
        = byte.toNat + 256 * littleEndian (front ++ [last]) := rfl
    rw [hcons, List.length_cons, Nat.pow_succ']
    omega

theorem littleEndian_lt (bytes : Bytes) : littleEndian bytes < 256 ^ bytes.length := by
  induction bytes with
  | nil => exact Nat.one_pos
  | cons byte bytes ih =>
    have hcons : littleEndian (byte :: bytes) = byte.toNat + 256 * littleEndian bytes := rfl
    have hbyte := byte.toNat_lt
    rw [hcons, List.length_cons, Nat.pow_succ']
    omega

theorem toLittleEndian_littleEndian (bytes : Bytes) :
    toLittleEndian bytes.length (littleEndian bytes) = bytes := by
  induction bytes with
  | nil => rfl
  | cons byte bytes ih =>
    have hcons : littleEndian (byte :: bytes) = byte.toNat + 256 * littleEndian bytes := rfl
    have hbyte := byte.toNat_lt
    have hlow : UInt8.ofNat (byte.toNat + 256 * littleEndian bytes) = byte := by
      rw [← UInt8.toNat_inj, UInt8.toNat_ofNat']
      omega
    have hhigh : (byte.toNat + 256 * littleEndian bytes) / 256 = littleEndian bytes := by
      omega
    rw [hcons, List.length_cons, toLittleEndian, hlow, hhigh, ih]

end ScanArchive.Bytes
