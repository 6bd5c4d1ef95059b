import ScanArchive.Wire.Scalar

/-!
# Scalars read back

A number or text that is written is read back, and what follows it is left.  Main statements:
`encode_append_inj`, a spelled number shows where it ends, and one `reads_*` for each scalar.
-/

namespace ScanArchive.Wire

/-! ## 1. Spelled numbers -/

namespace Varint

theorem lt_pow_succ (n : Nat) : n < Nat.pow 128 (n + 1) :=
  Nat.lt_trans (Nat.lt_succ_self n) (Nat.lt_pow_self (by decide))

/-- No spelling of a number starts another one. -/
theorem encode_append_inj {m n : Nat} {xs ys : Bytes} (h : encode m ++ xs = encode n ++ ys) :
    m = n ∧ xs = ys := by
  have hm : m < Nat.pow 128 (m + n + 1) :=
    Nat.lt_of_lt_of_le (lt_pow_succ m) (Nat.pow_le_pow_right (by decide) (by omega))
  have hn : n < Nat.pow 128 (m + n + 1) :=
    Nat.lt_of_lt_of_le (lt_pow_succ n) (Nat.pow_le_pow_right (by decide) (by omega))
  have hread := readGroups_encode (m + n + 1) m hm (by omega) xs
  rw [h, readGroups_encode (m + n + 1) n hn (by omega) ys] at hread
  simp only [Option.some.injEq, Prod.mk.injEq] at hread
  exact ⟨hread.1.symm, hread.2.symm⟩

theorem readGroups_encode_of_le (groups n : Nat) (h : Nat.pow 128 groups ≤ n) (rest : Bytes) :
    readGroups groups (encode n ++ rest) = none := by
  induction groups generalizing n with
  | zero => rfl
  | succ groups ih =>
    have h : Nat.pow 128 groups * 128 ≤ n := h
    have hpos : 0 < Nat.pow 128 groups := Nat.pow_pos (by decide)
    have hb : (UInt8.ofNat (n % 128 + 128)).toNat = n % 128 + 128 := by simp; omega
    rw [encode_of_le (by omega), List.cons_append, readGroups, hb, if_neg (by omega),
      ih (n / 128) (by omega)]
    rfl

theorem read_encode_of_le {n : Nat} (h : UInt64.size ≤ n) (rest : Bytes) :
    read (encode n ++ rest) = none := by
  rw [read]
  by_cases hfit : n < Nat.pow 128 maxLength
  · rw [readGroups_encode maxLength n hfit (by decide)]
    exact Option.filter_some_neg (decide_eq_false (Nat.not_lt.2 h))
  · rw [readGroups_encode_of_le maxLength n (Nat.le_of_not_lt hfit)]
    rfl

/-- The first byte of a spelled number is zero for the number zero only. -/
theorem encode_eq_cons_of_pos {n : Nat} (h : 0 < n) :
    ∃ byte rest, encode n = byte :: rest ∧ byte ≠ 0 := by
  by_cases hn : n < 128
  · refine ⟨UInt8.ofNat n, [], encode_of_lt hn, fun h0 => ?_⟩
    have hval := congrArg UInt8.toNat h0
    simp at hval
    omega
  · refine ⟨UInt8.ofNat (n % 128 + 128), encode (n / 128), encode_of_le (by omega), fun h0 => ?_⟩
    have hval := congrArg UInt8.toNat h0
    simp at hval
    omega

end Varint

/-! ## 2. Delimited byte strings -/

theorem delimited_append_inj {a b xs ys : Bytes} (h : delimited a ++ xs = delimited b ++ ys) :
    a = b ∧ xs = ys := by
  simp only [delimited, List.append_assoc] at h
  obtain ⟨hlen, htail⟩ := Varint.encode_append_inj h
  exact List.append_inj htail hlen

theorem length_le_length_delimited (body : Bytes) : body.length ≤ (delimited body).length := by
  rw [length_delimited, delimitedSize]
  omega

theorem delimited_ne_nil (body : Bytes) : delimited body ≠ [] := by
  simp [delimited, Varint.encode_ne_nil]

/-! ## 3. Scalars -/

namespace Scalar

variable {α : Type}

/-- Every value that memory can hold is read back, and what follows it is left. -/
def Reads (scalar : Scalar α) : Prop :=
  ∀ (a : α) (rest : Bytes), (scalar.write a).length < UInt64.size →
    scalar.read (scalar.write a ++ rest) = .ok (a, rest)

theorem reads_ofVarint {zero : α} {toNat : α → Nat} {ofNat : Nat → α}
    (hlt : ∀ a, toNat a < UInt64.size) (hback : ∀ a, ofNat (toNat a) = a) :
    (ofVarint zero toNat ofNat).Reads := by
  intro a rest _
  show (readVarint (Varint.encode (toNat a) ++ rest)).map _ = _
  rw [readVarint_eq_ok_iff.2 (Varint.read_encode (hlt a) rest)]
  simp only [Except.map, hback]

theorem reads_int64 : int64.Reads :=
  reads_ofVarint (fun v => v.toUInt64.toNat_lt) fun v => by
    rw [Nat.toUInt64, UInt64.ofNat_toNat, Int64.toInt64_toUInt64]

theorem toInt32_toUInt64_toInt64 (v : Int32) : v.toInt64.toUInt64.toNat.toUInt32.toInt32 = v := by
  apply Int32.toBitVec_inj.1
  show BitVec.ofNat 32 (v.toBitVec.signExtend 64).toNat = v.toBitVec
  rw [BitVec.ofNat_toNat]
  apply BitVec.eq_of_getLsbD_eq
  intro i hi
  rw [BitVec.getLsbD_setWidth, BitVec.getLsbD_signExtend, if_pos hi,
    decide_eq_true hi, decide_eq_true (by omega : i < 64), Bool.true_and, Bool.true_and]

theorem reads_int32 : int32.Reads :=
  reads_ofVarint (fun v => v.toInt64.toUInt64.toNat_lt) toInt32_toUInt64_toInt64

theorem reads_bool : bool.Reads :=
  reads_ofVarint (fun b => by cases b <;> decide) (fun b => by cases b <;> rfl)

theorem reads_blob : blob.Reads := by
  intro body rest h
  exact readDelimited_delimited (Nat.lt_of_le_of_lt (length_le_length_delimited body) h) rest

theorem reads_text : text.Reads := by
  intro s rest h
  have hbody : (Bytes.ofText s).length < UInt64.size :=
    Nat.lt_of_le_of_lt (length_le_length_delimited (Bytes.ofText s)) h
  simp only [text, readDelimited_delimited hbody, Bytes.toText?_ofText]

end Scalar
end ScanArchive.Wire
