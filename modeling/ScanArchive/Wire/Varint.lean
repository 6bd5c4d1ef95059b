import ScanArchive.Bytes

/-!
# Variable-length numbers

A number is written in groups of seven bits, least significant group first, one group to a
byte; the high bit of a byte says that another byte follows.  `read` accepts every such
spelling of a number below 2⁶⁴ in at most ten bytes, also one that pads with empty groups.
Main statement: `read_encode`, a written number reads back and what follows it is left.
-/

namespace ScanArchive.Wire.Varint

def maxLength : Nat := 10

/-- The shortest spelling of a number. -/
def encode (n : Nat) : Bytes :=
  if n < 128 then [UInt8.ofNat n] else UInt8.ofNat (n % 128 + 128) :: encode (n / 128)

/-- The number of bytes that `encode` takes: one per started group of seven bits. -/
def size (n : Nat) : Nat := n.log2 / 7 + 1

/-- Reads a number of at most `groups` bytes, whatever its value. -/
def readGroups : (groups : Nat) → Bytes → Option (Nat × Bytes)
  | 0, _ => none
  | _ + 1, [] => none
  | groups + 1, byte :: rest =>
    if byte.toNat < 128 then some (byte.toNat, rest)
    else (readGroups groups rest).map fun (high, rest) => (byte.toNat % 128 + 128 * high, rest)

def read (bytes : Bytes) : Option (Nat × Bytes) :=
  (readGroups maxLength bytes).filter fun (n, _) => n < UInt64.size

theorem encode_of_lt {n : Nat} (h : n < 128) : encode n = [UInt8.ofNat n] := by
  rw [encode, if_pos h]

theorem encode_of_le {n : Nat} (h : 128 ≤ n) :
    encode n = UInt8.ofNat (n % 128 + 128) :: encode (n / 128) := by
  rw [encode, if_neg (by omega)]

theorem encode_ne_nil (n : Nat) : encode n ≠ [] := by
  rw [encode]; split <;> simp

theorem length_encode_pos (n : Nat) : 0 < (encode n).length :=
  List.length_pos_iff.2 (encode_ne_nil n)

theorem length_encode (n : Nat) : (encode n).length = size n := by
  fun_induction encode n with
  | case1 n h =>
    have : n.log2 < 7 := by
      by_cases hn : n = 0
      · subst hn; decide
      · exact (Nat.log2_lt hn).2 h
    simp only [size, List.length_singleton]
    omega
  | case2 n h ih =>
    have hlog : (n / 128).log2 + 7 = n.log2 := by
      have h7 : n / 2 / 2 / 2 / 2 / 2 / 2 / 2 = n / 128 := by omega
      rw [← h7]
      simp only [Nat.log2_def n, Nat.log2_def (n / 2), Nat.log2_def (n / 2 / 2),
        Nat.log2_def (n / 2 / 2 / 2), Nat.log2_def (n / 2 / 2 / 2 / 2),
        Nat.log2_def (n / 2 / 2 / 2 / 2 / 2), Nat.log2_def (n / 2 / 2 / 2 / 2 / 2 / 2)]
      repeat rw [if_pos (by omega)]
    simp only [size] at ih ⊢
    rw [List.length_cons, ih, ← hlog]
    omega

theorem readGroups_encode (groups n : Nat) (h : n < Nat.pow 128 groups) (h0 : 0 < groups)
    (rest : Bytes) : readGroups groups (encode n ++ rest) = some (n, rest) := by
  induction groups generalizing n with
  | zero => omega
  | succ groups ih =>
    by_cases hn : n < 128
    · have hb : (UInt8.ofNat n).toNat = n := by simp; omega
      rw [encode_of_lt hn, List.singleton_append, readGroups, hb, if_pos hn]
    · have hb : (UInt8.ofNat (n % 128 + 128)).toNat = n % 128 + 128 := by simp; omega
      rw [encode_of_le (by omega), List.cons_append, readGroups, hb, if_neg (by omega)]
      have h : n < Nat.pow 128 groups * 128 := h
      have hg : 0 < groups := by
        rcases Nat.eq_zero_or_pos groups with rfl | hg
        · exact absurd h hn
        · exact hg
      rw [ih (n / 128) (by omega) hg]
      simp only [Option.map_some, Option.some.injEq, Prod.mk.injEq, and_true]
      omega

theorem read_encode {n : Nat} (h : n < UInt64.size) (rest : Bytes) :
    read (encode n ++ rest) = some (n, rest) := by
  have hfit : n < Nat.pow 128 maxLength := Nat.lt_trans h (by decide)
  rw [read, readGroups_encode maxLength n hfit (by decide)]
  exact Option.filter_some_pos (by simpa only [decide_eq_true_eq] using h)

theorem suffix_of_readGroups {groups n : Nat} {bytes rest : Bytes}
    (h : readGroups groups bytes = some (n, rest)) :
    rest <:+ bytes ∧ rest.length < bytes.length := by
  induction groups generalizing bytes n with
  | zero => simp [readGroups] at h
  | succ groups ih =>
    cases bytes with
    | nil => simp [readGroups] at h
    | cons byte tail =>
      rw [readGroups] at h
      split at h
      · simp only [Option.some.injEq, Prod.mk.injEq] at h
        obtain ⟨-, rfl⟩ := h
        exact ⟨List.suffix_cons byte tail, by simp⟩
      · obtain ⟨⟨high, tail'⟩, ht, he⟩ := Option.map_eq_some_iff.1 h
        simp only [Prod.mk.injEq] at he
        obtain ⟨-, rfl⟩ := he
        obtain ⟨hs, hl⟩ := ih ht
        exact ⟨hs.trans (List.suffix_cons byte tail), by simp only [List.length_cons]; omega⟩

theorem suffix_of_read {n : Nat} {bytes rest : Bytes} (h : read bytes = some (n, rest)) :
    rest <:+ bytes ∧ rest.length < bytes.length := by
  rw [read, Option.filter_eq_some_iff] at h
  exact suffix_of_readGroups h.1

end ScanArchive.Wire.Varint
