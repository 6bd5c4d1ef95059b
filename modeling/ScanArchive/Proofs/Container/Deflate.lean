import Mathlib
import ScanArchive.Container.Deflate.Inflate

/-!
# Deflated forms that compress nothing

What is stored in blocks as it is comes back as it was, and takes hardly more room.
-/

namespace ScanArchive.Deflate

theorem littleEndian_toLittleEndian_two {n : Nat} (h : n ≤ maxStored) :
    Bytes.littleEndian (Bytes.toLittleEndian 2 n) = n := by
  rw [Bytes.littleEndian_toLittleEndian]
  exact Nat.mod_eq_of_lt (Nat.lt_succ_of_le h)

theorem readStored_eq {bytes : Bytes} (h : bytes.length ≤ maxStored) (rest : Bytes)
    (count current : Nat) (out : Array UInt8) :
    readStored ⟨Bytes.toLittleEndian 2 bytes.length
        ++ Bytes.toLittleEndian 2 (maxStored - bytes.length) ++ bytes ++ rest, count, current⟩ out
      = (out ++ bytes.toArray, .ok { rest }) := by
  have hsplit : Bytes.split? 4 (Bytes.toLittleEndian 2 bytes.length
        ++ Bytes.toLittleEndian 2 (maxStored - bytes.length) ++ bytes ++ rest)
      = some (Bytes.toLittleEndian 2 bytes.length
          ++ Bytes.toLittleEndian 2 (maxStored - bytes.length), bytes ++ rest) := by
    rw [Bytes.split?_eq_some_iff, List.append_assoc _ bytes, List.length_append,
      Bytes.length_toLittleEndian, Bytes.length_toLittleEndian]
    exact ⟨rfl, rfl⟩
  unfold readStored
  rw [BitReader.align, hsplit]
  have hfront : (Bytes.toLittleEndian 2 bytes.length
      ++ Bytes.toLittleEndian 2 (maxStored - bytes.length)).take 2
        = Bytes.toLittleEndian 2 bytes.length :=
    List.take_left' (Bytes.length_toLittleEndian 2 _)
  have hback : (Bytes.toLittleEndian 2 bytes.length
      ++ Bytes.toLittleEndian 2 (maxStored - bytes.length)).drop 2
        = Bytes.toLittleEndian 2 (maxStored - bytes.length) :=
    List.drop_left' (Bytes.length_toLittleEndian 2 _)
  simp only
  rw [hfront, hback, littleEndian_toLittleEndian_two h,
    littleEndian_toLittleEndian_two (Nat.sub_le _ _), if_neg (by omega), List.take_left,
    List.drop_left, if_neg (Nat.lt_irrefl _), List.foldl_push_eq_append,
    List.map_id']

theorem bit_head (isLast : Bool) (tail : Bytes) :
    BitReader.bit { rest := (if isLast then 1 else 0) :: tail }
      = .ok (isLast.toNat, ⟨tail, 7, 0⟩) := by
  cases isLast <;> rfl

theorem readBlock_head (tail : Bytes) (out : Array UInt8) :
    readBlock ⟨tail, 7, 0⟩ out = readStored ⟨tail, 5, 0⟩ out := by
  have hkind : BitReader.bits 2 ⟨tail, 7, 0⟩ = .ok (0, ⟨tail, 5, 0⟩) := by
    simp [BitReader.bits, BitReader.bits?, BitReader.bit?]
  rw [readBlock, hkind]
  rfl

theorem readBlocks_storedBlock {bytes : Bytes} (h : bytes.length ≤ maxStored) (rest : Bytes)
    (isLast : Bool) (steps : Nat) (out : Array UInt8) :
    readBlocks (steps + 1) { rest := storedBlock isLast bytes ++ rest } out
      = if isLast then (out ++ bytes.toArray, none)
        else readBlocks steps { rest } (out ++ bytes.toArray) := by
  have hstored := readStored_eq h rest 5 0 out
  rw [storedBlock, List.cons_append, List.cons_append, List.cons_append, readBlocks, bit_head]
  simp only
  rw [readBlock_head, hstored]
  cases isLast <;> rfl

theorem length_storedBlock (isLast : Bool) (bytes : Bytes) :
    (storedBlock isLast bytes).length = bytes.length + 5 := by
  simp [storedBlock]
  omega

theorem maxStored_lt_of_not_isEmpty {bytes : Bytes} (h : ¬ (bytes.drop maxStored).isEmpty = true) :
    maxStored < bytes.length := by
  rw [List.isEmpty_iff, List.drop_eq_nil_iff] at h
  omega

theorem readBlocks_store (bytes : Bytes) : ∀ (steps : Nat) (out : Array UInt8),
    bytes.length < steps →
      readBlocks steps { rest := store bytes } out = (out ++ bytes.toArray, none) := by
  -- block by block; each but the last has some bytes
  induction bytes using store.induct with
  | case1 bytes rest hlast =>
    intro steps out hsteps
    obtain ⟨steps, rfl⟩ : ∃ k, steps = k + 1 := ⟨steps - 1, by omega⟩
    have hshort : bytes.length ≤ maxStored := List.drop_eq_nil_iff.1 (List.isEmpty_iff.1 hlast)
    have hblock := readBlocks_storedBlock hshort [] true steps out
    rw [store, if_pos hlast]
    rwa [List.append_nil, if_pos rfl] at hblock
  | case2 bytes rest hmore ih =>
    intro steps out hsteps
    obtain ⟨steps, rfl⟩ : ∃ k, steps = k + 1 := ⟨steps - 1, by omega⟩
    have hlong := maxStored_lt_of_not_isEmpty hmore
    have hpos : 0 < maxStored := by decide
    have hleft : (bytes.drop maxStored).length < steps := by
      rw [List.length_drop]
      omega
    rw [store, if_neg hmore, readBlocks_storedBlock (List.length_take_le _ _) _ false,
      if_neg Bool.false_ne_true, ih steps _ hleft, Array.append_assoc,
      List.append_toArray (bytes.take maxStored), List.take_append_drop]

/-- A block takes five bytes more than it holds, and all but the last hold many. -/
theorem length_store (bytes : Bytes) :
    bytes.length ≤ (store bytes).length ∧ (store bytes).length ≤ 2 * bytes.length + 5 := by
  induction bytes using store.induct with
  | case1 bytes rest hlast =>
    rw [store, if_pos hlast, length_storedBlock]
    omega
  | case2 bytes rest hmore ih =>
    have hlong := maxStored_lt_of_not_isEmpty hmore
    have hpos : 5 ≤ maxStored := by decide
    have hdrop : rest.length = bytes.length - maxStored := List.length_drop
    rw [store, if_neg hmore, List.length_append, length_storedBlock, List.length_take]
    show _ ≤ _ + (store rest).length ∧ _ + (store rest).length ≤ _
    omega

/-- What is stored comes back as it was. -/
theorem inflate_store (bytes : Bytes) : inflate (store bytes) = (bytes, false) := by
  have hsteps : bytes.length < (BitReader.mk (store bytes) 0 0).size + 1 := by
    have hlength := (length_store bytes).1
    show bytes.length < 0 + 8 * (store bytes).length + 1
    omega
  have hread : readAll (store bytes) = (bytes.toArray, none) := by
    rw [readAll, readBlocks_store bytes _ _ hsteps, Array.empty_append]
  rw [inflate, hread]

end ScanArchive.Deflate
