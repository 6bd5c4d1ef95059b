import Mathlib
import ScanArchive.Proofs.Framing.Messages

/-!
# The grammar of delimited messages

Which byte strings begin with a message behind its length, for the reader of chunks and for the
decoder that the writer charges its budget by.  Main statement: `delimited_grammar`.  The two
differ on lengths of 2⁶⁴ and more only: the decoder refuses them, and the reader counts their low
64 bits.
-/

namespace ScanArchive

namespace Wire.Varint

/-! ## 1. Spelled numbers -/

/-- The high bit of every byte but the last is set. -/
def Ended (front : Bytes) : Prop :=
  ∃ init last, front = init ++ [last] ∧ (∀ byte ∈ init, 128 ≤ byte.toNat) ∧ last.toNat < 128

/-- The number that groups of seven bits spell, the least significant one first. -/
def value (front : Bytes) : Nat := ∑ i : Fin front.length, front[i].toNat % 128 * 128 ^ (i : Nat)

@[simp] theorem value_nil : value [] = 0 := rfl

@[simp] theorem value_cons (byte : UInt8) (front : Bytes) :
    value (byte :: front) = byte.toNat % 128 + 128 * value front := by
  have hshift : ∀ i : Fin front.length,
      front[i].toNat % 128 * 128 ^ ((i : Nat) + 1)
        = 128 * (front[i].toNat % 128 * 128 ^ (i : Nat)) := fun i => by ring
  show ∑ i : Fin (front.length + 1), (byte :: front)[i].toNat % 128 * 128 ^ (i : Nat) = _
  rw [Fin.sum_univ_succ, value, Finset.mul_sum, ← Finset.sum_congr rfl fun i _ => hshift i]
  simp

theorem ended_singleton {byte : UInt8} (h : byte.toNat < 128) : Ended [byte] :=
  ⟨[], byte, rfl, by simp, h⟩

theorem ended_cons {byte : UInt8} {front : Bytes} (h : 128 ≤ byte.toNat) :
    Ended (byte :: front) ↔ Ended front := by
  constructor
  · rintro ⟨init, last, hfront, hinit, hlast⟩
    cases init with
    | nil =>
      obtain ⟨rfl, -⟩ := List.cons.inj hfront
      omega
    | cons first init =>
      exact ⟨init, last, (List.cons.inj hfront).2,
        fun b hb => hinit b (List.mem_cons_of_mem _ hb), hlast⟩
  · rintro ⟨init, last, rfl, hinit, hlast⟩
    exact ⟨byte :: init, last, rfl, List.forall_mem_cons.2 ⟨h, hinit⟩, hlast⟩

theorem Ended.of_cons {byte : UInt8} {front : Bytes} (h : Ended (byte :: front))
    (hlast : byte.toNat < 128) : front = [] := by
  obtain ⟨init, last, hfront, hinit, -⟩ := h
  cases init with
  | nil => exact (List.cons.inj hfront).2
  | cons first init =>
    obtain ⟨rfl, -⟩ := List.cons.inj hfront
    have hfirst := hinit byte List.mem_cons_self
    omega

/-- Just the spelled numbers of at most so many bytes are read. -/
theorem readGroups_eq_some_iff {groups n : Nat} {bytes tail : Bytes} :
    readGroups groups bytes = some (n, tail) ↔
      ∃ front, Ended front ∧ front.length ≤ groups ∧ value front = n ∧ bytes = front ++ tail := by
  -- byte by byte; the last byte of a number ends it, every other one leaves the rest of it
  induction groups generalizing bytes n with
  | zero =>
    simp only [readGroups, reduceCtorEq, false_iff]
    rintro ⟨front, ⟨init, last, rfl, -⟩, hlength, -⟩
    simp at hlength
  | succ groups ih =>
    cases bytes with
    | nil =>
      simp only [readGroups, reduceCtorEq, false_iff]
      rintro ⟨front, ⟨init, last, rfl, -⟩, -, -, hbytes⟩
      simp at hbytes
    | cons byte bytes =>
      by_cases hlast : byte.toNat < 128
      · rw [readGroups, if_pos hlast]
        constructor
        · intro h
          obtain ⟨rfl, rfl⟩ := Prod.mk.inj (Option.some.inj h)
          exact ⟨[byte], ended_singleton hlast, by simp, by simp; omega, rfl⟩
        · rintro ⟨front, hended, -, rfl, hbytes⟩
          cases front with
          | nil => obtain ⟨init, last, h, -⟩ := hended; simp at h
          | cons first front =>
            obtain ⟨rfl, rfl⟩ := List.cons.inj hbytes
            obtain rfl := hended.of_cons hlast
            rw [value_cons, value_nil, Nat.mod_eq_of_lt hlast]
            rfl
      · rw [readGroups, if_neg hlast, Option.map_eq_some_iff]
        constructor
        · rintro ⟨⟨high, tail'⟩, hread, heq⟩
          obtain ⟨rfl, rfl⟩ := Prod.mk.inj heq
          obtain ⟨front, hended, hlength, rfl, rfl⟩ := ih.1 hread
          exact ⟨byte :: front, (ended_cons (by omega)).2 hended, Nat.succ_le_succ hlength,
            value_cons _ _, rfl⟩
        · rintro ⟨front, hended, hlength, rfl, hbytes⟩
          cases front with
          | nil => obtain ⟨init, last, h, -⟩ := hended; simp at h
          | cons first front =>
            obtain ⟨rfl, rfl⟩ := List.cons.inj hbytes
            have hrest := (ended_cons (by omega)).1 hended
            exact ⟨(value front, tail), ih.2 ⟨front, hrest, Nat.le_of_succ_le_succ hlength, rfl, rfl⟩,
              by rw [value_cons]⟩

/-- Of the spelled numbers the decoder takes those below 2⁶⁴. -/
theorem read_eq_some_iff {n : Nat} {bytes tail : Bytes} :
    read bytes = some (n, tail) ↔ readGroups maxLength bytes = some (n, tail) ∧ n < UInt64.size := by
  rw [read, Option.filter_eq_some_iff, decide_eq_true_eq]

end Wire.Varint

namespace Framing

open Wire

/-! ## 2. The outcome of reading a message -/

def lengthFault (more : Nat) (tail : Bytes) : FramingFault :=
  if tail.length < more then .truncatedLength else .malformedLength

/-- The reader takes a length off as the decoder of groups does. -/
theorem gives_readLength_eq (more : Nat) (byte : UInt8) (tail : Bytes) :
    Gives (readLength more byte) tail
      (match Varint.readGroups (more + 1) (byte :: tail) with
        | some found => .ok found
        | none => .error (.framing (lengthFault more tail))) := by
  induction more generalizing byte tail with
  | zero =>
    unfold readLength
    by_cases hlast : byte.toNat < 128
    · simp only [Varint.readGroups, if_pos hlast]
      exact gives_pure _ _
    · simp only [Varint.readGroups, if_neg hlast]
      exact gives_throw _ _
  | succ more ih =>
    unfold readLength
    rw [Varint.readGroups]
    by_cases hlast : byte.toNat < 128
    · simp only [if_pos hlast]
      exact gives_pure _ _
    · simp only [if_neg hlast]
      cases tail with
      | nil => exact (gives_take 1 []).bind (gives_throw _ _)
      | cons next tail =>
        -- with one more byte read there is also one place less for the bytes to come
        have hnext : Gives (take 1) (next :: tail) (.ok ([next], tail)) := gives_take 1 _
        refine hnext.bind ?_
        have hrest := ih next tail
        cases hgroups : Varint.readGroups (more + 1) (next :: tail) with
        | none =>
          rw [hgroups] at hrest
          have hfault : lengthFault (more + 1) (next :: tail) = lengthFault more tail := by
            simp only [lengthFault, List.length_cons, Nat.add_lt_add_iff_right]
          simp only [Option.map_none, hfault]
          exact hrest.bind_error
        | some found =>
          rw [hgroups] at hrest
          exact hrest.bind (gives_pure _ _)

theorem gives_readBody_eq (length : Nat) (bytes : Bytes) :
    Gives (readBody length) bytes
      (if length ≤ bytes.length then .ok (bytes.take length, bytes.drop length)
        else .error (.framing (.truncatedMessage length bytes.length))) := by
  have htake := gives_take length bytes
  by_cases hlong : length ≤ bytes.length
  · rw [if_pos hlong]
    refine htake.bind ?_
    rw [if_pos (List.length_take_of_le hlong)]
    exact gives_pure _ _
  · rw [if_neg hlong]
    rw [List.take_of_length_le (by omega)] at htake
    refine htake.bind ?_
    rw [if_neg (by omega)]
    exact gives_throw _ _

/-- The message that `bytes` begin with and what follows it, none at the end. -/
def splitDelimited (bytes : Bytes) : Except FramingFault (Option Bytes × Bytes) :=
  match bytes with
  | [] => .ok (none, [])
  | _ :: tail =>
    match Varint.readGroups Varint.maxLength bytes with
    | none => .error (lengthFault (Varint.maxLength - 1) tail)
    | some (n, rest) =>
      let length := n % UInt64.size
      if length ≤ rest.length then .ok (some (rest.take length), rest.drop length)
      else .error (.truncatedMessage length rest.length)

theorem gives_readDelimited_eq (bytes : Bytes) :
    Gives readDelimited bytes ((splitDelimited bytes).mapError .framing) := by
  cases bytes with
  | nil => exact gives_readDelimited_nil
  | cons byte tail =>
    have hfirst : Gives (take 1) (byte :: tail) (.ok ([byte], tail)) := gives_take 1 _
    refine hfirst.bind ?_
    have hlength := gives_readLength_eq (Varint.maxLength - 1) byte tail
    rw [splitDelimited]
    cases hgroups : Varint.readGroups Varint.maxLength (byte :: tail) with
    | none =>
      rw [show Varint.maxLength - 1 + 1 = Varint.maxLength from rfl, hgroups] at hlength
      exact hlength.bind_error
    | some found =>
      rw [show Varint.maxLength - 1 + 1 = Varint.maxLength from rfl, hgroups] at hlength
      refine hlength.bind ?_
      have hbody := gives_readBody_eq (found.1 % UInt64.size) found.2
      simp only
      split at hbody
      · rename_i hlong
        rw [if_pos hlong]
        exact hbody.bind (gives_pure _ _)
      · rename_i hlong
        rw [if_neg hlong]
        exact hbody.bind_error

/-! ## 3. The grammar -/

/-- A number of at most ten bytes, then `body`, then `rest`. -/
structure Divides (bytes front body rest : Bytes) : Prop where
  ended : Varint.Ended front
  short : front.length ≤ Varint.maxLength
  eq : bytes = front ++ (body ++ rest)

variable {bytes front body rest : Bytes}

theorem divides_iff {n : Nat} :
    (∃ front, Divides bytes front body rest ∧ Varint.value front = n) ↔
      Varint.readGroups Varint.maxLength bytes = some (n, body ++ rest) := by
  rw [Varint.readGroups_eq_some_iff]
  constructor
  · rintro ⟨front, h, hvalue⟩
    exact ⟨front, h.ended, h.short, hvalue, h.eq⟩
  · rintro ⟨front, hended, hshort, hvalue, heq⟩
    exact ⟨front, ⟨hended, hshort, heq⟩, hvalue⟩

theorem Divides.readGroups (h : Divides bytes front body rest) :
    Varint.readGroups Varint.maxLength bytes = some (Varint.value front, body ++ rest) :=
  divides_iff.1 ⟨front, h, rfl⟩

theorem Divides.ne_nil (h : Divides bytes front body rest) : bytes ≠ [] := by
  rintro rfl
  have hread := h.readGroups
  simp [Varint.readGroups, Varint.maxLength] at hread

theorem splitDelimited_eq_none_iff :
    splitDelimited bytes = .ok (none, rest) ↔ bytes = [] ∧ rest = [] := by
  cases bytes with
  | nil => simp [splitDelimited, eq_comm]
  | cons byte tail =>
    rw [splitDelimited]
    split
    · simp
    · dsimp only
      split <;> simp

theorem splitDelimited_eq_some_iff :
    splitDelimited bytes = .ok (some body, rest) ↔
      ∃ front, Divides bytes front body rest ∧
        body.length = Varint.value front % UInt64.size := by
  constructor
  · intro h
    cases bytes with
    | nil => simp [splitDelimited] at h
    | cons byte tail =>
      rw [splitDelimited] at h
      split at h
      · cases h
      · rename_i n found hgroups
        dsimp only at h
        split at h
        · rename_i hlong
          obtain ⟨hbody, rfl⟩ := Prod.mk.inj (Except.ok.inj h)
          obtain rfl := Option.some.inj hbody
          rw [← List.take_append_drop (n % UInt64.size) found] at hgroups
          obtain ⟨front, hdivides, rfl⟩ := divides_iff.2 hgroups
          exact ⟨front, hdivides, List.length_take_of_le hlong⟩
        · cases h
  · rintro ⟨front, hdivides, hlength⟩
    have hgroups := hdivides.readGroups
    obtain ⟨byte, tail, rfl⟩ := List.exists_cons_of_ne_nil hdivides.ne_nil
    rw [splitDelimited, hgroups]
    simp only [← hlength, List.length_append, Nat.le_add_right, if_true, List.take_left,
      List.drop_left]

/-- The decoder takes a message off just where its length is below 2⁶⁴. -/
theorem decodes_iff :
    Wire.readDelimited bytes = .ok (body, rest) ↔
      ∃ front, Divides bytes front body rest ∧ Varint.value front < UInt64.size ∧
        body.length = Varint.value front := by
  constructor
  · intro h
    unfold Wire.readDelimited at h
    split at h
    · cases h
    · rename_i n tail hread
      split at h
      · rename_i found hsplit
        cases h
        obtain ⟨rfl, hlength⟩ := Bytes.split?_eq_some_iff.1 hsplit
        obtain ⟨hgroups, hlt⟩ := Varint.read_eq_some_iff.1 (readVarint_eq_ok_iff.1 hread)
        obtain ⟨front, hdivides, rfl⟩ := divides_iff.2 hgroups
        exact ⟨front, hdivides, hlt, hlength⟩
      · cases h
  · rintro ⟨front, hdivides, hlt, hlength⟩
    have hread : readVarint bytes = .ok (body.length, body ++ rest) := by
      rw [readVarint_eq_ok_iff, Varint.read_eq_some_iff, hlength]
      exact ⟨hdivides.readGroups, hlt⟩
    simp only [Wire.readDelimited, hread, Bytes.split?_append]

theorem gives_readDelimited_iff {result : Except Error (Option Bytes × Bytes)} :
    Gives readDelimited bytes result ↔ result = (splitDelimited bytes).mapError .framing :=
  ⟨fun h => h.unique (gives_readDelimited_eq bytes), fun h => h ▸ gives_readDelimited_eq bytes⟩

theorem gives_readDelimited_ok_iff {found : Option Bytes × Bytes} :
    Gives readDelimited bytes (.ok found) ↔ splitDelimited bytes = .ok found := by
  rw [gives_readDelimited_iff]
  cases splitDelimited bytes with
  | error fault => simp [Except.mapError]
  | ok found' => simp [Except.mapError, eq_comm]

/--
Reading a message off any byte string, in whatever portions it comes.  Nothing is read at the end
only; a message is read just behind a number of at most ten bytes whose low 64 bits are its length;
everything else is a framing error.  The decoder of the writer takes a message off just where the
number is itself its length, so the two agree on every byte string except on those that begin with
a number of 2⁶⁴ or more and as many bytes as its low 64 bits say.
-/
theorem delimited_grammar (bytes : Bytes) :
    (∀ rest, Gives readDelimited bytes (.ok (none, rest)) ↔ bytes = [] ∧ rest = []) ∧
    (∀ body rest, Gives readDelimited bytes (.ok (some body, rest)) ↔
      ∃ front, Divides bytes front body rest ∧
        body.length = Varint.value front % UInt64.size) ∧
    (bytes = [] ∨
      (∃ front body rest, Divides bytes front body rest ∧
        body.length = Varint.value front % UInt64.size) ∨
      ∃ fault, Gives readDelimited bytes (.error (.framing fault))) ∧
    (∀ body rest, Wire.readDelimited bytes = .ok (body, rest) ↔
      ∃ front, Divides bytes front body rest ∧ Varint.value front < UInt64.size ∧
        body.length = Varint.value front) ∧
    ((∀ body rest, Gives readDelimited bytes (.ok (some body, rest)) ↔
        Wire.readDelimited bytes = .ok (body, rest)) ↔
      ¬ ∃ front body rest, Divides bytes front body rest ∧
        UInt64.size ≤ Varint.value front ∧
        body.length = Varint.value front % UInt64.size) := by
  have hsome : ∀ body rest, Gives readDelimited bytes (.ok (some body, rest)) ↔
      ∃ front, Divides bytes front body rest ∧ body.length = Varint.value front % UInt64.size :=
    fun body rest => gives_readDelimited_ok_iff.trans splitDelimited_eq_some_iff
  refine ⟨fun rest => gives_readDelimited_ok_iff.trans splitDelimited_eq_none_iff, hsome, ?_,
    fun body rest => decodes_iff, ?_⟩
  · cases hsplit : splitDelimited bytes with
    | error fault => exact .inr (.inr ⟨fault, gives_readDelimited_iff.2 (by rw [hsplit]; rfl)⟩)
    | ok found =>
      obtain ⟨_ | body, rest⟩ := found
      · exact .inl (splitDelimited_eq_none_iff.1 hsplit).1
      · obtain ⟨front, h⟩ := splitDelimited_eq_some_iff.1 hsplit
        exact .inr (.inl ⟨front, body, rest, h⟩)
  · constructor
    · -- a long number that the reader takes is none for the decoder
      rintro hagree ⟨front, body, rest, hdivides, hlong, hlength⟩
      have hread := (hsome body rest).2 ⟨front, hdivides, hlength⟩
      obtain ⟨front', hdivides', hlt, -⟩ := decodes_iff.1 ((hagree body rest).1 hread)
      have hsame := hdivides.readGroups.symm.trans hdivides'.readGroups
      have hvalue := (Prod.mk.inj (Option.some.inj hsame)).1
      omega
    · -- below 2⁶⁴ the low 64 bits are the whole number
      intro hnone body rest
      rw [hsome, decodes_iff]
      constructor
      · rintro ⟨front, hdivides, hlength⟩
        have hlt : Varint.value front < UInt64.size :=
          Nat.lt_of_not_le fun hlong => hnone ⟨front, body, rest, hdivides, hlong, hlength⟩
        exact ⟨front, hdivides, hlt, hlength.trans (Nat.mod_eq_of_lt hlt)⟩
      · rintro ⟨front, hdivides, hlt, hlength⟩
        exact ⟨front, hdivides, hlength.trans (Nat.mod_eq_of_lt hlt).symm⟩

/-- Ten bytes that spell 2⁶⁴ are read as an empty message; the decoder of the writer refuses them. -/
theorem overlong_length_accepted :
    let bytes : Bytes := List.replicate 9 128 ++ [2]
    Varint.Ended bytes ∧ bytes.length = Varint.maxLength ∧ Varint.value bytes = UInt64.size ∧
      Gives readDelimited bytes (.ok (some [], [])) ∧
      Wire.readDelimited bytes = .error (.of .invalidVarint) := by
  have hended : Varint.Ended (List.replicate 9 128 ++ [2]) :=
    ⟨_, _, rfl, fun byte hbyte => by rw [List.eq_of_mem_replicate hbyte]; decide, by decide⟩
  refine ⟨hended, rfl, by decide +kernel, ?_, by decide +kernel⟩
  exact gives_readDelimited_ok_iff.2 (by decide +kernel)

end Framing
end ScanArchive
