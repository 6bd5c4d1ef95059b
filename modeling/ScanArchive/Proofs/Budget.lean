import ScanArchive.Budget

/-!
# Budgets are exact

Within the bounds that a budget keeps, the amounts that stay at their bounds are the exact ones:
`place_eq` says what a charge does in unbounded integers, and `charges_exact` what any sequence of
charges comes to.
-/

namespace ScanArchive.ChunkBudget

structure Bounded (b : ChunkBudget) : Prop where
  ceiling_nonneg : 0 ≤ b.ceiling
  ceiling_le : b.ceiling ≤ maxAmount
  remaining_nonneg : 0 ≤ b.remaining
  remaining_le : b.remaining ≤ b.ceiling

theorem saturate_of_le {n : Int} (hlow : -0x8000000000000000 ≤ n) (hhigh : n ≤ maxAmount) :
    saturate n = n := by
  rw [saturate, Int.min_eq_left hhigh, Int.max_eq_right hlow]

theorem bounded_ofSize (size : Nat) : (ofSize size).Bounded := by
  have hmax : (0 : Int) ≤ maxAmount := by decide
  have hnonneg : (0 : Int) ≤ saturate size := by
    rw [saturate]
    omega
  have hle : saturate size ≤ maxAmount := by
    rw [saturate]
    have hmin : (-0x8000000000000000 : Int) ≤ maxAmount := by decide
    omega
  exact ⟨hnonneg, hle, Int.le_refl 0, hnonneg⟩

theorem saturate_sub_cost {amount : Int} (h0 : 0 ≤ amount) (hle : amount ≤ maxAmount)
    (length : Nat) :
    (0 < saturate (amount - cost length) ↔ (length : Int) + Layout.messageOverhead < amount) ∧
      ((length : Int) + Layout.messageOverhead < amount →
        saturate (amount - cost length) = amount - (length + Layout.messageOverhead)) := by
  have hamount : amount ≤ 0x7FFFFFFFFFFFFFFF := hle
  -- a cost that stays at the largest amount leaves nothing of any amount
  simp only [cost, saturate, maxAmount, Layout.messageOverhead]
  constructor
  · constructor <;> omega
  · omega

/--
A message goes into the open chunk if that leaves something, else into a new one if that leaves
something, and is charged there.
-/
theorem place_eq {b : ChunkBudget} (hb : b.Bounded) (length : Nat) :
    b.place length =
      if (length : Int) + Layout.messageOverhead < b.remaining then
        .ok (.currentEntry, { b with remaining := b.remaining - (length + Layout.messageOverhead) })
      else if (length : Int) + Layout.messageOverhead < b.ceiling then
        .ok (.newEntry, { b with remaining := b.ceiling - (length + Layout.messageOverhead) })
      else .error (.messageTooLarge length b.ceiling.toNat) := by
  have hremaining := Int.le_trans hb.remaining_le hb.ceiling_le
  obtain ⟨hopen, hopenLeft⟩ := saturate_sub_cost hb.remaining_nonneg hremaining length
  obtain ⟨hfresh, hfreshLeft⟩ := saturate_sub_cost hb.ceiling_nonneg hb.ceiling_le length
  rw [place]
  simp only [hopen, hfresh]
  -- the open chunk is tried first, then a new one
  by_cases hroom : (length : Int) + Layout.messageOverhead < b.remaining
  · rw [if_pos hroom, if_pos hroom, hopenLeft hroom]
  · rw [if_neg hroom, if_neg hroom]
    by_cases hfits : (length : Int) + Layout.messageOverhead < b.ceiling
    · rw [if_pos hfits, if_pos hfits, hfreshLeft hfits]
    · rw [if_neg hfits, if_neg hfits]

variable {b b' : ChunkBudget} {length : Nat} {placement : Placement}

theorem place_cases (hb : b.Bounded) (h : b.place length = .ok (placement, b')) :
    (placement = .currentEntry ∧ (length : Int) + Layout.messageOverhead < b.remaining ∧
      b' = { b with remaining := b.remaining - (length + Layout.messageOverhead) }) ∨
    (placement = .newEntry ∧ b.remaining ≤ (length : Int) + Layout.messageOverhead ∧
      (length : Int) + Layout.messageOverhead < b.ceiling ∧
      b' = { b with remaining := b.ceiling - (length + Layout.messageOverhead) }) := by
  rw [place_eq hb] at h
  by_cases hroom : (length : Int) + Layout.messageOverhead < b.remaining
  · rw [if_pos hroom] at h
    cases h
    exact .inl ⟨rfl, hroom, rfl⟩
  · rw [if_neg hroom] at h
    by_cases hfits : (length : Int) + Layout.messageOverhead < b.ceiling
    · rw [if_pos hfits] at h
      cases h
      exact .inr ⟨rfl, Int.not_lt.1 hroom, hfits, rfl⟩
    · rw [if_neg hfits] at h
      cases h

theorem Bounded.of_place (hb : b.Bounded) (h : b.place length = .ok (placement, b')) :
    b'.Bounded ∧ b'.ceiling = b.ceiling := by
  have hle := hb.remaining_le
  rcases place_cases hb h with ⟨-, hroom, rfl⟩ | ⟨-, -, hfits, rfl⟩
  · refine ⟨⟨hb.ceiling_nonneg, hb.ceiling_le, ?_, ?_⟩, rfl⟩
    · show 0 ≤ b.remaining - _
      omega
    · show b.remaining - _ ≤ b.ceiling
      omega
  · refine ⟨⟨hb.ceiling_nonneg, hb.ceiling_le, ?_, ?_⟩, rfl⟩
    · show 0 ≤ b.ceiling - _
      omega
    · show b.ceiling - _ ≤ b.ceiling
      omega

/-! ## Charges one after another -/

/-- A message that was to be charged, and where it went. -/
structure Attempt where
  length : Nat
  outcome : Except Error Placement

def attempt (b : ChunkBudget) (length : Nat) : Attempt × ChunkBudget :=
  match b.place length with
  | .ok (placement, b') => (⟨length, .ok placement⟩, b')
  | .error e => (⟨length, .error e⟩, b)

def attempts (b : ChunkBudget) : List Nat → List Attempt
  | [] => []
  | length :: rest => (b.attempt length).1 :: (b.attempt length).2.attempts rest

/-- The budget after some attempts, those after a refusal included. -/
def after (b : ChunkBudget) (lengths : List Nat) : ChunkBudget :=
  lengths.foldl (fun b length => (b.attempt length).2) b

/-- What the open chunk has been charged after an attempt, given what it was before. -/
def Attempt.addTo (open? : Option Nat) (a : Attempt) : Option Nat :=
  match a.outcome with
  | .ok .newEntry => some (a.length + Layout.messageOverhead)
  | .ok .currentEntry => open?.map (· + (a.length + Layout.messageOverhead))
  | .error _ => open?

/--
The sum of the charges since the last new chunk, that one included, in unbounded numbers; none
before the first.
-/
def account (history : List Attempt) : Option Nat := history.foldl Attempt.addTo none

theorem isSome_foldl_addTo (open? : Option Nat) (history : List Attempt) :
    (history.foldl Attempt.addTo open?).isSome ↔
      open?.isSome ∨ ∃ a ∈ history, a.outcome = .ok .newEntry := by
  induction history generalizing open? with
  | nil => simp
  | cons a history ih =>
    have hadd : (a.addTo open?).isSome ↔ open?.isSome ∨ a.outcome = .ok .newEntry := by
      rw [Attempt.addTo]
      split <;> simp_all
    rw [List.foldl_cons, ih, hadd, or_assoc]
    simp only [List.mem_cons, exists_eq_or_imp]

/-- A budget keeps the account of its open chunk. -/
structure Balances (ceiling : Nat) (open? : Option Nat) (b : ChunkBudget) : Prop where
  ceiling_eq : b.ceiling = ceiling
  ceiling_le : (ceiling : Int) ≤ maxAmount
  remaining_eq : b.remaining = match open? with
    | some used => (ceiling : Int) - used
    | none => 0
  used_lt : ∀ used ∈ open?, used < ceiling

variable {ceiling : Nat} {open? : Option Nat}

theorem balances_ofSize (size : Nat) :
    Balances (min size maxAmount.toNat) none (ofSize size) := by
  have hmax : maxAmount = 0x7FFFFFFFFFFFFFFF := rfl
  refine ⟨?_, ?_, rfl, by simp⟩
  · show saturate size = _
    rw [saturate, hmax]
    omega
  · rw [hmax]
    omega

namespace Balances

variable {b : ChunkBudget}

theorem bounded (h : Balances ceiling open? b) : b.Bounded := by
  have hceiling := h.ceiling_eq
  have hmax := h.ceiling_le
  have hremaining := h.remaining_eq
  cases open? with
  | none =>
    simp only at hremaining
    constructor <;> omega
  | some used =>
    have hlt := h.used_lt used rfl
    simp only at hremaining
    constructor <;> omega

theorem lt_remaining_iff (h : Balances ceiling open? b) (cost : Nat) :
    (cost : Int) < b.remaining ↔ ∃ used ∈ open?, used + cost < ceiling := by
  rw [h.remaining_eq]
  cases open? with
  | none =>
    simp only [Option.not_mem_none, false_and, exists_false, iff_false]
    omega
  | some used =>
    simp only [Option.mem_some_iff, exists_eq_left']
    omega

/-- Where a message goes is decided in unbounded numbers. -/
theorem attempt_eq (h : Balances ceiling open? b) (length : Nat) :
    b.attempt length =
      if ∃ used ∈ open?, used + (length + Layout.messageOverhead) < ceiling then
        (⟨length, .ok .currentEntry⟩,
          { b with remaining := b.remaining - (length + Layout.messageOverhead) })
      else if length + Layout.messageOverhead < ceiling then
        (⟨length, .ok .newEntry⟩,
          { b with remaining := ceiling - (length + Layout.messageOverhead) })
      else (⟨length, .error (.messageTooLarge length ceiling)⟩, b) := by
  have hroom := h.lt_remaining_iff (length + Layout.messageOverhead)
  rw [Int.natCast_add] at hroom
  have hplace := place_eq h.bounded length
  simp only [hroom] at hplace
  rw [ChunkBudget.attempt, hplace]
  by_cases hopen : ∃ used ∈ open?, used + (length + Layout.messageOverhead) < ceiling
  · rw [if_pos hopen, if_pos hopen]
  · rw [if_neg hopen, if_neg hopen, h.ceiling_eq, Int.toNat_natCast]
    by_cases hfits : length + Layout.messageOverhead < ceiling
    · rw [if_pos hfits, if_pos (by omega)]
    · rw [if_neg hfits, if_neg (by omega)]

theorem attempt (h : Balances ceiling open? b) (length : Nat) :
    Balances ceiling ((b.attempt length).1.addTo open?) (b.attempt length).2 := by
  rw [h.attempt_eq]
  by_cases hroom : ∃ used ∈ open?, used + (length + Layout.messageOverhead) < ceiling
  · -- the charge is added to those of the open chunk
    rw [if_pos hroom]
    obtain ⟨used, hused, hlt⟩ := hroom
    obtain rfl := Option.mem_def.1 hused
    have hremaining : b.remaining = (ceiling : Int) - used := h.remaining_eq
    refine ⟨h.ceiling_eq, h.ceiling_le, ?_, fun n hn => ?_⟩
    · show b.remaining - _
        = (ceiling : Int) - ((used + (length + Layout.messageOverhead) : Nat) : Int)
      rw [hremaining]
      omega
    · obtain rfl := Option.some.inj hn
      exact hlt
  · rw [if_neg hroom]
    by_cases hfits : length + Layout.messageOverhead < ceiling
    · -- the charge is the first of a new chunk
      rw [if_pos hfits]
      refine ⟨h.ceiling_eq, h.ceiling_le, ?_, fun n hn => ?_⟩
      · show (ceiling : Int) - _ = (ceiling : Int) - ((length + Layout.messageOverhead : Nat) : Int)
        omega
      · obtain rfl := Option.some.inj hn
        exact hfits
    · rw [if_neg hfits]
      exact h

theorem attempts (h : Balances ceiling open? b) (lengths : List Nat) :
    Balances ceiling ((b.attempts lengths).foldl Attempt.addTo open?) (b.after lengths) := by
  induction lengths generalizing open? b with
  | nil => exact h
  | cons length rest ih => exact ih (h.attempt length)

end Balances

/--
A budget accounts for its chunks exactly.  After any attempts on a budget for chunks of any size,
what is left is the size, or the largest amount if that is less, without the charges since the
last new chunk; nothing is left before there is one.  The next message goes into the open chunk
just if its charge leaves something of that, else into a new one just if its charge leaves
something of the size; otherwise it is refused and nothing changes.  All of this holds in unbounded
numbers, so that amounts staying at their bounds never decide anything.
-/
theorem charges_exact (size : Nat) (lengths : List Nat) (length : Nat) :
    let ceiling := min size (Nat.pow 2 63 - 1)
    let history := (ofSize size).attempts lengths
    let b := (ofSize size).after lengths
    b.ceiling = ceiling ∧ 0 ≤ b.remaining ∧
    b.remaining = (match account history with
      | some used => (ceiling : Int) - used
      | none => 0) ∧
    ((account history).isSome ↔ ∃ a ∈ history, a.outcome = .ok .newEntry) ∧
    b.attempt length =
      if ∃ used ∈ account history, used + (length + Layout.messageOverhead) < ceiling then
        (⟨length, .ok .currentEntry⟩,
          { b with remaining := b.remaining - (length + Layout.messageOverhead) })
      else if length + Layout.messageOverhead < ceiling then
        (⟨length, .ok .newEntry⟩,
          { b with remaining := ceiling - (length + Layout.messageOverhead) })
      else (⟨length, .error (.messageTooLarge length ceiling)⟩, b) := by
  have h := (balances_ofSize size).attempts lengths
  have hopened := (isSome_foldl_addTo none ((ofSize size).attempts lengths)).trans
    (or_iff_right (by simp))
  exact ⟨h.ceiling_eq, h.bounded.remaining_nonneg, h.remaining_eq, hopened, h.attempt_eq length⟩

/-- The longest message for a chunk of the largest size leaves one byte; a longer one is refused. -/
example : ((ofSize (2 ^ 64 - 1)).attempt (2 ^ 63 - 6)).2.remaining = 1 ∧
    ((ofSize (2 ^ 64 - 1)).attempt (2 ^ 63 - 5)).1.outcome
      = .error (.messageTooLarge (2 ^ 63 - 5) (2 ^ 63 - 1)) := by
  constructor <;> rfl

end ScanArchive.ChunkBudget
