import Mathlib
import ScanArchive.Container.Feed

/-!
# What is drawn from a feed

A feed that holds some bytes gives them in order: what is drawn is the front of what it holds, and
it holds the rest from then on.  Whatever is drawn in several draws is then a front as well.
-/

namespace ScanArchive.Feed

/-! ## 1. Calls on a state that holds bytes -/

section

variable {σ ε α β : Type}

/--
Whatever a call gives on a state that holds some bytes is so related to the bytes that the state
holds afterwards; and if the call fails, then only in some ways.
-/
structure Draws (holds : σ → Bytes → Prop) (fails : ε → Prop) (d : StateT σ (Except ε) α)
    (bytes : Bytes) (post : α → Bytes → Prop) : Prop where
  ok : ∀ s a s', holds s bytes → d s = .ok (a, s') → ∃ rest, post a rest ∧ holds s' rest
  error : ∀ s e, holds s bytes → d s = .error e → fails e

namespace Draws

variable {holds : σ → Bytes → Prop} {fails : ε → Prop} {bytes : Bytes} {post : α → Bytes → Prop}
  {d : StateT σ (Except ε) α}

theorem pure {a : α} (h : post a bytes) :
    Draws holds fails (Pure.pure a : StateT σ (Except ε) α) bytes post where
  ok s b s' hs hd := by
    cases hd
    exact ⟨bytes, h, hs⟩
  error s e _ hd := nomatch hd

theorem bind {mid : α → Bytes → Prop} {f : α → StateT σ (Except ε) β} {post : β → Bytes → Prop}
    (hd : Draws holds fails d bytes mid)
    (hf : ∀ a rest, mid a rest → Draws holds fails (f a) rest post) :
    Draws holds fails (d >>= f) bytes post := by
  have hthen : ∀ s, (d >>= f) s = Except.bind (d s) fun found => f found.1 found.2 := fun _ => rfl
  constructor
  · intro s b s' hs hbind
    rw [hthen] at hbind
    cases hfirst : d s with
    | error e => rw [hfirst] at hbind; cases hbind
    | ok found =>
      rw [hfirst] at hbind
      obtain ⟨rest, hmid, hrest⟩ := hd.ok s found.1 found.2 hs hfirst
      exact (hf found.1 rest hmid).ok found.2 b s' hrest hbind
  · intro s e hs hbind
    rw [hthen] at hbind
    cases hfirst : d s with
    | error e' =>
      rw [hfirst] at hbind
      cases hbind
      exact hd.error s e hs hfirst
    | ok found =>
      rw [hfirst] at hbind
      obtain ⟨rest, hmid, hrest⟩ := hd.ok s found.1 found.2 hs hfirst
      exact (hf found.1 rest hmid).error found.2 e hrest hbind

theorem mono {post' : α → Bytes → Prop} (hd : Draws holds fails d bytes post)
    (h : ∀ a rest, post a rest → post' a rest) : Draws holds fails d bytes post' where
  ok s a s' hs hda := by
    obtain ⟨rest, hpost, hrest⟩ := hd.ok s a s' hs hda
    exact ⟨rest, h a rest hpost, hrest⟩
  error := hd.error

end Draws
end

/-! ## 2. Fronts -/

/-- A front of bytes, of at most some length, and what is left behind it. -/
structure IsFront (bytes : Bytes) (most : Nat) (front rest : Bytes) : Prop where
  append : bytes = front ++ rest
  length_le : front.length ≤ most
  /-- there is none only where there is nothing -/
  eq_nil : front = [] → bytes = []

/-- The longest front of bytes of at most some length, and what is left behind it. -/
def IsFilled (bytes : Bytes) (count : Nat) (front rest : Bytes) : Prop :=
  front = bytes.take count ∧ rest = bytes.drop count

theorem isFilled_zero (bytes : Bytes) : IsFilled bytes 0 [] bytes := ⟨rfl, rfl⟩

theorem isFilled_nil (count : Nat) : IsFilled [] count [] [] :=
  ⟨List.take_nil.symm, List.drop_nil.symm⟩

theorem IsFilled.append {bytes front rest next behind : Bytes} {count : Nat}
    (hbytes : bytes = front ++ rest) (hlength : front.length ≤ count)
    (hnext : IsFilled rest (count - front.length) next behind) :
    IsFilled bytes count (front ++ next) behind := by
  obtain ⟨rfl, rfl⟩ := hnext
  subst hbytes
  constructor
  · rw [List.take_append, List.take_of_length_le hlength]
  · rw [List.drop_append, List.drop_eq_nil_of_le hlength, List.nil_append]

theorem isFilled_of_nil {bytes rest : Bytes} {count : Nat} (hbytes : bytes = [] ++ rest)
    (hnil : count = 0 ∨ bytes = []) : IsFilled bytes count [] rest := by
  rw [List.nil_append] at hbytes
  subst hbytes
  rcases hnil with rfl | rfl
  · exact isFilled_zero bytes
  · exact isFilled_nil count

/-! ## 3. Collections -/

namespace Collection

variable {c : Collection}

@[simp] theorem bytes_add (c : Collection) (bytes : Bytes) :
    (c.add bytes).bytes = c.bytes ++ bytes := by
  simp [add, Collection.bytes]

/-- What is true of a store however it grows: there is room for what it has. -/
structure IsKept (c : Collection) : Prop where
  size : c.size ≤ c.capacity
  most : 0 < c.most

theorem IsKept.size_le_grown (hc : c.IsKept) (more : Nat) : c.size + more ≤ c.grown more := by
  have hsize := hc.size
  unfold grown
  split <;> omega

theorem IsKept.size_lt_grown (hc : c.IsKept) :
    c.size < c.grown (if c.size = c.capacity then probe else 0) := by
  have hsize := hc.size
  by_cases hfull : c.size = c.capacity
  · rw [if_pos hfull]
    have hgrown := hc.size_le_grown probe
    have hprobe : 0 < probe := by decide
    omega
  · rw [if_neg hfull, grown, if_neg (Nat.not_lt_zero _)]
    omega

theorem IsKept.add (hc : c.IsKept) (bytes : Bytes) : (c.add bytes).IsKept :=
  ⟨hc.size_le_grown bytes.length, hc.most⟩

end Collection

/-! ## 4. Draws -/

section

variable {σ : Type} [Feed σ]

/--
Whether what is drawn from any state is the front of the bytes that the state holds.  Nothing is
ever drawn where there is no room.
-/
def Gives (holds : σ → Bytes → Prop) (fails : String → Prop) : Prop :=
  ∀ (room : Nat) (bytes : Bytes), 0 < room →
    Draws holds fails (draw room) bytes (IsFront bytes room)

variable {holds : σ → Bytes → Prop} {fails : String → Prop} (hfeed : Gives holds fails)

include hfeed

/-- With a step for each byte, as many bytes are drawn as there are. -/
theorem draws_fill {count steps : Nat} (hsteps : count ≤ steps) (bytes : Bytes) :
    Draws holds fails (fill count steps) bytes (IsFilled bytes count) := by
  induction steps generalizing count bytes with
  | zero =>
    obtain rfl := Nat.le_zero.1 hsteps
    exact .pure (isFilled_zero bytes)
  | succ steps ih =>
    cases count with
    | zero => exact .pure (isFilled_zero bytes)
    | succ count =>
      refine (hfeed (count + 1) bytes (Nat.succ_pos count)).bind fun front rest hfront => ?_
      by_cases hnil : front = []
      · rw [if_pos (List.isEmpty_iff.2 hnil)]
        subst hnil
        exact .pure (isFilled_of_nil hfront.append (.inr (hfront.eq_nil rfl)))
      · rw [if_neg (mt List.isEmpty_iff.1 hnil)]
        have hpos := List.length_pos_iff.2 hnil
        refine (ih (show count + 1 - front.length ≤ steps by omega) rest).bind
          fun next behind hnext => ?_
        exact .pure (.append hfront.append hfront.length_le hnext)

theorem draws_pass {count steps : Nat} (hsteps : count ≤ steps) (bytes : Bytes) :
    Draws holds fails (pass count steps) bytes fun isDone rest =>
      isDone = decide (count ≤ bytes.length) ∧ rest = bytes.drop count := by
  induction steps generalizing count bytes with
  | zero =>
    obtain rfl := Nat.le_zero.1 hsteps
    exact .pure ⟨rfl, rfl⟩
  | succ steps ih =>
    cases count with
    | zero => exact .pure ⟨rfl, rfl⟩
    | succ count =>
      have hroom : 0 < min (count + 1) passedAtOnce :=
        Nat.lt_min.2 ⟨Nat.succ_pos count, by decide⟩
      refine (hfeed _ bytes hroom).bind fun front rest hfront => ?_
      by_cases hnil : front = []
      · rw [if_pos (List.isEmpty_iff.2 hnil)]
        subst hnil
        -- there are no bytes left
        obtain rfl := hfront.eq_nil rfl
        exact .pure ⟨rfl, hfront.append.symm⟩
      · rw [if_neg (mt List.isEmpty_iff.1 hnil)]
        have hpos := List.length_pos_iff.2 hnil
        have hle : front.length ≤ count + 1 := hfront.length_le.trans (Nat.min_le_left _ _)
        refine (ih (show count + 1 - front.length ≤ steps by omega) rest).mono ?_
        rintro isDone behind ⟨rfl, rfl⟩
        rw [hfront.append]
        constructor
        · rw [decide_eq_decide, List.length_append]
          omega
        · rw [List.drop_append, List.drop_eq_nil_of_le hle, List.nil_append]

theorem draws_drawWithin {room : Nat} (hroom : 0 < room) (left : Nat) (bytes : Bytes) :
    Draws holds fails (drawWithin room left) bytes fun front rest =>
      bytes = front ++ rest ∧ front.length ≤ left ∧ (front = [] → left = 0 ∨ bytes = []) := by
  unfold drawWithin
  by_cases hzero : left = 0
  · rw [if_pos hzero]
    exact .pure ⟨rfl, Nat.zero_le left, fun _ => .inl hzero⟩
  · rw [if_neg hzero]
    have hleft : 0 < min room left := Nat.lt_min.2 ⟨hroom, Nat.pos_of_ne_zero hzero⟩
    exact (hfeed _ bytes hleft).mono fun front rest hfront =>
      ⟨hfront.append, hfront.length_le.trans (Nat.min_le_right _ _),
        fun h => .inr (hfront.eq_nil h)⟩

theorem draws_collectInto (isFirst : Bool) {left steps : Nat} (hsteps : left < steps)
    {c : Collection} (hc : c.IsKept) (bytes : Bytes) :
    Draws holds fails (collectInto isFirst left steps c) bytes fun all rest =>
      ∃ front, all = c.bytes ++ front ∧ IsFilled bytes left front rest := by
  induction steps generalizing isFirst left c bytes with
  | zero => exact absurd hsteps (Nat.not_lt_zero left)
  | succ steps ih =>
    -- what is drawn either ends the collection, or goes into it before the next draw
    have hstep : ∀ {room : Nat} (c' : Bytes → Collection), 0 < room →
        (∀ front, (c' front).IsKept ∧ (c' front).bytes = c.bytes ++ front) →
        Draws holds fails (do
          let front ← drawWithin room left
          if front.isEmpty then return c.bytes
          collectInto false (left - front.length) steps (c' front)) bytes
        fun all rest => ∃ front, all = c.bytes ++ front ∧ IsFilled bytes left front rest := by
      intro room c' hroom hc'
      refine (draws_drawWithin hfeed hroom left bytes).bind fun front rest hfront => ?_
      obtain ⟨hbytes, hle, hend⟩ := hfront
      by_cases hnil : front = []
      · rw [if_pos (List.isEmpty_iff.2 hnil)]
        subst hnil
        exact .pure ⟨[], (List.append_nil _).symm, isFilled_of_nil hbytes (hend rfl)⟩
      · rw [if_neg (mt List.isEmpty_iff.1 hnil)]
        have hpos := List.length_pos_iff.2 hnil
        obtain ⟨hkept, hadded⟩ := hc' front
        refine (ih false (show left - front.length < steps by omega) hkept rest).mono ?_
        rintro all behind ⟨next, rfl, hnext⟩
        refine ⟨front ++ next, ?_, .append hbytes hle hnext⟩
        rw [hadded, List.append_assoc]
    unfold collectInto
    by_cases hprobe : (isFirst || c.isFilled) = true
    · rw [if_pos hprobe]
      exact hstep c.add (by decide) fun front => ⟨hc.add front, c.bytes_add front⟩
    · rw [if_neg hprobe]
      have hsize := hc.size_lt_grown
      simp only
      generalize c.grown (if c.size = c.capacity then Collection.probe else 0) = capacity at hsize
      have hgrown : Collection.IsKept { c with capacity } := ⟨Nat.le_of_lt hsize, hc.most⟩
      refine hstep _ (Nat.lt_min.2 ⟨by omega, hc.most⟩) fun front =>
        ⟨⟨(hgrown.add front).size, ?_⟩, Collection.bytes_add _ front⟩
      have hmost := hc.most
      show 0 < if _ then 2 * c.most else c.most
      split
      · exact Nat.mul_pos (by decide) hmost
      · exact hmost

theorem draws_collect (start left : Nat) (bytes : Bytes) :
    Draws holds fails (collect start left) bytes (IsFilled bytes left) := by
  have hstart : Collection.IsKept { start } := ⟨Nat.zero_le _, show 0 < 8192 by decide⟩
  refine (draws_collectInto hfeed _ (show left < left + 2 by omega) hstart bytes).mono ?_
  rintro all rest ⟨front, rfl, hfront⟩
  exact hfront

end

end ScanArchive.Feed
