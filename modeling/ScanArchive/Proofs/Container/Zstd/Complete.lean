import ScanArchive.Proofs.Container.Zstd

/-!
# Frames read to their end

A reader of a frame that is written here never fails.  There is always room for what is at hand of
a block, less is kept back than what the frame expects, and each piece is used up before the steps
are.
-/

namespace ScanArchive.Zstd

/-! ## 1. What is kept back and what there is room for -/

/-- What is kept back is not all that a frame expects, and no block is longer than it may be. -/
def Stage.Keeps : Stage → (loaded : Bytes) → Prop
  | .blockHead, loaded => loaded.length < BlockHead.length
  | .block _ left, _ => left ≤ maxBlock
  | _, _ => True

def Place.Keeps : Place → (loaded : Bytes) → Prop
  | .between, loaded => loaded.length < head.length
  | .inside f, loaded => f.stage.Keeps loaded
  | _, _ => True

namespace Store

def HasRoom (s : Store) : Prop := s.ring.here + maxBlock ≤ s.ring.capacity

theorem hasRoom_forFrame (s : Store) : (s.forFrame frameHead).HasRoom := by
  obtain ⟨inputRoom, ⟨capacity, here, earlier, cells⟩, generous, memory⟩ := s
  have houtput : maxBlock ≤ frameHead.outputRoom := by decide
  unfold HasRoom forFrame
  simp only
  generalize (if 3 * (frameHead.inputRoom + frameHead.outputRoom) ≤ inputRoom + capacity then
    generous + 1 else 0) = generous
  by_cases hset : inputRoom < frameHead.inputRoom ∨ capacity < frameHead.outputRoom
      ∨ maxGenerous ≤ generous
  · rw [if_pos hset]
    exact (Nat.zero_add _).trans_le houtput
  · rw [if_neg hset]
    have hlarge : frameHead.outputRoom ≤ capacity := by omega
    exact (Nat.zero_add _).trans_le (houtput.trans hlarge)

theorem hasRoom_turn {s : Store} (hs : maxBlock ≤ s.ring.capacity) :
    (s.turn frameHead).HasRoom := by
  obtain ⟨inputRoom, ring, generous, memory⟩ := s
  have hlimit : frameHead.blockLimit = maxBlock := by decide
  have hall : frameHead.size.all (ring.capacity < ·) = true := rfl
  unfold HasRoom turn
  simp only [hall, if_true, Ring.turn, hlimit]
  split
  · exact (Nat.zero_add _).trans_le hs
  · omega

theorem capacity_turn (s : Store) (h : Head) :
    (s.turn h).ring.capacity = s.ring.capacity := by
  obtain ⟨inputRoom, ring, generous, memory⟩ := s
  unfold turn Ring.turn
  simp only
  by_cases hlong : h.size.all (ring.capacity < ·) = true
  · rw [if_pos hlong]
    simp only
    split <;> rfl
  · rw [if_neg hlong]

theorem decode_raw {s : Store} (hs : s.HasRoom) {b : BlockHead} (hraw : b.kind = .raw)
    {stored : Bytes} (hstored : stored.length ≤ maxBlock) (h : Head) :
    s.decode h b stored = .ok (stored, { s with ring := s.ring.put stored }) := by
  have hroom : ¬ s.ring.room < stored.length := by
    unfold HasRoom at hs
    unfold Ring.room
    omega
  simp only [decode, decodeBlock, hraw, decodePlain, if_neg hroom]
  rfl

end Store

namespace Reader

theorem between_ne_inside (f : OpenFrame) : Place.between ≠ .inside f :=
  Place.noConfusion

/-- What is true of a reader between any two steps. -/
structure IsTidy (r : Reader) : Prop where
  ready_le : r.input.ready.length ≤ Input.pieceSize
  unread_le : r.input.ready.length + r.input.rest.length ≤ r.length
  keeps : r.place.Keeps r.input.loaded
  capacity : ∀ f, r.place = .inside f → maxBlock ≤ r.store.ring.capacity
  finished : r.place = .between → r.input.atHand ++ r.input.rest = [] → r.isFinished = true

def HasRoom (r : Reader) : Prop := ∀ f, r.place = .inside f → r.store.HasRoom

/-- What reading on leaves of what was at hand: less of it, unless there was nothing. -/
structure Leaves (r r' : Reader) : Prop where
  tidy : r'.IsTidy
  length : r'.length = r.length
  rest : r'.input.rest = r.input.rest
  ready_le : r'.input.ready.length ≤ r.input.ready.length
  ready_lt : r.input.ready ≠ [] → r'.input.ready.length < r.input.ready.length

/-- A step that goes on takes some of what is at hand, and the next one has room. -/
structure Moves (r : Reader) (next : Step) : Prop extends Leaves r next.2.2 where
  hasRoom : next.1 = [] → next.2.2.HasRoom
  goesOn : next.2.1 = true → next.2.2.input.ready.length < r.input.ready.length

variable {r : Reader} {later : Bytes}

theorem hasRoom_of_between (hplace : r.place = .between) : r.HasRoom := fun f hinside =>
  absurd (hplace.symm.trans hinside) (between_ne_inside f)

theorem IsTidy.keepBack (hr : r.IsTidy) (bytes : Bytes) : IsTidy { r with pending := bytes } :=
  ⟨hr.ready_le, hr.unread_le, hr.keeps, hr.capacity, hr.finished⟩

theorem IsTidy.close (hr : r.IsTidy) (hloaded : r.input.loaded = []) :
    IsTidy { r with place := .between, isFinished := true } where
  ready_le := hr.ready_le
  unread_le := hr.unread_le
  keeps := by
    show r.input.loaded.length < head.length
    rw [hloaded]
    decide
  capacity f hinside := absurd hinside (between_ne_inside f)
  finished _ _ := rfl

/-! ## 2. Steps -/

theorem tidy_refill {i : Input} (hr : r.IsTidy) (hrefill : r.input.refill? = some i) :
    IsTidy { r with input := i, isFinished := false } ∧ i.ready ≠ [] ∧
      i.ready.length + i.rest.length = r.input.ready.length + r.input.rest.length := by
  have hunread := hr.unread_le
  unfold Input.refill? at hrefill
  by_cases hready : r.input.ready = []
  · rw [if_neg (by rw [hready]; decide)] at hrefill
    by_cases hrest : r.input.rest = []
    · rw [if_pos (List.isEmpty_iff.2 hrest)] at hrefill
      cases hrefill
    · rw [if_neg (mt List.isEmpty_iff.1 hrest)] at hrefill
      obtain rfl := Option.some.inj hrefill
      have hnew : r.input.rest.take Input.pieceSize ≠ [] := fun hnil =>
        (List.take_eq_nil_iff.1 hnil).elim (by decide) hrest
      have hlength : (r.input.rest.take Input.pieceSize).length
          + (r.input.rest.drop Input.pieceSize).length = r.input.rest.length := by
        rw [← List.length_append, List.take_append_drop]
      have hnothing : r.input.ready.length = 0 := List.length_eq_zero_iff.2 hready
      have hsame : r.input.ready.length + r.input.rest.length = r.input.rest.length := by omega
      rw [hsame] at hunread ⊢
      refine ⟨⟨List.length_take_le _ _, hlength.trans_le hunread, hr.keeps, hr.capacity,
        fun _ hnil => ?_⟩, hnew, hlength⟩
      rw [Input.atHand, List.append_assoc, List.take_append_drop] at hnil
      exact absurd (List.append_eq_nil_iff.1 hnil).2 hrest
  · rw [if_pos (by simpa using hready)] at hrefill
    obtain rfl := Option.some.inj hrefill
    refine ⟨⟨hr.ready_le, hunread, hr.keeps, hr.capacity, fun _ hnil => ?_⟩, hready, rfl⟩
    simp [Input.atHand, hready] at hnil

theorem length_lt_of_take? {i : Input} {count : Nat} (h : i.take? count = none) :
    i.atHand.length < count := by
  by_contra hle
  have hsplit : Bytes.split? count i.atHand = some (i.atHand.take count, i.atHand.drop count) :=
    Bytes.split?_eq_some_iff.2
      ⟨(List.take_append_drop _ _).symm, List.length_take_of_le (Nat.not_lt.1 hle)⟩
  rw [Input.take?, hsplit] at h
  cases h

theorem rest_of_take? {i i' : Input} {count : Nat} {bytes : Bytes}
    (h : i.take? count = some (bytes, i')) :
    i'.rest = i.rest ∧ count + i'.ready.length = i.loaded.length + i.ready.length := by
  obtain ⟨⟨front, ready⟩, hsplit, hfound⟩ := Option.map_eq_some_iff.1 h
  obtain ⟨rfl, rfl⟩ := Prod.mk.inj hfound
  refine ⟨rfl, ?_⟩
  rw [Bytes.length_of_split? hsplit, Input.atHand, List.length_append]

theorem moves_starve (hr : r.IsTidy) (hroom : r.HasRoom)
    (hkeeps : r.place.Keeps r.input.atHand) : r.Moves r.starve where
  tidy := by
    have hrest : r.input.rest.length ≤ r.length := (Nat.le_add_left _ _).trans hr.unread_le
    refine ⟨Nat.zero_le _, (Nat.zero_add _).trans_le hrest, hkeeps, hr.capacity,
      fun hplace hnil => ?_⟩
    exact hr.finished hplace (by simpa [starve, Input.load, Input.atHand] using hnil)
  length := rfl
  rest := rfl
  ready_le := Nat.zero_le _
  ready_lt := List.length_pos_iff.2
  hasRoom _ := hroom
  goesOn hgoes := absurd hgoes Bool.false_ne_true

theorem moves_goOn (hr : r.IsTidy) {f : OpenFrame} {i : Input} {s : Store} {bytes : Bytes}
    (hready : i.ready.length < r.input.ready.length) (hrest : i.rest = r.input.rest)
    (hkeeps : f.stage.Keeps i.loaded) (hcapacity : maxBlock ≤ s.ring.capacity)
    (hroom : bytes = [] → s.HasRoom) :
    r.Moves (bytes, true, ⟨r.length, i, s, .inside f, r.pending, r.isFinished⟩) where
  tidy := by
    refine ⟨hready.le.trans hr.ready_le, ?_, hkeeps, fun _ _ => hcapacity,
      fun hplace => absurd hplace.symm (between_ne_inside f)⟩
    have hunread := hr.unread_le
    rw [hrest]
    exact (Nat.add_le_add_right hready.le _).trans hunread
  length := rfl
  rest := hrest
  ready_le := hready.le
  ready_lt _ := hready
  hasRoom hnil _ _ := hroom hnil
  goesOn _ := hready

theorem length_lt_of_read {front rest tail : Bytes} (h : front ++ rest = head ++ tail)
    (hread : Head.read front = .ok none) : front.length < head.length := by
  by_contra hlong
  have htake := congrArg (List.take head.length) h
  rw [List.take_append_of_le_length (Nat.not_lt.1 hlong), List.take_left] at htake
  rw [← List.take_append_drop head.length front, htake, read_head] at hread
  cases hread

theorem moves_stepBetween (room : Nat) (hplace : r.place = .between) (hahead : r.Ahead later)
    (hr : r.IsTidy) (hroom : r.HasRoom) :
    ∃ next, r.stepBetween room = .ok next ∧ r.Moves next := by
  have hkept : r.input.loaded.length < head.length := by
    have hkeeps := hr.keeps
    rw [hplace] at hkeeps
    exact hkeeps
  -- either the head is at hand, or more is waited for
  have hwait : r.input.atHand.length < head.length → Head.read r.input.atHand = .ok none →
      ∃ next, r.stepBetween room = .ok next ∧ r.Moves next := by
    intro hshort hread
    refine ⟨r.starve, by rw [stepBetween, hread], moves_starve hr hroom ?_⟩
    rw [hplace]
    exact hshort
  unfold Ahead at hahead
  rw [hplace] at hahead
  rcases hahead with hframe | ⟨hnil, -⟩
  · rcases read_front hframe with ⟨ready, hfront, hread⟩ | hread
    · have hwindow : ¬ Head.maxWindow < frameHead.window := by decide
      have hready : ready.length < r.input.ready.length := by
        have hlength := congrArg List.length hfront
        rw [Input.atHand, List.length_append, List.length_append] at hlength
        omega
      have hstore := r.store.hasRoom_forFrame
      rw [stepBetween, hread]
      simp only [whole?_frameHead, start, if_neg hwindow]
      refine ⟨_, rfl, moves_goOn hr hready rfl ?_ (le_of_add_le_right hstore) fun _ => hstore⟩
      show ([] : Bytes).length < BlockHead.length
      decide
    · exact hwait (length_lt_of_read hframe hread) hread
  · have hatHand : r.input.atHand = [] := (List.append_eq_nil_iff.1 hnil).1
    rw [hatHand] at hwait
    exact hwait (by decide) rfl

variable {f : OpenFrame}

theorem keeps_finish (hhead : f.head = frameHead) (loaded : Bytes) :
    f.finish.stage.Keeps loaded := by
  rw [stage_finish hhead]
  trivial

theorem exists_enter (hhead : f.head = frameHead) {b : BlockHead} (hraw : b.kind = .raw)
    (hsize : b.size ≤ maxBlock) :
    ∃ f', f.enter b = .ok f' ∧ f'.stage.Keeps [] := by
  have hstored : b.stored = b.size := by
    rw [BlockHead.stored, hraw]
    rfl
  have hlimit : ¬ f.head.blockLimit < b.size := by
    rw [hhead]
    exact Nat.not_lt.2 hsize
  rw [OpenFrame.enter, hstored, if_neg hlimit]
  by_cases hpos : 0 < b.size
  · rw [if_pos hpos]
    exact ⟨_, rfl, hsize⟩
  · rw [if_neg hpos]
    cases b.isLast with
    | true => exact ⟨_, rfl, keeps_finish hhead []⟩
    | false => exact ⟨_, rfl, show 0 < BlockHead.length by decide⟩

theorem exists_leave (hhead : f.head = frameHead) (b : BlockHead) {left : Nat}
    (hleft : left ≤ maxBlock) : ∃ f', f.leave b left = .ok f' ∧ f'.stage.Keeps [] := by
  have hsize : f.head.size.any (· ≠ f.size) = false := by rw [hhead]; rfl
  rw [OpenFrame.leave, hsize]
  by_cases hpos : 0 < left
  · rw [if_pos hpos]
    exact ⟨_, rfl, hleft⟩
  · rw [if_neg hpos]
    cases b.isLast with
    | true => exact ⟨_, rfl, keeps_finish hhead []⟩
    | false => exact ⟨_, rfl, show 0 < BlockHead.length by decide⟩

theorem moves_blockHead (hplace : r.place = .inside f) (hstage : f.stage = .blockHead)
    (hahead : r.Ahead later) (hr : r.IsTidy) (hroom : r.HasRoom) :
    ∃ next, r.stepInside f = .ok next ∧ r.Moves next := by
  obtain ⟨length, input, store, place, pending, isFinished⟩ := r
  obtain rfl : place = .inside f := hplace
  obtain ⟨hhead, hunread⟩ := hahead
  rw [hstage] at hunread
  have hkept : input.loaded.length < BlockHead.length := by
    have hkeeps : f.stage.Keeps input.loaded := hr.keeps
    rw [hstage] at hkeeps
    exact hkeeps
  simp only [stepInside, hstage]
  cases htake : input.take? BlockHead.length with
  | none =>
    refine ⟨_, rfl, moves_starve hr hroom ?_⟩
    show f.stage.Keeps input.atHand
    rw [hstage]
    exact length_lt_of_take? htake
  | some found =>
    obtain ⟨bytes, input'⟩ := found
    obtain ⟨hlength, hsplit, hloaded⟩ := take?_eq_some htake
    obtain ⟨hrest, hready⟩ := rest_of_take? htake
    -- what is taken is the head of the first block of what is to come
    obtain ⟨isLast, now, rest, rfl, hshort, -, -, hblocks⟩ := rawBlocks_eq later
    change input.atHand ++ input.rest = rawBlocks (now ++ rest) at hunread
    rw [hsplit, hblocks, rawBlock, List.append_assoc] at hunread
    obtain ⟨rfl, -⟩ := List.append_inj hunread
      (hlength.trans (Bytes.length_toLittleEndian _ _).symm)
    obtain ⟨f', henter, hkeeps⟩ := exists_enter hhead
      (b := { kind := .raw, size := now.length, isLast }) rfl hshort
    have hstore : store.HasRoom := hroom f rfl
    have hfewer : input'.ready.length < input.ready.length := by omega
    simp only [ofBytes?_rawBlock hshort isLast, henter]
    rw [← hloaded] at hkeeps
    exact ⟨_, rfl, moves_goOn hr hfewer hrest hkeeps (le_of_add_le_right hstore) fun _ => hstore⟩

theorem moves_block {b : BlockHead} {left : Nat} (hplace : r.place = .inside f)
    (hstage : f.stage = .block b left) (hahead : r.Ahead later) (hr : r.IsTidy)
    (hroom : r.HasRoom) : ∃ next, r.stepInside f = .ok next ∧ r.Moves next := by
  obtain ⟨length, input, store, place, pending, isFinished⟩ := r
  obtain rfl : place = .inside f := hplace
  obtain ⟨hhead, hawaits⟩ := hahead
  rw [hstage] at hawaits
  obtain ⟨hloaded, hraw, hpos, -⟩ := hawaits
  have hkeeps : f.stage.Keeps input.loaded := hr.keeps
  have hkept := hkeeps
  rw [hstage] at hkept
  have hstore : store.HasRoom := hroom f rfl
  simp only [stepInside, hstage, if_pos hraw]
  by_cases hnone : (input.ready.take left).isEmpty = true
  · rw [if_pos hnone]
    refine ⟨_, rfl, moves_starve hr hroom ?_⟩
    show f.stage.Keeps input.atHand
    rw [hstage]
    exact hkept
  · rw [if_neg hnone]
    simp only
    -- as much of the block as is at hand has room
    have hpiece : (input.ready.take left).length ≤ maxBlock :=
      (List.length_take_le _ _).trans hkept
    have hlimit : ¬ f.head.blockLimit < (input.ready.take left).length := by
      rw [hhead]
      exact Nat.not_lt.2 hpiece
    obtain ⟨f', hleave, hkeeps'⟩ := exists_leave (f := f.add (input.ready.take left)) hhead b
      ((Nat.sub_le left (input.ready.take left).length).trans hkept)
    have hfewer : (input.ready.drop left).length < input.ready.length := by
      rw [List.isEmpty_iff, List.take_eq_nil_iff, not_or] at hnone
      have hready := List.length_pos_iff.2 hnone.2
      rw [List.length_drop]
      omega
    simp only [store.decode_raw hstore hraw hpiece, if_neg hlimit, hleave]
    rw [← show input.loaded = [] from hloaded] at hkeeps'
    refine ⟨_, rfl, moves_goOn hr hfewer rfl hkeeps' (le_of_add_le_right hstore) fun hnil => ?_⟩
    exact absurd (List.isEmpty_iff.2 hnil) hnone

theorem moves_ended (hplace : r.place = .inside f) (hstage : f.stage = .ended)
    (hahead : r.Ahead later) (hr : r.IsTidy) :
    ∃ next, r.stepInside f = .ok next ∧ r.Moves next := by
  obtain ⟨length, input, store, place, pending, isFinished⟩ := r
  obtain rfl : place = .inside f := hplace
  obtain ⟨-, hover⟩ := hahead
  rw [hstage] at hover
  -- nothing is at hand, nor kept back
  obtain ⟨hnil, -⟩ := List.append_eq_nil_iff.1 hover.1
  obtain ⟨hloaded, hready⟩ := List.append_eq_nil_iff.1 hnil
  simp only [stepInside, hstage]
  exact ⟨_, rfl, ⟨hr.close hloaded, rfl, rfl, Nat.le_refl _, fun h => absurd hready h⟩,
    fun _ => hasRoom_of_between rfl, fun h => absurd h Bool.false_ne_true⟩

/-- A step never fails. -/
theorem moves_step (room : Nat) (hahead : r.Ahead later) (hr : r.IsTidy) (hroom : r.HasRoom) :
    ∃ next, r.step room = .ok next ∧ r.Moves next := by
  have hat := hahead
  unfold Ahead at hat
  cases hplace : r.place with
  | between =>
    rw [step, hplace]
    exact moves_stepBetween room hplace hahead hr hroom
  | elder =>
    rw [hplace] at hat
    exact hat.elim
  | insideElder f =>
    rw [hplace] at hat
    exact hat.elim
  | inside f =>
    rw [step, hplace]
    rw [hplace] at hat
    cases hstage : f.stage with
    | blockHead => exact moves_blockHead hplace hstage hahead hr hroom
    | block b left => exact moves_block hplace hstage hahead hr hroom
    | ended => exact moves_ended hplace hstage hahead hr
    | checksum =>
      have hawaits := hat.2
      rw [hstage] at hawaits
      exact hawaits.elim
    | skipped left =>
      have hawaits := hat.2
      rw [hstage] at hawaits
      exact hawaits.elim

/-! ## 3. Draws -/

theorem tidy_settle (hahead : r.Ahead later) (hr : r.IsTidy) :
    r.settle.IsTidy ∧ r.settle.HasRoom ∧ r.settle.length = r.length ∧ r.settle.input = r.input := by
  obtain ⟨length, input, store, place, pending, isFinished⟩ := r
  cases place with
  | between => exact ⟨hr.keepBack [], hasRoom_of_between rfl, rfl, rfl⟩
  | elder => exact hahead.elim
  | insideElder f => exact hahead.elim
  | inside f =>
    have hcapacity : maxBlock ≤ store.ring.capacity := hr.capacity f rfl
    have hturned : (store.turn f.head).HasRoom := by
      rw [hahead.1]
      exact store.hasRoom_turn hcapacity
    exact ⟨⟨hr.ready_le, hr.unread_le, hr.keeps,
      fun _ _ => hcapacity.trans_eq (store.capacity_turn f.head).symm,
      fun hplace => absurd hplace.symm (between_ne_inside f)⟩, fun _ _ => hturned,
      rfl, rfl⟩

namespace Leaves

variable {r' : Reader}

theorem trans {r'' : Reader} (h : r.Leaves r') (h' : r'.Leaves r'') : r.Leaves r'' where
  tidy := h'.tidy
  length := h'.length.trans h.length
  rest := h'.rest.trans h.rest
  ready_le := h'.ready_le.trans h.ready_le
  ready_lt hready := h'.ready_le.trans_lt (h.ready_lt hready)

theorem settle (h : r.Leaves r') (hahead : r'.Ahead later) :
    r.Leaves r'.settle ∧ r'.settle.HasRoom := by
  obtain ⟨htidy, hroom, hlength, hinput⟩ := tidy_settle hahead h.tidy
  refine ⟨⟨htidy, hlength.trans h.length, ?_, ?_, ?_⟩, hroom⟩
  · rw [hinput, h.rest]
  · rw [hinput]
    exact h.ready_le
  · rw [hinput]
    exact h.ready_lt

theorem keepBack (h : r.Leaves r') (bytes : Bytes) : r.Leaves { r' with pending := bytes } :=
  ⟨h.tidy.keepBack bytes, h.length, h.rest, h.ready_le, h.ready_lt⟩

end Leaves

/-- Whether the next block has room, as soon as nothing is still to be handed out. -/
def IsReady (r : Reader) : Prop := r.pending = [] → r.HasRoom

/-- A run ends before its steps do, each of which takes something of what is at hand. -/
theorem leaves_run {steps : Nat} (room : Nat) (latest : List Bytes)
    (hsteps : r.input.ready.length < steps) (hahead : r.Ahead later) (hr : r.IsTidy)
    (hroom : r.HasRoom) :
    ∃ latest' r', run steps room latest r = .ok (latest', r') ∧ r.Leaves r' ∧ r'.IsReady := by
  -- each step lessens what is ready; `room` and `latest` only follow what is put out
  induction steps generalizing room latest r later with
  | zero => exact absurd hsteps (Nat.not_lt_zero _)
  | succ steps ih =>
    obtain ⟨next, hstep, hmoves⟩ := moves_step room hahead hr hroom
    obtain ⟨later', hadvances⟩ := advances_step hahead hstep
    obtain ⟨bytes, goesOn, r₁⟩ := next
    have hahead₁ : r₁.Ahead later' := hadvances.ahead
    have hleaves : r.Leaves r₁ := hmoves.toLeaves
    rw [run, hstep]
    simp only
    by_cases hback : bytes.drop room = []
    · rw [if_neg (by rw [hback]; decide)]
      -- nothing is still to be handed out, so that the next block has room
      have hnext : ∃ r₂, (if bytes.isEmpty = true then r₁ else r₁.settle) = r₂ ∧
          r₂.Ahead later' ∧ r.Leaves r₂ ∧ r₂.HasRoom ∧ r₂.input = r₁.input := by
        by_cases hnil : bytes = []
        · rw [if_pos (List.isEmpty_iff.2 hnil)]
          exact ⟨_, rfl, hahead₁, hleaves, hmoves.hasRoom hnil, rfl⟩
        · rw [if_neg (mt List.isEmpty_iff.1 hnil)]
          obtain ⟨hsettled, hroom'⟩ := hleaves.settle hahead₁
          exact ⟨_, rfl, ahead_settle hahead₁, hsettled, hroom',
            (tidy_settle hahead₁ hmoves.tidy).2.2.2⟩
      obtain ⟨r₂, hnext, hahead₂, hleaves₂, hroom₂, hinput⟩ := hnext
      rw [hnext]
      cases goesOn with
      | false => exact ⟨_, _, rfl, hleaves₂, fun _ => hroom₂⟩
      | true =>
        have hfewer : r₁.input.ready.length < r.input.ready.length := hmoves.goesOn rfl
        rw [if_pos rfl]
        obtain ⟨latest', r', hrun, hlater, hready⟩ := ih (room - (bytes.take room).length)
          (bytes.take room :: latest) (by rw [hinput]; omega) hahead₂ hleaves₂.tidy hroom₂
        exact ⟨latest', r', hrun, hleaves₂.trans hlater, hready⟩
    · rw [if_pos (by simpa using hback)]
      exact ⟨_, _, rfl, hleaves.keepBack _, fun hnil => absurd hnil hback⟩

theorem tidy_leave (hahead : r.Ahead later) (hr : r.IsTidy) (hroom : r.HasRoom) :
    r.leave.IsTidy ∧ r.leave.HasRoom ∧ r.leave.length = r.length ∧ r.leave.input = r.input := by
  obtain ⟨length, input, store, place, pending, isFinished⟩ := r
  unfold leave
  split
  · rename_i hplace
    obtain rfl : place = _ := hplace
    -- nothing is kept back behind the end of a frame
    have hnil := (List.append_eq_nil_iff.1 hahead.2.1).1
    have hloaded : input.loaded = [] := (List.append_eq_nil_iff.1 hnil).1
    exact ⟨hr.close hloaded, hasRoom_of_between rfl, rfl, rfl⟩
  · exact ⟨hr, hroom, rfl, rfl⟩

theorem eq_nil_of_refill? {i : Input} (h : i.refill? = none) : i.ready = [] ∧ i.rest = [] := by
  unfold Input.refill? at h
  by_cases hready : i.ready = []
  · rw [if_neg (by rw [hready]; decide)] at h
    by_cases hrest : i.rest = []
    · exact ⟨hready, hrest⟩
    · rw [if_neg (mt List.isEmpty_iff.1 hrest)] at h
      cases h
  · rw [if_pos (by simpa using hready)] at h
    cases h

theorem length_le_rawBlocks (later : Bytes) : BlockHead.length ≤ (rawBlocks later).length := by
  obtain ⟨isLast, now, rest, -, -, -, -, hblocks⟩ := rawBlocks_eq later
  rw [hblocks, rawBlock, List.length_append, List.length_append, Bytes.length_toLittleEndian]
  omega

theorem isFinished_leave (hahead : r.Ahead later) (hr : r.IsTidy)
    (hnone : r.leave.input.refill? = none) : r.leave.isFinished = true := by
  obtain ⟨length, ⟨ready, loaded, rest⟩, store, place, pending, isFinished⟩ := r
  have hover : ready = [] ∧ rest = [] := by
    unfold leave at hnone
    split at hnone <;> exact eq_nil_of_refill? hnone
  obtain ⟨rfl, rfl⟩ := hover
  unfold Ahead Input.atHand at hahead
  rw [List.append_nil, List.append_nil] at hahead
  have hkeeps : place.Keeps loaded := hr.keeps
  cases place with
  | elder => exact hahead.elim
  | insideElder f => exact hahead.elim
  | between =>
    refine hr.finished rfl ?_
    rcases hahead with hframe | ⟨hnil, -⟩
    · -- a frame is longer than what is kept back
      have hlength := congrArg List.length (show loaded = frame later from hframe)
      rw [frame, List.length_append] at hlength
      have hshort : loaded.length < head.length := hkeeps
      omega
    · exact (List.append_nil _).trans ((List.append_nil _).trans hnil)
  | inside f =>
    obtain ⟨h, stage, size, hash⟩ := f
    obtain ⟨-, hawaits⟩ := hahead
    cases stage with
    | ended => rfl
    | checksum => exact hawaits.elim
    | skipped left => exact hawaits.elim
    | blockHead =>
      have hlength := congrArg List.length (show loaded = rawBlocks later from hawaits)
      have hlong := length_le_rawBlocks later
      have hshort : loaded.length < BlockHead.length := hkeeps
      omega
    | block b left =>
      obtain ⟨rfl, -, hpos, now, rest, rfl, -, hunread, -⟩ := hawaits
      rw [(List.append_eq_nil_iff.1 hunread.symm).1] at hpos
      cases hpos

/-- There are pieces enough until something has been put out or the data have ended. -/
theorem exists_fetch {steps room : Nat} (hroom : 0 < room)
    (hsteps : r.input.ready.length + r.input.rest.length < steps) (hahead : r.Ahead later)
    (hends : r.EndsWith later) (hpending : r.pending = []) (hr : r.IsTidy) (hfits : r.HasRoom) :
    ∃ front r', fetch room steps r = .ok (front, r') ∧ r'.IsTidy ∧ r'.IsReady := by
  -- a round takes some of the data, unless it puts something out or there are none left
  induction steps generalizing r with
  | zero => exact absurd hsteps (Nat.not_lt_zero _)
  | succ steps ih =>
    obtain ⟨htidy, hroomy, -, hinput⟩ := tidy_leave hahead hr hfits
    have hfinished := isFinished_leave hahead hr
    obtain ⟨hahead₁, hends₁⟩ := ahead_leave hahead hends
    have hpending₁ : r.leave.pending = [] := pending_leave.trans hpending
    rw [← hinput] at hsteps
    rw [fetch]
    simp only
    generalize r.leave = r₁ at *
    cases hrefill : r₁.input.refill? with
    | none => exact ⟨[], r₁, by simp only; rw [if_pos (hfinished hrefill)], htidy, fun _ => hroomy⟩
    | some input =>
      obtain ⟨htidy₂, hnew, hlength⟩ := tidy_refill htidy hrefill
      obtain ⟨hloaded, hunread⟩ := unread_refill? hrefill
      have hahead₂ : Ahead { r₁ with input, isFinished := false } later := by
        unfold Ahead
        rw [hloaded, hunread]
        exact hahead₁
      have hmax : input.ready.length < maxSteps :=
        htidy₂.ready_le.trans_lt (by unfold maxSteps; omega)
      obtain ⟨latest, r₂, hrun, hleaves, hready⟩ :=
        leaves_run room [] (r := { r₁ with input, isFinished := false }) hmax hahead₂ htidy₂ hroomy
      simp only [hrun]
      by_cases hnil : latest.reverse.flatten = []
      · rw [if_pos (List.isEmpty_iff.2 hnil)]
        -- a round that puts nothing out has taken something
        obtain ⟨out, rest, hout, hgave⟩ := gave_run hahead₂
          (fun h => absurd h Bool.false_ne_true) hpending₁ hrun
        rw [hnil, List.reverse_nil, List.flatten_nil, List.nil_append] at hout
        obtain rfl := hout.symm
        have hpending₂ := hgave.pending hroom rfl
        obtain ⟨later', hrest, hahead₃, hends₃⟩ := hgave.holds
        rw [hpending₂, List.nil_append] at hrest
        obtain rfl : later = later' := hgave.append.trans hrest
        refine ih ?_ hahead₃ hends₃ hpending₂ hleaves.tidy (hready hpending₂)
        have hfewer : r₂.input.ready.length < input.ready.length := hleaves.ready_lt hnew
        have hsame : r₂.input.rest = input.rest := hleaves.rest
        rw [hsame]
        omega
      · rw [if_neg (mt List.isEmpty_iff.1 hnil)]
        exact ⟨_, r₂, rfl, hleaves.tidy, hready⟩

/-- Whether a reader holds some contents and gives all of them. -/
structure Yields (r : Reader) (bytes : Bytes) : Prop where
  holds : r.Holds bytes
  tidy : r.IsTidy
  isReady : r.IsReady

theorem exists_draw {room : Nat} {bytes : Bytes} (hroom : 0 < room) (hr : r.Yields bytes) :
    ∃ front r', r.draw room = .ok (front, r') ∧ r'.IsTidy ∧ r'.IsReady := by
  obtain ⟨⟨later, -, hahead, hends⟩, htidy, hready⟩ := hr
  unfold draw
  by_cases hpending : r.pending = []
  · rw [if_pos (List.isEmpty_iff.2 hpending)]
    have hunread := htidy.unread_le
    exact exists_fetch hroom (by omega) hahead hends hpending htidy (hready hpending)
  · rw [if_neg (mt List.isEmpty_iff.1 hpending)]
    refine ⟨_, _, rfl, ?_⟩
    by_cases hback : r.pending.drop room = []
    · rw [if_pos (List.isEmpty_iff.2 hback)]
      obtain ⟨hsettled, hsettledRoom, -, -⟩ := tidy_settle hahead htidy
      exact ⟨hsettled, fun _ => hsettledRoom⟩
    · rw [if_neg (mt List.isEmpty_iff.1 hback)]
      exact ⟨htidy.keepBack _, fun hnil => absurd hnil hback⟩

/-- A reader that keeps some contents gives them and never fails. -/
theorem gives_all : Feed.Gives Yields fun _ => False := by
  intro room bytes hroom
  refine ⟨fun r front r' hr hdraw => ?_, fun r e hr hdraw => ?_⟩
  · obtain ⟨rest, hfront, hholds⟩ := (gives room bytes hroom).ok r front r' hr.holds hdraw
    obtain ⟨front', r'', hdrawn, htidy, hready⟩ := exists_draw hroom hr
    simp only [Feed.draw, hdrawn] at hdraw
    cases hdraw
    exact ⟨rest, hfront, hholds, htidy, hready⟩
  · obtain ⟨front, r', hdrawn, -⟩ := exists_draw hroom hr
    simp only [Feed.draw, hdrawn] at hdraw
    cases hdraw

theorem yields_ofBytes (bytes : Bytes) : (ofBytes (frame bytes)).Yields bytes where
  holds := holds_ofBytes bytes
  tidy := by
    refine ⟨Nat.zero_le _, (Nat.zero_add _).le, show 0 < head.length by decide,
      fun f hplace => absurd hplace (between_ne_inside f), fun _ hnil => ?_⟩
    have hframe : frame bytes = [] := hnil
    rw [frame] at hframe
    exact absurd (List.append_eq_nil_iff.1 hframe).1 (by decide)
  isReady _ := hasRoom_of_between rfl

end Reader
end ScanArchive.Zstd
