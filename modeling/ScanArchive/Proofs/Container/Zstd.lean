import ScanArchive.Container.Zstd.Head
import ScanArchive.Container.Zstd.Reader
import ScanArchive.Proofs.Container.Feed

/-!
# Frames that compress nothing

A reader of a frame that is written here gives the contents of the frame in order, however they
are drawn.  What it has not read yet is always what is written for the contents that it still has
to give.
-/

namespace ScanArchive.Zstd

/-! ## 1. Heads -/

def frameHead : Head where
  window := maxBlock
  size := none
  hasChecksum := false
  isSkipped := false

theorem readContent_head (rest : Bytes) :
    Head.readContent (0x00 :: 0x38 :: rest) = .ok (some (frameHead, rest)) := by
  have hdescriptor : Bytes.split? 1 (0x00 :: 0x38 :: rest) = some ([0x00], 0x38 :: rest) :=
    Bytes.split?_append [0x00] _
  have hwindow : Bytes.split? 1 (0x38 :: rest) = some ([0x38], rest) :=
    Bytes.split?_append [0x38] rest
  have hnothing : Bytes.split? 0 rest = some ([], rest) := Bytes.split?_append [] rest
  simp [Head.readContent, hdescriptor, hwindow, hnothing, Bytes.littleEndian, field, frameHead,
    maxBlock, pure, Except.pure]

theorem read_head (rest : Bytes) : Head.read (head ++ rest) = .ok (some (frameHead, rest)) :=
  readContent_head rest

theorem read_take_head {count : Nat} (h : count < head.length) :
    Head.read (head.take count) = .ok none := by
  have hcount : count < 6 := h
  interval_cases count <;> rfl

/-- The front of a frame that is long enough gives its head, and a shorter one gives nothing. -/
theorem read_front {front rest tail : Bytes} (h : front ++ rest = head ++ tail) :
    (∃ ready, front = head ++ ready ∧ Head.read front = .ok (some (frameHead, ready))) ∨
      Head.read front = .ok none := by
  rcases List.append_eq_append_iff.1 h with ⟨behind, hhead, -⟩ | ⟨ready, hfront, -⟩
  · cases hbehind : behind with
    | nil =>
      rw [hbehind, List.append_nil] at hhead
      rw [← hhead]
      exact .inl ⟨[], rfl, rfl⟩
    | cons byte behind =>
      have hcount : front.length < head.length := by
        rw [hhead, List.length_append, hbehind, List.length_cons]
        omega
      right
      have htake : front = head.take front.length := by
        rw [hhead, List.take_left]
      rw [htake]
      exact read_take_head hcount
  · rw [hfront]
    exact .inl ⟨ready, rfl, read_head ready⟩

theorem ofBytes?_rawBlock {size : Nat} (hsize : size ≤ maxBlock) (isLast : Bool) :
    BlockHead.ofBytes? (Bytes.toLittleEndian BlockHead.length (size * 8 + isLast.toNat))
      = some { kind := .raw, size, isLast } := by
  have hlt : size * 8 + isLast.toNat < Nat.pow 256 BlockHead.length := by
    have hbit := isLast.toNat_lt
    have hpow : maxBlock * 8 + 2 ≤ Nat.pow 256 BlockHead.length := by decide
    omega
  have hkind : field (size * 8 + isLast.toNat) 1 2 = 0 := by
    unfold field
    have hbit := isLast.toNat_lt
    rw [Nat.shiftRight_eq_div_pow]
    show (size * 8 + isLast.toNat) / 2 % 4 = 0
    omega
  have hdiv : (size * 8 + isLast.toNat) / 8 = size := by
    have hbit := isLast.toNat_lt
    omega
  have hlast : decide ((size * 8 + isLast.toNat) % 2 = 1) = isLast := by
    cases isLast <;> simp <;> omega
  unfold BlockHead.ofBytes?
  simp only [Bytes.littleEndian_toLittleEndian, Nat.mod_eq_of_lt hlt, hkind, hdiv, hlast]
  rfl

/-! ## 2. What is still to come -/

def behind (isLast : Bool) (later : Bytes) : Bytes := if isLast then [] else rawBlocks later

theorem rawBlocks_eq (later : Bytes) :
    ∃ (isLast : Bool) (now rest : Bytes),
      later = now ++ rest ∧ now.length ≤ maxBlock ∧ (isLast = true → rest = []) ∧
      (isLast = false → 0 < now.length) ∧
      rawBlocks later = rawBlock isLast now ++ behind isLast rest := by
  by_cases hlast : (later.drop maxBlock).isEmpty = true
  · refine ⟨true, later, [], (List.append_nil _).symm, ?_, fun _ => rfl, nofun, ?_⟩
    · exact List.drop_eq_nil_iff.1 (List.isEmpty_iff.1 hlast)
    · rw [rawBlocks, if_pos hlast]
      exact (List.append_nil _).symm
  · refine ⟨false, later.take maxBlock, later.drop maxBlock, (List.take_append_drop _ _).symm,
      List.length_take_le _ _, nofun, fun _ => ?_, ?_⟩
    · rw [List.isEmpty_iff, List.drop_eq_nil_iff] at hlast
      have hpos : 0 < maxBlock := by decide
      rw [List.length_take]
      omega
    · rw [rawBlocks, if_neg hlast]
      rfl

/-- What has not been read where a frame expects something, and the contents to come of it. -/
def Stage.Awaits : Stage → (loaded unread later : Bytes) → Prop
  | .blockHead, _, unread, later => unread = rawBlocks later
  | .block b left, loaded, unread, later =>
    loaded = [] ∧ b.kind = .raw ∧ 0 < left ∧ ∃ now rest, now.length = left ∧
      (b.isLast = true → rest = []) ∧ unread = now ++ behind b.isLast rest ∧ later = now ++ rest
  | .ended, _, unread, later => unread = [] ∧ later = []
  | _, _, _, _ => False

def Place.Awaits : Place → (loaded unread later : Bytes) → Prop
  | .between, _, unread, later => unread = frame later ∨ unread = [] ∧ later = []
  | .inside f, loaded, unread, later => f.head = frameHead ∧ f.stage.Awaits loaded unread later
  | _, _, _, _ => False

namespace Reader

/-- Whether the contents that are still to be decoded are these. -/
def Ahead (r : Reader) (later : Bytes) : Prop :=
  r.place.Awaits r.input.loaded (r.input.atHand ++ r.input.rest) later

def EndsWith (r : Reader) (later : Bytes) : Prop := r.isFinished = true → later = []

/-- Whether the contents that are still to be handed out are these. -/
def Holds (r : Reader) (bytes : Bytes) : Prop :=
  ∃ later, bytes = r.pending ++ later ∧ r.Ahead later ∧ r.EndsWith later

/-- What a step puts out comes first of what is still to be decoded. -/
structure Advances (r : Reader) (later : Bytes) (next : Step) (later' : Bytes) : Prop where
  append : later = next.1 ++ later'
  ahead : next.2.2.Ahead later'
  pending : next.2.2.pending = r.pending
  finished : next.2.2.isFinished = true → r.isFinished = true ∨ later' = []

theorem Advances.endsWith {r : Reader} {later later' : Bytes} {next : Step}
    (h : r.Advances later next later') (hr : r.EndsWith later) : next.2.2.EndsWith later' := by
  intro hfinished
  rcases h.finished hfinished with hbefore | hnil
  · have hnothing := h.append.symm.trans (hr hbefore)
    exact (List.append_eq_nil_iff.1 hnothing).2
  · exact hnil

/-! ## 3. Steps -/

variable {r : Reader} {later : Bytes} {next : Step}

theorem ahead_load (hr : r.Ahead later) (hloaded : r.input.atHand = [] ∨
    ∀ f b left, r.place = .inside f → f.stage ≠ .block b left) :
    Ahead { r with input := r.input.load } later := by
  have hunread : r.input.load.atHand ++ r.input.load.rest = r.input.atHand ++ r.input.rest := by
    simp [Input.load, Input.atHand]
  unfold Ahead at hr ⊢
  rw [hunread]
  cases hplace : r.place with
  | between => rw [hplace] at hr; exact hr
  | elder => rw [hplace] at hr; exact hr.elim
  | insideElder f => rw [hplace] at hr; exact hr.elim
  | inside f =>
    rw [hplace] at hr
    refine ⟨hr.1, ?_⟩
    have hawaits := hr.2
    cases hstage : f.stage with
    | blockHead => rw [hstage] at hawaits; exact hawaits
    | ended => rw [hstage] at hawaits; exact hawaits
    | checksum => rw [hstage] at hawaits; exact hawaits.elim
    | skipped left => rw [hstage] at hawaits; exact hawaits.elim
    | block b left =>
      rw [hstage] at hawaits
      -- nothing of a block may be waited with
      rcases hloaded with hnil | hno
      · exact ⟨hnil, hawaits.2⟩
      · exact absurd hstage (hno f b left hplace)

theorem whole?_frameHead (room : Nat) (i : Input) (ready : Bytes) :
    whole? room i frameHead ready = none := by
  rw [whole?, if_pos (.inr (.inr rfl))]

theorem advances_start {ready : Bytes} (hunread : ready ++ r.input.rest = rawBlocks later)
    (hstart : r.start frameHead ready = .ok next) : ∃ later', r.Advances later next later' := by
  have hwindow : ¬ Head.maxWindow < frameHead.window := by decide
  rw [start, if_neg hwindow] at hstart
  obtain rfl := Except.ok.inj hstart
  exact ⟨later, rfl, ⟨rfl, hunread⟩, rfl, .inl⟩

theorem advances_stepBetween {room : Nat} (hplace : r.place = .between) (hr : r.Ahead later)
    (hstep : r.stepBetween room = .ok next) : ∃ later', r.Advances later next later' := by
  -- either the head is at hand, or more is waited for
  have hwait : r.stepBetween room = .ok r.starve → ∃ later', r.Advances later next later' := by
    intro hstarve
    rw [hstep] at hstarve
    obtain rfl := Except.ok.inj hstarve
    have hload := ahead_load hr (.inr fun f b left h => by rw [hplace] at h; cases h)
    exact ⟨later, rfl, hload, rfl, .inl⟩
  have hat := hr
  unfold Ahead at hat
  rw [hplace] at hat
  rcases hat with hframe | ⟨hnil, rfl⟩
  · rcases read_front hframe with ⟨ready, hfront, hread⟩ | hread
    · rw [stepBetween, hread] at hstep
      simp only [whole?_frameHead] at hstep
      have hunread : ready ++ r.input.rest = rawBlocks later := by
        rw [hfront, frame, List.append_assoc] at hframe
        exact List.append_cancel_left hframe
      exact advances_start hunread hstep
    · exact hwait (by rw [stepBetween, hread])
  · have hatHand : r.input.atHand = [] := (List.append_eq_nil_iff.1 hnil).1
    exact hwait (by rw [stepBetween, hatHand]; rfl)

variable {f : OpenFrame}

theorem take?_eq_some {i i' : Input} {count : Nat} {bytes : Bytes}
    (h : i.take? count = some (bytes, i')) :
    bytes.length = count ∧ i.atHand ++ i.rest = bytes ++ (i'.atHand ++ i'.rest) ∧
      i'.loaded = [] := by
  obtain ⟨⟨front, ready⟩, hsplit, hfound⟩ := Option.map_eq_some_iff.1 h
  obtain ⟨hatHand, hlength⟩ := Bytes.split?_eq_some_iff.1 hsplit
  obtain ⟨rfl, rfl⟩ := Prod.mk.inj hfound
  refine ⟨hlength, ?_, rfl⟩
  rw [hatHand, List.append_assoc]
  rfl

theorem stage_finish (hhead : f.head = frameHead) : f.finish.stage = .ended := by
  rw [OpenFrame.finish, hhead]
  rfl

theorem awaits_enter {f' : OpenFrame} {isLast : Bool} {now rest unread : Bytes}
    (hhead : f.head = frameHead) (hlast : isLast = true → rest = [])
    (hmore : isLast = false → 0 < now.length) (hunread : unread = now ++ behind isLast rest)
    (henter : f.enter { kind := .raw, size := now.length, isLast } = .ok f') :
    f'.head = frameHead ∧ f'.stage.Awaits [] unread (now ++ rest) := by
  have hstored : BlockHead.stored { kind := .raw, size := now.length, isLast } = now.length := rfl
  rw [OpenFrame.enter, hstored] at henter
  by_cases hlong : f.head.blockLimit < now.length
  · rw [if_pos hlong] at henter
    cases henter
  · rw [if_neg hlong] at henter
    by_cases hpos : 0 < now.length
    · rw [if_pos hpos] at henter
      obtain rfl := Except.ok.inj henter
      exact ⟨hhead, rfl, rfl, hpos, now, rest, rfl, hlast, hunread, rfl⟩
    · -- only the last block may hold nothing
      obtain rfl : now = [] := List.length_eq_zero_iff.1 (by omega)
      cases isLast with
      | false => exact absurd (hmore rfl) hpos
      | true =>
        rw [if_neg hpos, if_pos rfl] at henter
        obtain rfl := Except.ok.inj henter
        refine ⟨hhead, ?_⟩
        rw [stage_finish hhead]
        exact ⟨hunread, hlast rfl⟩

theorem advances_blockHead (hplace : r.place = .inside f) (hstage : f.stage = .blockHead)
    (hr : r.Ahead later) (hstep : r.stepInside f = .ok next) :
    ∃ later', r.Advances later next later' := by
  obtain ⟨length, input, store, place, pending, isFinished⟩ := r
  obtain rfl : place = .inside f := hplace
  have hload := ahead_load hr (.inr fun f' b left h => by
    obtain rfl := Place.inside.inj h
    rw [hstage]
    exact nofun)
  obtain ⟨hhead, hunread⟩ := hr
  rw [hstage] at hunread
  simp only [stepInside, hstage] at hstep
  cases htake : input.take? BlockHead.length with
  | none =>
    rw [htake] at hstep
    obtain rfl := Except.ok.inj hstep
    exact ⟨later, rfl, hload, rfl, .inl⟩
  | some found =>
    obtain ⟨bytes, input'⟩ := found
    rw [htake] at hstep
    simp only at hstep
    obtain ⟨hlength, hsplit, hloaded⟩ := take?_eq_some htake
    -- what is at hand starts with the head of the first block of what is to come
    obtain ⟨isLast, now, rest, rfl, hshort, hlast, hmore, hblocks⟩ := rawBlocks_eq later
    change input.atHand ++ input.rest = rawBlocks (now ++ rest) at hunread
    rw [hsplit, hblocks, rawBlock, List.append_assoc] at hunread
    obtain ⟨rfl, hbehind⟩ := List.append_inj hunread
      (hlength.trans (Bytes.length_toLittleEndian _ _).symm)
    rw [ofBytes?_rawBlock hshort isLast] at hstep
    simp only at hstep
    cases henter : f.enter { kind := .raw, size := now.length, isLast } with
    | error e => rw [henter] at hstep; cases hstep
    | ok f' =>
      rw [henter] at hstep
      obtain rfl := Except.ok.inj hstep
      have hawaits := awaits_enter hhead hlast hmore hbehind henter
      rw [← hloaded] at hawaits
      exact ⟨now ++ rest, rfl, hawaits, rfl, .inl⟩

theorem bytes_of_decode {s s' : Store} {b : BlockHead} {stored bytes : Bytes}
    (hraw : b.kind = .raw) (h : s.decode f.head b stored = .ok (bytes, s')) : bytes = stored := by
  obtain ⟨inputRoom, ring, generous, memory⟩ := s
  simp only [Store.decode, decodeBlock, hraw, decodePlain] at h
  by_cases hroom : ring.room < stored.length
  · rw [if_pos hroom] at h
    cases h
  · rw [if_neg hroom] at h
    cases h
    rfl

theorem awaits_leave {f' : OpenFrame} {b : BlockHead} {now rest unread : Bytes}
    (hhead : f.head = frameHead) (hraw : b.kind = .raw) (hlast : b.isLast = true → rest = [])
    (hunread : unread = now ++ behind b.isLast rest) (hleave : f.leave b now.length = .ok f') :
    f'.head = frameHead ∧ f'.stage.Awaits [] unread (now ++ rest) := by
  rw [OpenFrame.leave] at hleave
  by_cases hpos : 0 < now.length
  · rw [if_pos hpos] at hleave
    obtain rfl := Except.ok.inj hleave
    exact ⟨hhead, rfl, hraw, hpos, now, rest, rfl, hlast, hunread, rfl⟩
  · obtain rfl : now = [] := List.length_eq_zero_iff.1 (by omega)
    rw [if_neg hpos] at hleave
    cases hb : b.isLast with
    | false =>
      rw [hb, if_pos (show (!false) = true from rfl)] at hleave
      obtain rfl := Except.ok.inj hleave
      rw [hb] at hunread
      exact ⟨hhead, hunread⟩
    | true =>
      -- no length is given that might differ
      have hsize : f.head.size.any (· ≠ f.size) = false := by rw [hhead]; rfl
      rw [hb, if_neg (by decide), hsize, if_neg (by decide)] at hleave
      obtain rfl := Except.ok.inj hleave
      refine ⟨hhead, ?_⟩
      rw [stage_finish hhead]
      rw [hb] at hunread
      exact ⟨hunread, hlast hb⟩

theorem front_of_append {ready rest now tail : Bytes} (h : ready ++ rest = now ++ tail) :
    ∃ now', now = ready.take now.length ++ now' ∧
      ready.drop now.length ++ rest = now' ++ tail := by
  rcases List.append_eq_append_iff.1 h with ⟨now', rfl, rfl⟩ | ⟨ready', rfl, rfl⟩
  · refine ⟨now', ?_, ?_⟩
    · rw [List.take_of_length_le (by rw [List.length_append]; omega)]
    · rw [List.drop_eq_nil_of_le (by rw [List.length_append]; omega)]
      rfl
  · refine ⟨[], ?_, ?_⟩
    · rw [List.take_left, List.append_nil]
    · rw [List.drop_left]
      rfl

theorem advances_block {b : BlockHead} {left : Nat} (hplace : r.place = .inside f)
    (hstage : f.stage = .block b left) (hr : r.Ahead later) (hstep : r.stepInside f = .ok next) :
    ∃ later', r.Advances later next later' := by
  obtain ⟨length, input, store, place, pending, isFinished⟩ := r
  obtain rfl : place = .inside f := hplace
  have hat := hr
  obtain ⟨hhead, hawaits⟩ := hat
  rw [hstage] at hawaits
  obtain ⟨hloaded, hraw, hpos, now, rest, rfl, hlast, hunread, rfl⟩ := hawaits
  change input.atHand ++ input.rest = _ at hunread
  simp only [stepInside, hstage, if_pos hraw] at hstep
  have hatHand : input.atHand = input.ready := by
    rw [Input.atHand, show input.loaded = [] from hloaded]
    rfl
  by_cases hnone : (input.ready.take now.length).isEmpty = true
  · rw [if_pos hnone] at hstep
    obtain rfl := Except.ok.inj hstep
    have hready : input.atHand = [] := by
      rw [List.isEmpty_iff, List.take_eq_nil_iff] at hnone
      rw [hatHand]
      exact hnone.resolve_left (Nat.ne_of_gt hpos)
    exact ⟨now ++ rest, rfl, ahead_load hr (.inl hready), rfl, .inl⟩
  · rw [if_neg hnone] at hstep
    simp only at hstep
    cases hdecode : store.decode f.head b (input.ready.take now.length) with
    | error e => rw [hdecode] at hstep; cases hstep
    | ok found =>
      obtain ⟨bytes, store'⟩ := found
      rw [hdecode] at hstep
      obtain rfl := bytes_of_decode hraw hdecode
      simp only at hstep
      by_cases hlong : f.head.blockLimit < (input.ready.take now.length).length
      · rw [if_pos hlong] at hstep
        cases hstep
      · rw [if_neg hlong] at hstep
        rw [hatHand] at hunread
        -- as much of the block as is at hand is put out
        obtain ⟨now', hnow, hunread'⟩ := front_of_append hunread
        have hleft : now.length - (input.ready.take now.length).length = now'.length := by
          have hlength := congrArg List.length hnow
          rw [List.length_append] at hlength
          omega
        rw [hleft] at hstep
        cases hleave : (f.add (input.ready.take now.length)).leave b now'.length with
        | error e => rw [hleave] at hstep; cases hstep
        | ok f' =>
          rw [hleave] at hstep
          obtain rfl := Except.ok.inj hstep
          have hawaits := awaits_leave (f := f.add (input.ready.take now.length))
            hhead hraw hlast hunread' hleave
          refine ⟨now' ++ rest, ?_, ?_, rfl, .inl⟩
          · rw [← List.append_assoc, ← hnow]
          · unfold Ahead Input.atHand
            simp only [show input.loaded = [] from hloaded, List.nil_append]
            exact hawaits

theorem advances_ended (hplace : r.place = .inside f) (hstage : f.stage = .ended)
    (hr : r.Ahead later) (hstep : r.stepInside f = .ok next) :
    ∃ later', r.Advances later next later' := by
  obtain ⟨length, input, store, place, pending, isFinished⟩ := r
  obtain rfl : place = .inside f := hplace
  obtain ⟨-, hover⟩ := hr
  rw [hstage] at hover
  simp only [stepInside, hstage] at hstep
  obtain rfl := Except.ok.inj hstep
  exact ⟨later, rfl, .inr hover, rfl, fun _ => .inr hover.2⟩

theorem advances_step {room : Nat} (hr : r.Ahead later) (hstep : r.step room = .ok next) :
    ∃ later', r.Advances later next later' := by
  have hat := hr
  unfold Ahead at hat
  cases hplace : r.place with
  | between =>
    rw [step, hplace] at hstep
    exact advances_stepBetween hplace hr hstep
  | elder =>
    rw [hplace] at hat
    exact hat.elim
  | insideElder f =>
    rw [hplace] at hat
    exact hat.elim
  | inside f =>
    rw [step, hplace] at hstep
    rw [hplace] at hat
    cases hstage : f.stage with
    | blockHead => exact advances_blockHead hplace hstage hr hstep
    | block b left => exact advances_block hplace hstage hr hstep
    | ended => exact advances_ended hplace hstage hr hstep
    | checksum =>
      have hawaits := hat.2
      rw [hstage] at hawaits
      exact hawaits.elim
    | skipped left =>
      have hawaits := hat.2
      rw [hstage] at hawaits
      exact hawaits.elim

/-! ## 4. Draws -/

@[simp] theorem pending_settle : r.settle.pending = [] := by
  obtain ⟨length, input, store, place, pending, isFinished⟩ := r
  cases place <;> rfl

@[simp] theorem isFinished_settle : r.settle.isFinished = r.isFinished := by
  obtain ⟨length, input, store, place, pending, isFinished⟩ := r
  cases place <;> rfl

theorem ahead_settle (hr : r.Ahead later) : r.settle.Ahead later := by
  obtain ⟨length, input, store, place, pending, isFinished⟩ := r
  cases place with
  | between => exact hr
  | inside f => exact hr
  | elder => exact hr.elim
  | insideElder f => exact hr.elim

theorem pending_leave : r.leave.pending = r.pending := by
  unfold leave
  split <;> rfl

theorem ahead_leave (hr : r.Ahead later) (hends : r.EndsWith later) :
    r.leave.Ahead later ∧ r.leave.EndsWith later := by
  unfold leave
  split
  · rename_i hplace
    unfold Ahead at hr
    rw [hplace] at hr
    exact ⟨.inr hr.2, fun _ => hr.2.2⟩
  · exact ⟨hr, hends⟩

theorem unread_refill? {i i' : Input} (h : i.refill? = some i') :
    i'.loaded = i.loaded ∧ i'.atHand ++ i'.rest = i.atHand ++ i.rest := by
  unfold Input.refill? at h
  by_cases hready : (!i.ready.isEmpty) = true
  · rw [if_pos hready] at h
    obtain rfl := Option.some.inj h
    exact ⟨rfl, rfl⟩
  · rw [if_neg hready] at h
    have hnil : i.ready = [] := by simpa using hready
    by_cases hrest : i.rest.isEmpty = true
    · rw [if_pos hrest] at h
      cases h
    · rw [if_neg hrest] at h
      obtain rfl := Option.some.inj h
      refine ⟨rfl, ?_⟩
      simp [Input.atHand, hnil]

/-- What a run has put out, at most so much, and what is to be handed out behind it. -/
structure Gave (room : Nat) (later front : Bytes) (r : Reader) (rest : Bytes) : Prop where
  append : later = front ++ rest
  length_le : front.length ≤ room
  holds : r.Holds rest
  /-- nothing is kept back if nothing has been put out -/
  pending : 0 < room → front = [] → r.pending = []

theorem Gave.append_left {room : Nat} {bytes front rest : Bytes} {r' : Reader}
    (hfits : bytes.length ≤ room) (h : Gave (room - bytes.length) later front r' rest) :
    Gave room (bytes ++ later) (bytes ++ front) r' rest where
  append := by rw [h.append, List.append_assoc]
  length_le := by
    have hlength := h.length_le
    rw [List.length_append]
    omega
  holds := h.holds
  pending hroom hnil := by
    obtain ⟨rfl, hfront⟩ := List.append_eq_nil_iff.1 hnil
    exact h.pending hroom hfront

theorem gave_back {room : Nat} {bytes : Bytes} (hback : bytes.drop room ≠ []) (hr : r.Ahead later)
    (hends : r.EndsWith later) :
    Gave room (bytes ++ later) (bytes.take room) { r with pending := bytes.drop room }
      (bytes.drop room ++ later) where
  append := by rw [← List.append_assoc, List.take_append_drop]
  length_le := List.length_take_le _ _
  holds := ⟨later, rfl, hr, hends⟩
  pending hroom hnil := by
    rw [List.take_eq_nil_iff] at hnil
    obtain rfl := hnil.resolve_left (Nat.ne_of_gt hroom)
    exact absurd List.drop_nil hback

theorem gave_nil {room : Nat} (hr : r.Ahead later) (hends : r.EndsWith later)
    (hpending : r.pending = []) : Gave room later [] r later where
  append := rfl
  length_le := Nat.zero_le _
  holds := ⟨later, by rw [hpending]; rfl, hr, hends⟩
  pending _ _ := hpending

/-- What the steps of a run put out comes first of what is still to be decoded. -/
theorem gave_run {steps room : Nat} {latest latest' : List Bytes} {r' : Reader}
    (hr : r.Ahead later) (hends : r.EndsWith later) (hpending : r.pending = [])
    (hrun : run steps room latest r = .ok (latest', r')) :
    ∃ front rest, latest'.reverse.flatten = latest.reverse.flatten ++ front ∧
      Gave room later front r' rest := by
  induction steps generalizing room latest r later with
  | zero => cases hrun
  | succ steps ih =>
    rw [run] at hrun
    cases hstep : r.step room with
    | error e => rw [hstep] at hrun; cases hrun
    | ok next =>
      rw [hstep] at hrun
      obtain ⟨later', hadvances⟩ := advances_step hr hstep
      have hends₁ := hadvances.endsWith hends
      obtain ⟨bytes, goesOn, r₁⟩ := next
      obtain ⟨rfl, hahead, hpending₁, -⟩ := hadvances
      simp only at hrun hahead hpending₁ hends₁
      have hlatest : (bytes.take room :: latest).reverse.flatten
          = latest.reverse.flatten ++ bytes.take room := by
        simp
      by_cases hback : bytes.drop room = []
      · have hfits : bytes.length ≤ room := List.drop_eq_nil_iff.1 hback
        rw [if_neg (by rw [hback]; decide)] at hrun
        rw [List.take_of_length_le hfits] at hrun hlatest
        -- what has been decoded is kept, and nothing of it is still to be handed out
        generalize hnext : (if bytes.isEmpty = true then r₁ else r₁.settle) = r₂ at hrun
        obtain ⟨hahead₂, hends₂, hpending₂⟩ :
            r₂.Ahead later' ∧ r₂.EndsWith later' ∧ r₂.pending = [] := by
          rw [← hnext]
          split
          · exact ⟨hahead, hends₁, hpending₁.trans hpending⟩
          · refine ⟨ahead_settle hahead, ?_, pending_settle⟩
            unfold EndsWith
            rw [isFinished_settle]
            exact hends₁
        cases goesOn with
        | false =>
          rw [if_neg (by decide)] at hrun
          obtain ⟨rfl, rfl⟩ := Prod.mk.inj (Except.ok.inj hrun)
          have hgave := Gave.append_left hfits (gave_nil hahead₂ hends₂ hpending₂)
          rw [List.append_nil] at hgave
          exact ⟨bytes, later', hlatest, hgave⟩
        | true =>
          rw [if_pos rfl] at hrun
          obtain ⟨front, rest, hlatest', hgave⟩ := ih hahead₂ hends₂ hpending₂ hrun
          refine ⟨bytes ++ front, rest, ?_, hgave.append_left hfits⟩
          rw [hlatest', hlatest, List.append_assoc]
      · rw [if_pos (by simpa using hback)] at hrun
        obtain ⟨rfl, rfl⟩ := Prod.mk.inj (Except.ok.inj hrun)
        exact ⟨bytes.take room, _, hlatest, gave_back hback hahead hends₁⟩

theorem isFront_fetch {steps room : Nat} {front : Bytes} {r' : Reader} (hroom : 0 < room)
    (hr : r.Ahead later) (hends : r.EndsWith later) (hpending : r.pending = [])
    (hfetch : fetch room steps r = .ok (front, r')) :
    ∃ rest, Feed.IsFront later room front rest ∧ r'.Holds rest := by
  induction steps generalizing r later with
  | zero => cases hfetch
  | succ steps ih =>
    rw [fetch] at hfetch
    simp only at hfetch
    obtain ⟨hahead, hleft⟩ := ahead_leave hr hends
    have hnothing : r.leave.pending = [] := pending_leave.trans hpending
    generalize r.leave = r₁ at hfetch hahead hleft hnothing
    cases hrefill : r₁.input.refill? with
    | none =>
      rw [hrefill] at hfetch
      simp only at hfetch
      by_cases hfinished : r₁.isFinished = true
      · rw [if_pos hfinished] at hfetch
        obtain ⟨rfl, rfl⟩ := Prod.mk.inj (Except.ok.inj hfetch)
        have hgave : Gave room later [] r₁ later := gave_nil hahead hleft hnothing
        exact ⟨later, ⟨rfl, Nat.zero_le _, fun _ => hleft hfinished⟩, hgave.holds⟩
      · rw [if_neg hfinished] at hfetch
        cases hfetch
    | some input =>
      rw [hrefill] at hfetch
      simp only at hfetch
      obtain ⟨hloaded, hunread⟩ := unread_refill? hrefill
      cases hrun : run maxSteps room [] { r₁ with input, isFinished := false } with
      | error e => rw [hrun] at hfetch; cases hfetch
      | ok found =>
        obtain ⟨latest, r₂⟩ := found
        rw [hrun] at hfetch
        simp only at hfetch
        have hahead₁ : Ahead { r₁ with input, isFinished := false } later := by
          unfold Ahead
          rw [hloaded, hunread]
          exact hahead
        obtain ⟨out, rest, hout, hgave⟩ := gave_run hahead₁ (fun h => nomatch h) hnothing hrun
        rw [List.reverse_nil, List.flatten_nil, List.nil_append] at hout
        rw [hout] at hfetch
        by_cases hnil : out = []
        · rw [if_pos (List.isEmpty_iff.2 hnil)] at hfetch
          subst hnil
          -- nothing was put out, so the next piece is read
          have hpending₂ := hgave.pending hroom rfl
          obtain ⟨later', hrest, hahead₂, hends₂⟩ := hgave.holds
          rw [hpending₂, List.nil_append] at hrest
          obtain rfl : later = later' := hgave.append.trans hrest
          exact ih hahead₂ hends₂ hpending₂ hfetch
        · rw [if_neg (mt List.isEmpty_iff.1 hnil)] at hfetch
          obtain ⟨rfl, rfl⟩ := Prod.mk.inj (Except.ok.inj hfetch)
          exact ⟨rest, ⟨hgave.append, hgave.length_le, fun h => absurd h hnil⟩, hgave.holds⟩

theorem isFront_draw {room : Nat} {bytes front : Bytes} {r' : Reader} (hroom : 0 < room)
    (hr : r.Holds bytes) (hdraw : r.draw room = .ok (front, r')) :
    ∃ rest, Feed.IsFront bytes room front rest ∧ r'.Holds rest := by
  obtain ⟨later, rfl, hahead, hends⟩ := hr
  unfold draw at hdraw
  by_cases hpending : r.pending = []
  · rw [if_pos (List.isEmpty_iff.2 hpending)] at hdraw
    rw [hpending, List.nil_append]
    exact isFront_fetch hroom hahead hends hpending hdraw
  · rw [if_neg (mt List.isEmpty_iff.1 hpending)] at hdraw
    obtain ⟨rfl, rfl⟩ := Prod.mk.inj (Except.ok.inj hdraw)
    -- what was decoded before is handed out first
    have hfront : Feed.IsFront (r.pending ++ later) room (r.pending.take room)
        (r.pending.drop room ++ later) := by
      refine ⟨?_, List.length_take_le _ _, fun hnil => ?_⟩
      · rw [← List.append_assoc, List.take_append_drop]
      · rw [List.take_eq_nil_iff] at hnil
        exact absurd (hnil.resolve_left (Nat.ne_of_gt hroom)) hpending
    refine ⟨_, hfront, later, ?_⟩
    by_cases hback : r.pending.drop room = []
    · rw [if_pos (List.isEmpty_iff.2 hback), pending_settle, hback]
      refine ⟨rfl, ahead_settle hahead, ?_⟩
      unfold EndsWith
      rw [isFinished_settle]
      exact hends
    · rw [if_neg (mt List.isEmpty_iff.1 hback)]
      exact ⟨rfl, hahead, hends⟩

/-- A reader gives what it holds, unless it fails. -/
theorem gives : Feed.Gives Holds fun _ => True := by
  intro room bytes hroom
  refine ⟨fun r front r' hr hdraw => ?_, fun _ _ _ _ => trivial⟩
  cases hfound : r.draw room with
  | error fault =>
    simp only [Feed.draw, hfound] at hdraw
    cases hdraw
  | ok found =>
    simp only [Feed.draw, hfound] at hdraw
    cases hdraw
    exact isFront_draw hroom hr hfound

theorem holds_ofBytes (bytes : Bytes) : (ofBytes (frame bytes)).Holds bytes :=
  ⟨bytes, rfl, .inl rfl, fun h => nomatch h⟩

end Reader

/-! ## 5. Lengths -/

theorem length_le_length_rawBlocks (bytes : Bytes) : bytes.length ≤ (rawBlocks bytes).length := by
  induction bytes using rawBlocks.induct with
  | case1 bytes rest hlast =>
    rw [rawBlocks, if_pos hlast, rawBlock, List.length_append]
    exact Nat.le_add_left _ _
  | case2 bytes rest hmore ih =>
    -- the heads of blocks are only added to them
    have hsplit : bytes.length = (bytes.take maxBlock).length + rest.length := by
      rw [← List.length_append, List.take_append_drop]
    rw [rawBlocks, if_neg hmore, List.length_append, rawBlock, List.length_append, hsplit]
    exact Nat.add_le_add (Nat.le_add_left _ _) ih

theorem length_le_length_frame (bytes : Bytes) : bytes.length ≤ (frame bytes).length := by
  rw [frame, List.length_append]
  exact (length_le_length_rawBlocks bytes).trans (Nat.le_add_left _ _)

theorem length_rawBlocks_le (bytes : Bytes) :
    (rawBlocks bytes).length ≤ 4 * bytes.length + BlockHead.length := by
  induction bytes using rawBlocks.induct with
  | case1 bytes rest hlast =>
    rw [rawBlocks, if_pos hlast, rawBlock, List.length_append, Bytes.length_toLittleEndian]
    omega
  | case2 bytes rest hmore ih =>
    have hlength : BlockHead.length = 3 := rfl
    have hsplit : bytes.length = (bytes.take maxBlock).length + rest.length := by
      rw [← List.length_append, List.take_append_drop]
    -- a block that is not the last one is full
    have hfull : (bytes.take maxBlock).length = maxBlock := by
      rw [List.isEmpty_iff, List.drop_eq_nil_iff, Nat.not_le] at hmore
      exact List.length_take_of_le hmore.le
    have hpos : 0 < maxBlock := by decide
    change (rawBlocks rest).length ≤ _ at ih
    rw [rawBlocks, if_neg hmore, List.length_append, rawBlock, List.length_append,
      Bytes.length_toLittleEndian]
    show BlockHead.length + (bytes.take maxBlock).length + (rawBlocks rest).length ≤ _
    omega

theorem length_frame_le (bytes : Bytes) : (frame bytes).length ≤ 4 * bytes.length + 9 := by
  have hhead : head.length = 6 := rfl
  rw [frame, List.length_append, hhead, Nat.add_comm]
  exact Nat.add_le_add_right (length_rawBlocks_le bytes) 6

end ScanArchive.Zstd
