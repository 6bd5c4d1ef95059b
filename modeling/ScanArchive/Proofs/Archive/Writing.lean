import ScanArchive.Archive.Writer
import ScanArchive.Proofs.Budget
import ScanArchive.Proofs.Framing.Messages

/-!
# What a single write can do

A write to a sink in memory is refused before anything happens, or comes to one of a few
outcomes that depend on which of its sink calls fail.  `nodeStep` and `headerStep` say once what
each of them leaves behind.
-/

namespace ScanArchive

/-! ## 1. Calls -/

namespace Call

variable {σ α β : Type} {c : Call σ α} {f : α → Call σ β} {s s' : σ}

theorem bind_of_ok {a : α} (h : c s = (.ok a, s')) : (c >>= f) s = f a s' := by
  simp only [bind, ExceptT.bind, ExceptT.mk, StateT.bind, h]
  rfl

theorem bind_of_error {e : Error} (h : c s = (.error e, s')) :
    (c >>= f) s = (.error e, s') := by
  simp only [bind, ExceptT.bind, ExceptT.mk, StateT.bind, h]
  rfl

theorem exists_of_bind_eq_ok {b : β} (h : (c >>= f) s = (.ok b, s')) :
    ∃ a s₁, c s = (.ok a, s₁) ∧ f a s₁ = (.ok b, s') := by
  cases hfirst : c s with
  | mk result s₁ =>
    cases result with
    | error e =>
      rw [bind_of_error hfirst] at h
      cases h
    | ok a =>
      rw [bind_of_ok hfirst] at h
      exact ⟨a, s₁, rfl, h⟩

theorem lift_ok_bind (a : α) (f : α → Call σ β) :
    ((liftM (.ok a : Except Error α) : Call σ α) >>= f) = f a := rfl

theorem except_ok_bind (a : α) (f : α → Except Error β) : (.ok a >>= f) = f a := rfl

end Call

/-! ## 2. Sinks in memory -/

namespace MemorySink

def skip (s : MemorySink) : MemorySink := { s with calls := s.calls + 1 }

def begin (s : MemorySink) (name : String) : MemorySink :=
  { s with calls := s.calls + 1, written := { name } :: s.written }

def append (s : MemorySink) (bytes : Bytes) : MemorySink :=
  { s with calls := s.calls + 1, written := s.written.modifyHead (·.add bytes) }

def contents (s : MemorySink) : List Entry := s.written.map (·.toEntry)

variable (s : MemorySink) {name : String} {bytes : Bytes}

@[simp] theorem contents_skip : s.skip.contents = s.contents := rfl
@[simp] theorem contents_begin : (s.begin name).contents = ⟨name, []⟩ :: s.contents := rfl

@[simp] theorem contents_append :
    (s.append bytes).contents = s.contents.modifyHead fun e => ⟨e.name, e.data ++ bytes⟩ := by
  rw [contents, contents, append]
  cases s.written with
  | nil => rfl
  | cons last earlier =>
    show [(last.add bytes).toEntry] ++ _ = _
    rw [OpenEntry.toEntry_add]
    rfl

theorem entries_eq : s.entries = s.contents.reverse := rfl

def fault : Error := .archive (.other ("sink call " ++ toString s.calls ++ " failed"))

variable {s}

theorem attempt_apply (call : Call MemorySink Unit) (s : MemorySink) :
    attempt call s = if s.failing s.calls then (.error s.fault, s.skip) else call s.skip := by
  unfold attempt
  by_cases h : s.failing s.calls = true
  · rw [if_pos h]
    show (if s.failing s.calls = true then _ else _ : Call MemorySink Unit) s.skip = _
    rw [if_pos h]
    rfl
  · rw [if_neg h]
    show (if s.failing s.calls = true then _ else _ : Call MemorySink Unit) s.skip = _
    rw [if_neg h]

theorem startEntry_apply (name : String) (s : MemorySink) :
    startEntry name s
      = if s.failing s.calls then (.error s.fault, s.skip) else (.ok (), s.begin name) :=
  attempt_apply _ s

theorem writeBytes_apply (hopen : s.written ≠ []) (bytes : Bytes) :
    writeBytes bytes s
      = if s.failing s.calls then (.error s.fault, s.skip) else (.ok (), s.append bytes) := by
  rw [writeBytes, attempt_apply]
  obtain ⟨written, calls, failing⟩ := s
  cases written with
  | nil => exact absurd rfl hopen
  | cons last earlier => rfl

theorem finish_eq (s : MemorySink) :
    s.finish = if s.failing s.calls then .error s.fault else .ok s.entries := by
  show Except.map _ (attempt (pure ()) s).1 = _
  rw [attempt_apply]
  by_cases h : s.failing s.calls = true
  · rw [if_pos h, if_pos h]
    rfl
  · rw [if_neg h, if_neg h]
    rfl

end MemorySink

/-! ## 3. Outcomes -/

/-- What a single write comes to. -/
inductive Outcome where
  /-- it is refused before any sink call -/
  | refused
  /-- no entry is opened for it -/
  | unopened
  /-- an entry is opened, but it gets no prefix -/
  | unmarked
  /-- an entry is opened, but it gets a prefix only -/
  | unfilled
  /-- it stands in an entry of its own -/
  | opened
  /-- it is not added to the open entry -/
  | dropped
  /-- it is added to the open entry -/
  | added
  deriving DecidableEq, Repr

/-- What opening an entry and filling it comes to, by the calls that fail. -/
def MemorySink.opening (s : MemorySink) : Outcome :=
  if s.failing s.calls then .unopened
  else if s.failing (s.calls + 1) then .unmarked
  else if s.failing (s.calls + 2) then .unfilled
  else .opened

namespace Writer

/--
Everything that is checked before a node is written: the bytes that stand for it, where they go,
and the budget afterwards.
-/
def admission {σ : Type} (w : Writer σ) (n : Node) :
    Except Error (Bytes × Placement × ChunkBudget) := do
  if !w.headerWritten then throw (.headerNotWritten "write_node")
  (w.provider.encoding.validate n).mapError Error.validation
  if !w.provider.supports n.kind then throw (.unknownMessageType n.kind.typeUrl)
  let payload ← w.provider.encoding.encodeNode n
  let length ← messageLength payload
  let (placement, budget) ← w.budget.place length
  return (payload, placement, budget)

def nodeOutcome (w : Writer MemorySink) (n : Node) : Outcome :=
  match w.admission n with
  | .error _ => .refused
  | .ok (_, .newEntry, _) => w.sink.opening
  | .ok (_, .currentEntry, _) => if w.sink.failing w.sink.calls then .dropped else .added

def headerOutcome (w : Writer MemorySink) (h : Header) : Outcome :=
  if w.headerWritten then .refused
  else match h.validate with
    | .error _ => .refused
    | .ok () => w.sink.opening

/-! ## 4. Nodes -/

section

variable {σ ω : Type} [Sink σ ω]

def put (payload : Bytes) (placement : Placement) : Call (Writer σ) Unit := do
  if placement = .newEntry then startChunk
  onSink (Sink.writeBytes payload)
  modify fun w => { w with nodesWritten := w.nodesWritten + 1 }

theorem writeNode_apply (n : Node) (w : Writer σ) :
    writeNode n w = match w.admission n with
      | .error e => (.error e, w)
      | .ok (payload, placement, budget) => put payload placement { w with budget } := by
  rw [writeNode, admission,
    Call.bind_of_ok (show (get : Call (Writer σ) _) w = (.ok w, w) from rfl)]
  -- both sides make the same checks in the same order
  cases w.headerWritten with
  | false => rfl
  | true =>
    cases (w.provider.encoding.validate n).mapError Error.validation with
    | error e => rfl
    | ok _ =>
      cases w.provider.supports n.kind with
      | false => rfl
      | true =>
        cases w.provider.encoding.encodeNode n with
        | error e => rfl
        | ok payload =>
          simp only [Call.lift_ok_bind, Call.except_ok_bind, Bool.not_true, Bool.false_eq_true,
            if_false]
          cases messageLength payload with
          | error e => rfl
          | ok length =>
            simp only [Call.lift_ok_bind, Call.except_ok_bind]
            cases w.budget.place length with
            | error e => rfl
            | ok found => rfl

end

/-- A node that is admitted to a place, which leaves the budget given. -/
structure Admits {σ : Type} (w : Writer σ) (n : Node) (placement : Placement)
    (budget : ChunkBudget) : Prop where
  headed : w.headerWritten = true
  valid : w.provider.encoding.validate n = .ok ()
  short : (w.provider.encoding.nodeBody n).length < UInt64.size
  placed : w.budget.place (w.provider.encoding.nodeBody n).length = .ok (placement, budget)

theorem messageLength_delimited {body : Bytes} (h : body.length < UInt64.size) :
    messageLength (Wire.delimited body) = .ok body.length := by
  have hread : Wire.readVarint (Wire.delimited body) = .ok (body.length, body) :=
    Wire.readVarint_eq_ok_iff.2 (Wire.Varint.read_encode h body)
  rw [messageLength, hread]

theorem messageLength_delimited_of_le {body : Bytes} (h : UInt64.size ≤ body.length) :
    ∃ e, messageLength (Wire.delimited body) = .error e := by
  cases hread : Wire.readVarint (Wire.delimited body) with
  | error e => exact ⟨.decode e, by rw [messageLength, hread]⟩
  | ok found =>
    have hsome := Wire.readVarint_eq_ok_iff.1 hread
    rw [Wire.delimited, Wire.Varint.read_encode_of_le h] at hsome
    cases hsome

section

variable {σ : Type} {w : Writer σ} {n : Node} {payload : Bytes} {placement : Placement}
  {budget : ChunkBudget}

theorem admission_of_valid (hheaded : w.headerWritten = true)
    (hvalid : w.provider.encoding.validate n = .ok ()) :
    w.admission n = (messageLength (Wire.delimited (w.provider.encoding.nodeBody n))).bind
      fun length => (w.budget.place length).map fun placed =>
        (Wire.delimited (w.provider.encoding.nodeBody n), placed.1, placed.2) := by
  have hkind := Encoding.kind_mem_of_validate hvalid
  have hsupports : w.provider.supports n.kind = true := decide_eq_true hkind
  have hencode : w.provider.encoding.encodeNode n
      = .ok (Wire.delimited (w.provider.encoding.nodeBody n)) := by
    rw [Encoding.encodeNode, if_pos hkind]
  rw [admission, hheaded, hvalid, hsupports, hencode]
  show (messageLength _ >>= _) = Except.bind _ _
  cases messageLength (Wire.delimited (w.provider.encoding.nodeBody n)) with
  | error e => rfl
  | ok length =>
    show (w.budget.place length >>= _) = Except.map _ _
    cases w.budget.place length <;> rfl

theorem Admits.admission_eq (h : w.Admits n placement budget) :
    w.admission n = .ok (Wire.delimited (w.provider.encoding.nodeBody n), placement, budget) := by
  rw [admission_of_valid h.headed h.valid, messageLength_delimited h.short]
  show Except.map _ (w.budget.place _) = _
  rw [h.placed]
  rfl

/-- What is written for a node that is admitted is its message behind its length. -/
theorem admits_of_admission (h : w.admission n = .ok (payload, placement, budget)) :
    w.Admits n placement budget ∧
      payload = Wire.delimited (w.provider.encoding.nodeBody n) := by
  -- a check that fails would have been reported
  have hheaded : w.headerWritten = true := by
    cases hw : w.headerWritten with
    | false => rw [Writer.admission, hw] at h; cases h
    | true => rfl
  have hvalid : w.provider.encoding.validate n = .ok () := by
    cases hv : w.provider.encoding.validate n with
    | error e => rw [Writer.admission, hheaded, hv] at h; cases h
    | ok _ => rfl
  rw [admission_of_valid hheaded hvalid] at h
  have hshort : (w.provider.encoding.nodeBody n).length < UInt64.size := by
    by_cases hlt : (w.provider.encoding.nodeBody n).length < UInt64.size
    · exact hlt
    · obtain ⟨e, he⟩ := messageLength_delimited_of_le (Nat.le_of_not_lt hlt)
      rw [he] at h
      cases h
  rw [messageLength_delimited hshort] at h
  change Except.map _ (w.budget.place _) = _ at h
  cases hplaced : w.budget.place (w.provider.encoding.nodeBody n).length with
  | error e => rw [hplaced] at h; cases h
  | ok placed => rw [hplaced] at h; cases h; exact ⟨⟨hheaded, hvalid, hshort, hplaced⟩, rfl⟩

end

/-! ## 5. Steps -/

def startedHeader (w : Writer MemorySink) : Writer MemorySink :=
  { w with
    sink := (w.sink.begin Layout.headerName).append (Framing.encodePrefix .header w.version) }

def startedChunk (w : Writer MemorySink) : Writer MemorySink :=
  { w with
    sink := (w.sink.begin (Layout.chunkName w.entryCount)).append
      (Framing.encodePrefix .chunk w.version)
    entryCount := w.entryCount + 1 }

/-- What writing a node to a sink in memory reports and leaves behind, for each outcome. -/
inductive NodeStep (w : Writer MemorySink) (n : Node) :
    Outcome → Except Error Unit → Writer MemorySink → Prop where
  | refused {e : Error} : w.admission n = .error e → NodeStep w n .refused (.error e) w
  | unopened {e : Error} {budget : ChunkBudget} :
      w.Admits n .newEntry budget → w.sink.failing w.sink.calls = true →
        NodeStep w n .unopened (.error e) { w with budget, sink := w.sink.skip }
  | unmarked {e : Error} {budget : ChunkBudget} :
      w.Admits n .newEntry budget → w.sink.failing (w.sink.calls + 1) = true →
        NodeStep w n .unmarked (.error e)
          { w with budget, sink := (w.sink.begin (Layout.chunkName w.entryCount)).skip }
  | unfilled {e : Error} {budget : ChunkBudget} :
      w.Admits n .newEntry budget → w.sink.failing (w.sink.calls + 2) = true →
        NodeStep w n .unfilled (.error e)
          { w.startedChunk with budget, sink := w.startedChunk.sink.skip }
  | opened {budget : ChunkBudget} :
      w.Admits n .newEntry budget →
        NodeStep w n .opened (.ok ())
          { w.startedChunk with
            budget
            sink := w.startedChunk.sink.append (Wire.delimited (w.provider.encoding.nodeBody n))
            nodesWritten := w.nodesWritten + 1 }
  | dropped {e : Error} {budget : ChunkBudget} :
      w.Admits n .currentEntry budget → w.sink.failing w.sink.calls = true →
        NodeStep w n .dropped (.error e) { w with budget, sink := w.sink.skip }
  | added {budget : ChunkBudget} :
      w.Admits n .currentEntry budget →
        NodeStep w n .added (.ok ())
          { w with
            budget
            sink := w.sink.append (Wire.delimited (w.provider.encoding.nodeBody n))
            nodesWritten := w.nodesWritten + 1 }

inductive HeaderStep (w : Writer MemorySink) (h : Header) :
    Outcome → Except Error Unit → Writer MemorySink → Prop where
  | refused {e : Error} : w.headerWritten = true ∨ h.validate ≠ .ok () →
      HeaderStep w h .refused (.error e) w
  | unopened {e : Error} :
      w.headerWritten = false → w.sink.failing w.sink.calls = true →
        HeaderStep w h .unopened (.error e) { w with sink := w.sink.skip }
  | unmarked {e : Error} :
      w.headerWritten = false → w.sink.failing (w.sink.calls + 1) = true →
        HeaderStep w h .unmarked (.error e)
          { w with sink := (w.sink.begin Layout.headerName).skip }
  | unfilled {e : Error} :
      w.headerWritten = false → w.sink.failing (w.sink.calls + 2) = true →
        HeaderStep w h .unfilled (.error e)
          { w.startedHeader with sink := w.startedHeader.sink.skip }
  | opened :
      w.headerWritten = false → h.validate = .ok () →
        HeaderStep w h .opened (.ok ())
          { w.startedHeader with
            sink := w.startedHeader.sink.append (w.provider.encoding.encodeHeader h)
            headerWritten := true }

section

variable {w : Writer MemorySink}

theorem onSink_apply {call : Call MemorySink Unit} {result : Except Error Unit} {s : MemorySink}
    (h : call w.sink = (result, s)) : onSink call w = (result, { w with sink := s }) := by
  show ((call w.sink).1, _) = _
  rw [h]

theorem get_apply (w : Writer MemorySink) :
    (get : Call (Writer MemorySink) (Writer MemorySink)) w = (.ok w, w) := rfl

theorem startEntry_unopened (name : String) (type : EntryType)
    (h : w.sink.failing w.sink.calls = true) :
    startEntry name type w = (.error w.sink.fault, { w with sink := w.sink.skip }) := by
  rw [startEntry, Call.bind_of_ok (get_apply w)]
  apply Call.bind_of_error
  apply onSink_apply
  show MemorySink.startEntry name w.sink = _
  rw [MemorySink.startEntry_apply, if_pos h]

theorem startEntry_of_opened (name : String) (type : EntryType)
    (h : w.sink.failing w.sink.calls = false) :
    startEntry name type w
      = onSink (Sink.writeBytes (Framing.encodePrefix type w.version))
          { w with sink := w.sink.begin name } := by
  rw [startEntry, Call.bind_of_ok (get_apply w)]
  apply Call.bind_of_ok (a := ())
  apply onSink_apply
  show MemorySink.startEntry name w.sink = _
  rw [MemorySink.startEntry_apply, if_neg (ne_true_of_eq_false h)]

theorem startEntry_unmarked (name : String) (type : EntryType)
    (h : w.sink.failing w.sink.calls = false) (hmark : w.sink.failing (w.sink.calls + 1) = true) :
    startEntry name type w
      = (.error (w.sink.begin name).fault, { w with sink := (w.sink.begin name).skip }) := by
  rw [startEntry_of_opened name type h]
  apply onSink_apply
  show MemorySink.writeBytes _ (w.sink.begin name) = _
  rw [MemorySink.writeBytes_apply (List.cons_ne_nil _ _)]
  exact if_pos hmark

theorem startEntry_marked (name : String) (type : EntryType)
    (h : w.sink.failing w.sink.calls = false)
    (hmark : w.sink.failing (w.sink.calls + 1) = false) :
    startEntry name type w
      = (.ok (), { w with
          sink := (w.sink.begin name).append (Framing.encodePrefix type w.version) }) := by
  rw [startEntry_of_opened name type h]
  apply onSink_apply
  show MemorySink.writeBytes _ (w.sink.begin name) = _
  rw [MemorySink.writeBytes_apply (List.cons_ne_nil _ _)]
  exact if_neg (ne_true_of_eq_false hmark)

theorem onSink_writeBytes (bytes : Bytes) (hopen : w.sink.written ≠ []) :
    onSink (Sink.writeBytes bytes) w
      = if w.sink.failing w.sink.calls then (.error w.sink.fault, { w with sink := w.sink.skip })
        else (.ok (), { w with sink := w.sink.append bytes }) := by
  have hwrite := MemorySink.writeBytes_apply hopen bytes
  by_cases hfail : w.sink.failing w.sink.calls = true
  · rw [if_pos hfail] at hwrite ⊢
    exact onSink_apply hwrite
  · rw [if_neg hfail] at hwrite ⊢
    exact onSink_apply hwrite

/-- Where an opening comes to an end, and with which calls. -/
theorem opening_cases (s : MemorySink) :
    (s.opening = .unopened ∧ s.failing s.calls = true) ∨
    (s.opening = .unmarked ∧ s.failing s.calls = false ∧ s.failing (s.calls + 1) = true) ∨
    (s.opening = .unfilled ∧ s.failing s.calls = false ∧ s.failing (s.calls + 1) = false ∧
      s.failing (s.calls + 2) = true) ∨
    (s.opening = .opened ∧ s.failing s.calls = false ∧ s.failing (s.calls + 1) = false ∧
      s.failing (s.calls + 2) = false) := by
  rw [MemorySink.opening]
  cases s.failing s.calls <;> cases s.failing (s.calls + 1) <;>
    cases s.failing (s.calls + 2) <;> decide

theorem startHeader_marked (h : w.sink.failing w.sink.calls = false)
    (hmark : w.sink.failing (w.sink.calls + 1) = false) :
    startEntry Layout.headerName .header w = (.ok (), w.startedHeader) :=
  startEntry_marked _ _ h hmark

theorem headerStep (h : Header) (w : Writer MemorySink) :
    HeaderStep w h (w.headerOutcome h) (writeHeader h w).1 (writeHeader h w).2 := by
  rw [headerOutcome, writeHeader, Call.bind_of_ok (get_apply w)]
  cases hwritten : w.headerWritten with
  | true => exact .refused (.inl hwritten)
  | false =>
    cases hvalid : h.validate with
    | error e => exact .refused (.inr (by rw [hvalid]; exact fun h => by cases h))
    | ok _ =>
      have hfill := onSink_writeBytes (w := w.startedHeader)
        (w.provider.encoding.encodeHeader h) (List.cons_ne_nil _ w.sink.written)
      -- only the three calls are left
      show HeaderStep w h w.sink.opening
        ((startEntry Layout.headerName .header >>= fun _ =>
          onSink (Sink.writeBytes (w.provider.encoding.encodeHeader h)) >>= fun _ =>
          modify fun w => { w with headerWritten := true } : Call (Writer MemorySink) Unit) w).1
        ((startEntry Layout.headerName .header >>= fun _ =>
          onSink (Sink.writeBytes (w.provider.encoding.encodeHeader h)) >>= fun _ =>
          modify fun w => { w with headerWritten := true } : Call (Writer MemorySink) Unit) w).2
      rcases opening_cases w.sink with ⟨ho, h0⟩ | ⟨ho, h0, h1⟩ | ⟨ho, h0, h1, h2⟩ | ⟨ho, h0, h1, h2⟩
      · rw [ho, Call.bind_of_error (startEntry_unopened _ _ h0)]
        exact .unopened hwritten h0
      · rw [ho, Call.bind_of_error (startEntry_unmarked _ _ h0 h1)]
        exact .unmarked hwritten h1
      · have h2 : w.startedHeader.sink.failing w.startedHeader.sink.calls = true := h2
        rw [ho, Call.bind_of_ok (startHeader_marked h0 h1),
          Call.bind_of_error (hfill.trans (if_pos h2))]
        exact .unfilled hwritten h2
      · have h2 : w.startedHeader.sink.failing w.startedHeader.sink.calls = false := h2
        rw [ho, Call.bind_of_ok (startHeader_marked h0 h1),
          Call.bind_of_ok (hfill.trans (if_neg (ne_true_of_eq_false h2)))]
        exact .opened hwritten hvalid

theorem startChunk_marked (h : w.sink.failing w.sink.calls = false)
    (hmark : w.sink.failing (w.sink.calls + 1) = false) :
    startChunk w = (.ok (), w.startedChunk) := by
  rw [startChunk, Call.bind_of_ok (get_apply w),
    Call.bind_of_ok (startEntry_marked _ _ h hmark)]
  rfl

theorem put_newEntry (payload : Bytes) (w : Writer MemorySink) :
    put payload .newEntry w
      = (startChunk >>= fun _ => onSink (Sink.writeBytes payload) >>= fun _ =>
          modify fun w => { w with nodesWritten := w.nodesWritten + 1 } :
            Call (Writer MemorySink) Unit) w := rfl

theorem put_currentEntry (payload : Bytes) (w : Writer MemorySink) :
    put payload .currentEntry w
      = (onSink (Sink.writeBytes payload) >>= fun _ =>
          modify fun w => { w with nodesWritten := w.nodesWritten + 1 } :
            Call (Writer MemorySink) Unit) w := rfl

theorem nodeStep (n : Node) (w : Writer MemorySink)
    (hopen : w.headerWritten = true → w.sink.written ≠ []) :
    NodeStep w n (w.nodeOutcome n) (writeNode n w).1 (writeNode n w).2 := by
  rw [writeNode_apply, nodeOutcome]
  cases hadmission : w.admission n with
  | error e => exact .refused hadmission
  | ok found =>
    obtain ⟨payload, placement, budget⟩ := found
    obtain ⟨hadmits, rfl⟩ := admits_of_admission hadmission
    cases placement with
    | currentEntry =>
      have hadd := onSink_writeBytes (w := { w with budget })
        (Wire.delimited (w.provider.encoding.nodeBody n)) (hopen hadmits.headed)
      simp only [put_currentEntry]
      by_cases hfail : w.sink.failing w.sink.calls = true
      · rw [if_pos hfail, Call.bind_of_error (hadd.trans (if_pos hfail))]
        exact .dropped hadmits hfail
      · rw [if_neg hfail, Call.bind_of_ok (hadd.trans (if_neg hfail))]
        exact .added hadmits
    | newEntry =>
      simp only [put_newEntry]
      -- the last two outcomes have the entry opened and marked
      have hstart : w.sink.failing w.sink.calls = false →
          w.sink.failing (w.sink.calls + 1) = false →
            startChunk { w with budget } = (.ok (), { w.startedChunk with budget }) :=
        fun h0 h1 => startChunk_marked h0 h1
      have hfill := onSink_writeBytes (w := { w.startedChunk with budget })
        (Wire.delimited (w.provider.encoding.nodeBody n)) (List.cons_ne_nil _ _)
      rcases opening_cases w.sink with ⟨ho, h0⟩ | ⟨ho, h0, h1⟩ | ⟨ho, h0, h1, h2⟩ | ⟨ho, h0, h1, h2⟩
      · have hstart : startChunk { w with budget }
            = (.error w.sink.fault, { w with budget, sink := w.sink.skip }) := by
          rw [startChunk, Call.bind_of_ok (get_apply _)]
          exact Call.bind_of_error (startEntry_unopened _ _ h0)
        rw [ho, Call.bind_of_error hstart]
        exact .unopened hadmits h0
      · have hstart : startChunk { w with budget }
            = (.error (w.sink.begin (Layout.chunkName w.entryCount)).fault, { w with
                budget
                sink := (w.sink.begin (Layout.chunkName w.entryCount)).skip }) := by
          rw [startChunk, Call.bind_of_ok (get_apply _)]
          exact Call.bind_of_error (startEntry_unmarked _ _ h0 h1)
        rw [ho, Call.bind_of_error hstart]
        exact .unmarked hadmits h1
      · rw [ho, Call.bind_of_ok (hstart h0 h1), Call.bind_of_error (hfill.trans (if_pos h2))]
        exact .unfilled hadmits h2
      · rw [ho, Call.bind_of_ok (hstart h0 h1),
          Call.bind_of_ok (hfill.trans (if_neg (ne_true_of_eq_false h2)))]
        exact .opened hadmits

end

/-! ## 6. What no write changes -/

/-- A later state of the same writer. -/
structure Continues (w w' : Writer MemorySink) : Prop where
  provider : w'.provider = w.provider
  ceiling : w'.budget.ceiling = w.budget.ceiling
  failing : w'.sink.failing = w.sink.failing
  calls : w.sink.calls ≤ w'.sink.calls
  headerWritten : w.headerWritten = true → w'.headerWritten = true

theorem Continues.refl (w : Writer MemorySink) : w.Continues w :=
  ⟨rfl, rfl, rfl, Nat.le_refl _, id⟩

theorem Continues.trans {w₁ w₂ w₃ : Writer MemorySink} (h : w₁.Continues w₂)
    (h' : w₂.Continues w₃) : w₁.Continues w₃ :=
  ⟨h'.provider.trans h.provider, h'.ceiling.trans h.ceiling, h'.failing.trans h.failing,
    Nat.le_trans h.calls h'.calls, h'.headerWritten ∘ h.headerWritten⟩

section

variable {w w' : Writer MemorySink} {n : Node} {h : Header} {o : Outcome}
  {result : Except Error Unit}

theorem HeaderStep.continues (hstep : HeaderStep w h o result w') : w.Continues w' := by
  cases hstep with
  | refused => exact .refl w
  | unopened => exact ⟨rfl, rfl, rfl, Nat.le_add_right _ 1, id⟩
  | unmarked => exact ⟨rfl, rfl, rfl, Nat.le_add_right _ 2, id⟩
  | unfilled => exact ⟨rfl, rfl, rfl, Nat.le_add_right _ 3, id⟩
  | opened => exact ⟨rfl, rfl, rfl, Nat.le_add_right _ 3, fun _ => rfl⟩

theorem NodeStep.continues (hb : w.budget.Bounded) (hstep : NodeStep w n o result w') :
    w.Continues w' := by
  cases hstep with
  | refused => exact .refl w
  | unopened hadmits => exact ⟨rfl, (hb.of_place hadmits.placed).2, rfl, Nat.le_add_right _ 1, id⟩
  | unmarked hadmits => exact ⟨rfl, (hb.of_place hadmits.placed).2, rfl, Nat.le_add_right _ 2, id⟩
  | unfilled hadmits => exact ⟨rfl, (hb.of_place hadmits.placed).2, rfl, Nat.le_add_right _ 3, id⟩
  | opened hadmits => exact ⟨rfl, (hb.of_place hadmits.placed).2, rfl, Nat.le_add_right _ 3, id⟩
  | dropped hadmits => exact ⟨rfl, (hb.of_place hadmits.placed).2, rfl, Nat.le_add_right _ 1, id⟩
  | added hadmits => exact ⟨rfl, (hb.of_place hadmits.placed).2, rfl, Nat.le_add_right _ 1, id⟩

theorem NodeStep.admits (hstep : NodeStep w n o result w') (ho : o ≠ .refused) :
    ∃ placement budget, w.Admits n placement budget ∧
      (placement = .currentEntry ↔ o = .dropped ∨ o = .added) := by
  cases hstep with
  | refused => exact absurd rfl ho
  | unopened hadmits => exact ⟨_, _, hadmits, by decide⟩
  | unmarked hadmits => exact ⟨_, _, hadmits, by decide⟩
  | unfilled hadmits => exact ⟨_, _, hadmits, by decide⟩
  | opened hadmits => exact ⟨_, _, hadmits, by decide⟩
  | dropped hadmits => exact ⟨_, _, hadmits, by decide⟩
  | added hadmits => exact ⟨_, _, hadmits, by decide⟩

theorem HeaderStep.headerWritten (hstep : HeaderStep w h o result w') (ho : o ≠ .refused) :
    w.headerWritten = false := by
  cases hstep with
  | refused => exact absurd rfl ho
  | unopened hnew => exact hnew
  | unmarked hnew => exact hnew
  | unfilled hnew => exact hnew
  | opened hnew => exact hnew

theorem NodeStep.result_eq_ok_iff (hstep : NodeStep w n o result w') :
    result = .ok () ↔ o = .opened ∨ o = .added := by
  cases hstep <;> simp

theorem HeaderStep.result_eq_ok_iff (hstep : HeaderStep w h o result w') :
    result = .ok () ↔ o = .opened := by
  cases hstep <;> simp

end

/-! ## 7. Completion -/

theorem close_of_headed {w : Writer MemorySink} (hheaded : w.headerWritten = true)
    (hfinish : w.sink.failing w.sink.calls = false) : w.close = .ok w.sink.entries := by
  rw [close, if_pos hheaded]
  exact (MemorySink.finish_eq w.sink).trans (if_neg (ne_true_of_eq_false hfinish))

theorem close_eq_ok {w : Writer MemorySink} {entries : List Entry} (h : w.close = .ok entries) :
    w.headerWritten = true ∧ entries = w.sink.entries := by
  rw [close] at h
  by_cases hheaded : w.headerWritten = true
  · rw [if_pos hheaded, show (Sink.finish w.sink : Except Error (List Entry)) = _ from
      MemorySink.finish_eq w.sink] at h
    by_cases hfail : w.sink.failing w.sink.calls = true
    · rw [if_pos hfail] at h
      cases h
    · rw [if_neg hfail] at h
      cases h
      exact ⟨hheaded, rfl⟩
  · rw [if_neg hheaded] at h
    cases h

end Writer
end ScanArchive
