import ScanArchive.Proofs.Archive.Sound

/-!
# Headers on sinks that fail

A header entry that was opened stays in the sink when its header cannot be written, so that a
header that is tried again leaves a second one.  A node that is put into the header entry is
decoded as part of the header.  Unless one of these happens, the sink holds no more than one
header entry, and the header is found.
-/

namespace ScanArchive

/-! ## 1. Header entries -/

/-- Named like a header entry, or marked as one. -/
def Entry.isHeader (e : Entry) : Bool :=
  e.name = Layout.headerName || e.data.take 2 = Framing.encodeInt16 EntryType.header.code

namespace Transcript

variable {p : Provider} {t : Transcript} {part : Part}

theorem isHeader_partEntry (hreadable : Framing.Readable p.encoding part.nodes) (index : Nat) :
    (partEntry p index part).isHeader = false := by
  have hname : (partEntry p index part).name ≠ Layout.headerName :=
    Layout.chunkName_ne_headerName index
  have hmark : (partEntry p index part).data.take 2
      ≠ Framing.encodeInt16 EntryType.header.code := by
    rw [partEntry]
    by_cases hmarked : part.marked = true
    · -- the prefix of a chunk differs in its second byte
      rw [if_pos hmarked]
      exact fun h => absurd (List.cons.inj (List.cons.inj h).2).1 (by decide)
    · -- without a prefix a message comes first, which does not start with zero
      rw [if_neg hmarked, List.nil_append]
      intro h
      apply messages_ne_zero_cons hreadable
      rw [← List.take_append_drop 2 (p.encoding.messages part.nodes), h]
      rfl
  rw [Entry.isHeader, decide_eq_false hname, decide_eq_false hmark]
  rfl

theorem countP_isHeader_partEntries {parts : List Part}
    (hreadable : ∀ part ∈ parts, Framing.Readable p.encoding part.nodes) :
    (partEntries p parts).countP (·.isHeader) = 0 := by
  induction parts with
  | nil => rfl
  | cons part earlier ih =>
    have hpart := isHeader_partEntry (hreadable part List.mem_cons_self) (countMarked earlier)
    rw [partEntries, List.countP_cons_of_neg (by rw [hpart]; decide)]
    exact ih fun q hq => hreadable q (List.mem_cons_of_mem _ hq)

theorem countP_isHeader_entries (hreadable : Framing.Readable p.encoding t.nodes) :
    (t.entries p).countP (·.isHeader) = t.header.toList.length + t.torn.length := by
  have hparts := countP_isHeader_partEntries (p := p) fun _ hpart => readable_part hreadable hpart
  have hnamed : ∀ e ∈ headerEntries p t, e.isHeader = true := by
    intro e he
    have hname : e.name = Layout.headerName := by
      rcases List.mem_append.1 he with he | he
      · obtain ⟨h, -, rfl⟩ := Option.map_eq_some_iff.1 (Option.mem_toList.1 he)
        rfl
      · obtain ⟨marked, -, rfl⟩ := List.mem_map.1 he
        rfl
    rw [Entry.isHeader, decide_eq_true hname]
    rfl
  rw [entries, List.countP_append, hparts, Nat.zero_add, List.countP_eq_length.2 hnamed,
    headerEntries, List.length_append, List.length_map]
  cases t.header <;> rfl

end Transcript

/-! ## 2. Header entries that are opened -/

/-- The write opens a header entry, whether or not it comes to hold the header. -/
def Write.opensHeader (w : Writer MemorySink) : Write → Bool
  | .header h => w.headerOutcome h ∈ [Outcome.unmarked, .unfilled, .opened]
  | .node _ => false

def Writer.headersOpened (w : Writer MemorySink) (writes : List Write) : Nat :=
  (w.trace writes).countP fun step => step.2.opensHeader step.1

theorem Writer.headersOpened_append {w : Writer MemorySink} (as bs : List Write) :
    w.headersOpened (as ++ bs) = w.headersOpened as + (w.after as).headersOpened bs := by
  rw [headersOpened, trace_append, List.countP_append]
  rfl

namespace Describes

variable {t : Transcript} {w : Writer MemorySink} {h : Header}

theorem countP_isHeader (hd : Describes t w) :
    w.sink.entries.countP (·.isHeader) = t.header.toList.length + t.torn.length := by
  rw [MemorySink.entries_eq, List.countP_reverse, hd.contents,
    Transcript.countP_isHeader_entries hd.readable]

theorem countP_isHeader_perform (hd : Describes t w) (a : Write) :
    (a.perform w).2.sink.entries.countP (·.isHeader)
      = w.sink.entries.countP (·.isHeader) + if a.opensHeader w then 1 else 0 := by
  rw [(hd.perform a).countP_isHeader, hd.countP_isHeader]
  cases a with
  | header h =>
    have hstep := Writer.headerStep h w
    rw [Write.outcome, Write.opensHeader]
    cases ho : w.headerOutcome h with
    | opened =>
      -- before the header there are the headers begun in vain only
      have hnew : w.headerWritten = false := hstep.headerWritten (by rw [ho]; decide)
      rw [hd.eq_torn hnew, if_pos (by decide)]
      show 1 + t.torn.length = 0 + t.torn.length + 1
      omega
    | _ => rfl
  | node n =>
    rw [Write.outcome]
    cases w.nodeOutcome n with
    | added => rw [Transcript.record, Transcript.header_add, Transcript.torn_add]; rfl
    | _ => rfl

theorem countP_isHeader_after (hd : Describes t w) (writes : List Write) :
    (w.after writes).sink.entries.countP (·.isHeader)
      = w.sink.entries.countP (·.isHeader) + w.headersOpened writes := by
  induction writes generalizing t w with
  | nil => rfl
  | cons a rest ih =>
    have hrest := ih (hd.perform a)
    rw [hd.countP_isHeader_perform, Nat.add_assoc, Nat.add_comm (ite _ _ _)] at hrest
    rw [Writer.headersOpened, Writer.trace, List.countP_cons]
    exact hrest

end Describes

/-! ## 3. Nodes in header entries -/

/-- The node of a write that is put behind a header. -/
def Write.stray (w : Writer MemorySink) : Write → Option Node
  | .header _ => none
  | .node n =>
    if w.nodeOutcome n = .added ∧ w.sink.entries.getLast?.any (·.isHeader) then some n else none

def Writer.strays (w : Writer MemorySink) (writes : List Write) : List Node :=
  (w.trace writes).filterMap fun step => step.2.stray step.1

theorem Writer.strays_cons {w : Writer MemorySink} (a : Write) (rest : List Write) :
    w.strays (a :: rest) = (a.stray w).toList ++ (a.perform w).2.strays rest := by
  rw [strays, trace]
  cases hstray : a.stray w <;> simp [strays, hstray]

namespace Describes

variable {t : Transcript} {w : Writer MemorySink} {n : Node}

theorem getLast?_isHeader_iff (hd : Describes t w) (hheaded : w.headerWritten = true) :
    w.sink.entries.getLast?.any (·.isHeader) = true ↔ t.parts = [] := by
  cases hparts : t.parts with
  | nil =>
    obtain ⟨h, hheader⟩ := Option.isSome_iff_exists.1 (hd.header_isSome hheaded)
    rw [MemorySink.entries_eq, List.getLast?_reverse, hd.contents, Transcript.entries, hparts,
      Transcript.headerEntries, hheader]
    exact iff_of_true rfl rfl
  | cons part earlier =>
    have hpart : part ∈ t.parts := by rw [hparts]; exact List.mem_cons_self
    have hno := Transcript.isHeader_partEntry (Transcript.readable_part hd.readable hpart)
      (Transcript.countMarked earlier)
    rw [hd.getLast?_entries hparts, Option.any_some, hno]
    exact iff_of_false (by decide) (List.cons_ne_nil _ _)

theorem strays_record (hd : Describes t w) (a : Write) :
    (t.record a (a.outcome w)).strays = t.strays ++ (a.stray w).toList := by
  cases a with
  | header h =>
    rw [Write.outcome, Write.stray, Option.toList_none, List.append_nil]
    cases w.headerOutcome h <;> rfl
  | node n =>
    rw [Write.outcome, Write.stray]
    cases ho : w.nodeOutcome n with
    | added =>
      have hstep := Writer.nodeStep n w hd.written_ne_nil
      obtain ⟨_, _, hadmits, -⟩ := hstep.admits (by rw [ho]; decide)
      -- a stray is a node that is added where there is no part
      have hiff := hd.getLast?_isHeader_iff hadmits.headed
      rw [Transcript.record, Transcript.add]
      cases hparts : t.parts with
      | nil => rw [if_pos ⟨rfl, hiff.2 hparts⟩]; rfl
      | cons part earlier =>
        rw [if_neg fun h => List.cons_ne_nil part earlier (hparts ▸ hiff.1 h.2)]
        exact (List.append_nil _).symm
    | _ => exact (List.append_nil _).symm

theorem strays_replay (hd : Describes t w) (writes : List Write) :
    (t.replay (w.trace writes)).strays = t.strays ++ w.strays writes := by
  induction writes generalizing t w with
  | nil => exact (List.append_nil _).symm
  | cons a rest ih =>
    have hrest := ih (hd.perform a)
    rw [hd.strays_record, List.append_assoc] at hrest
    rw [Writer.strays_cons]
    exact hrest

end Describes

/-! ## 4. The header that is found -/

/-- The header is found if it is what is decoded of it and of the nodes put behind it. -/
theorem Describes.findHeader_eq_ok_iff {t : Transcript} {w : Writer MemorySink} {h : Header}
    (hd : Describes t w) (hp : Registry.builtin.provider w.provider.version = .ok w.provider)
    (htorn : t.torn = []) (hheader : t.header = some h) :
    (Source.findHeader (.ofEntries w.sink.entries)).1 = .ok ⟨w.provider.version, h⟩ ↔
      w.provider.encoding.decodeHeader
        (w.provider.encoding.encodeHeader h ++ w.provider.encoding.messages t.strays) = .ok h := by
  have hfound := Entry.markedHeader?_of_gives (Framing.gives_readHeaderBody hp
    (w.provider.encoding.encodeHeader h ++ w.provider.encoding.messages t.strays)) Layout.headerName
  rw [MemorySink.entries_eq, hd.contents, Transcript.entries, Transcript.headerEntries, hheader,
    htorn, List.reverse_append]
  show (Source.findHeader (.ok _ :: _)).1 = _ ↔ _
  simp only [Source.findHeader, hfound]
  cases hdecode : w.provider.encoding.decodeHeader _ with
  | error e => exact iff_of_false (fun h => by cases h) (fun h => by cases h)
  | ok h' =>
    show Except.map _ (Except.map _ _) = _ ↔ _
    constructor
    · intro heq
      cases hvalid : h'.validate with
      | error e => rw [hvalid] at heq; cases heq
      | ok _ => rw [hvalid] at heq; cases heq; rfl
    · rintro ⟨⟩
      rw [hd.valid h hheader]
      rfl

/-! ## 5. One header -/

namespace Writer.New

variable {config : WriterConfig} {s : MemorySink} {w : Writer MemorySink}

theorem countP_isHeader_run (h : w.New config s) (hempty : s.written = [])
    (requests : List Request) :
    (Request.run w requests).sink.entries.countP (·.isHeader)
      = w.headersOpened (Request.runWrites w requests) := by
  have hd := h.describes hempty
  have hafter := hd.countP_isHeader_after (Request.runWrites w requests)
  rw [Request.after_runWrites, hd.countP_isHeader] at hafter
  exact hafter.trans (Nat.zero_add _)

theorem forall_countP_isHeader_le_one_iff (h : w.New config s) (hempty : s.written = [])
    (requests : List Request) :
    (∀ before, before <+: requests →
      (Request.run w before).sink.entries.countP (·.isHeader) ≤ 1) ↔
        w.headersOpened (Request.runWrites w requests) ≤ 1 := by
  constructor
  · intro hle
    rw [← h.countP_isHeader_run hempty]
    exact hle requests (List.prefix_refl _)
  · -- header entries stay, so that there were no more of them before
    rintro hle before ⟨rest, rfl⟩
    rw [Request.runWrites_append, Writer.headersOpened_append] at hle
    rw [h.countP_isHeader_run hempty]
    omega

end Writer.New

def Request.retries : List Request := [.header { id := "abc" }, .header { id := "abc" }]

/--
Whatever calls of the sink fail: it never holds two header entries, and once it is completed the
header that was accepted is found, if and only if no more than one header entry was opened and
the header is decoded from what it is followed by, as it is if no node was put behind it.
-/
theorem one_header_iff {config : WriterConfig} {failing : Nat → Bool} {w : Writer MemorySink}
    (hopen : Writer.ofSink ({ failing } : MemorySink) config = .ok w) {requests : List Request}
    (hsize : ∀ h ∈ Request.acceptedHeaders w requests,
      (w.provider.encoding.encodeHeader h).length < UInt64.size) :
    ((∀ before, before <+: requests →
        (Request.run w before).sink.entries.countP (·.isHeader) ≤ 1) ∧
      ∀ entries, (Request.run w requests).close = .ok entries →
        ∃ h, Request.acceptedHeaders w requests = [h] ∧
          (Source.findHeader (.ofEntries entries)).1 = .ok ⟨config.version, h⟩) ↔
    w.headersOpened (Request.runWrites w requests) ≤ 1 ∧
      ∀ entries, (Request.run w requests).close = .ok entries →
        w.strays (Request.runWrites w requests) = [] ∨
          ∀ h ∈ Request.acceptedHeaders w requests,
            w.provider.encoding.decodeHeader (w.provider.encoding.encodeHeader h
              ++ w.provider.encoding.messages (w.strays (Request.runWrites w requests)))
              = .ok h := by
  have hnew := Writer.New.of_ofSink hopen
  have hd₀ := hnew.describes rfl
  have hcount := hnew.countP_isHeader_run rfl requests
  rw [hnew.forall_countP_isHeader_le_one_iff rfl requests]
  refine and_congr_right fun hle => forall_congr' fun entries => imp_congr_right fun hclose => ?_
  have hd := hd₀.replay (Request.runWrites w requests)
  have hc := hd₀.continues_after (Request.runWrites w requests)
  have hheaders : _ = Request.acceptedHeaders w requests :=
    hd₀.header_replay (Request.runWrites w requests)
  have hstrays := hd₀.strays_replay (Request.runWrites w requests)
  rw [List.nil_append] at hstrays
  rw [Request.after_runWrites] at hd hc
  generalize Transcript.replay {} (w.trace (Request.runWrites w requests)) = t at *
  obtain ⟨hheaded, rfl⟩ := Writer.close_eq_ok hclose
  obtain ⟨h, hheader⟩ := Option.isSome_iff_exists.1 (hd.header_isSome hheaded)
  -- the one header entry that was opened is that of the header
  have htorn : t.torn = [] := by
    have htotal := hd.countP_isHeader
    rw [hcount, hheader] at htotal
    change _ = 1 + _ at htotal
    exact List.length_eq_zero_iff.1 (by omega)
  have haccepted : Request.acceptedHeaders w requests = [h] := by
    rw [← hheaders, hheader]
    rfl
  have hfound := hd.findHeader_eq_ok_iff (hc.provider ▸ hnew.registered) htorn hheader
  rw [hc.provider, hnew.version, hstrays] at hfound
  rw [haccepted] at hsize ⊢
  constructor
  · rintro ⟨h', hh', hread⟩
    obtain rfl := (List.cons.inj hh').1
    exact .inr fun h' hmem => List.mem_singleton.1 hmem ▸ hfound.1 hread
  · intro hdecoded
    refine ⟨h, rfl, hfound.2 ?_⟩
    rcases hdecoded with hnone | hdecoded
    · rw [hnone, Encoding.messages_nil, List.append_nil]
      exact Encoding.decodeHeader_encodeHeader (hsize h List.mem_cons_self)
    · exact hdecoded h List.mem_cons_self

/-- A header entry that could not even be opened leaves no trace. -/
theorem one_header_after_unopened_entry :
    (∀ before, before <+: Request.retries →
      (Request.run (Writer.fresh (· == 0)) before).sink.entries.countP (·.isHeader) ≤ 1) ∧
    ∃ entries, (Request.run (Writer.fresh (· == 0)) Request.retries).close = .ok entries ∧
      (Source.findHeader (.ofEntries entries)).1 = .ok ⟨Layout.version2, { id := "abc" }⟩ := by
  have hrun : Request.acceptedHeaders (Writer.fresh (· == 0)) Request.retries = [{ id := "abc" }] ∧
      (Request.run (Writer.fresh (· == 0)) Request.retries).headerWritten = true ∧
      (Request.run (Writer.fresh (· == 0)) Request.retries).sink.failing
        (Request.run (Writer.fresh (· == 0)) Request.retries).sink.calls = false := by cbv
  have hwrites : (Writer.fresh (· == 0)).headersOpened
        (Request.runWrites (Writer.fresh (· == 0)) Request.retries) = 1 ∧
      (Writer.fresh (· == 0)).strays
        (Request.runWrites (Writer.fresh (· == 0)) Request.retries) = [] := by cbv
  have hsize : (Encoding.enveloped.encodeHeader { id := "abc" }).length < UInt64.size := by cbv
  obtain ⟨haccepted, hheaded, hfinish⟩ := hrun
  have hclose := Writer.close_of_headed hheaded hfinish
  obtain ⟨hone, hfound⟩ := (one_header_iff (Writer.ofSink_fresh (· == 0)) (by
    rw [haccepted]
    exact fun h hmem => List.mem_singleton.1 hmem ▸ hsize)).2
      ⟨Nat.le_of_eq hwrites.1, fun _ _ => .inl hwrites.2⟩
  refine ⟨hone, _, hclose, ?_⟩
  obtain ⟨h, hh, hread⟩ := hfound _ hclose
  rw [haccepted] at hh
  rw [hread, ← (List.cons.inj hh).1]
  rfl

/-- A header entry that got its prefix only is found instead of the header. -/
theorem two_headers_after_unfilled_entry :
    ∃ entries,
      Writer.ofSink ({ failing := (· == 2) } : MemorySink) {} = .ok (Writer.fresh (· == 2)) ∧
      Request.acceptedHeaders (Writer.fresh (· == 2)) Request.retries = [{ id := "abc" }] ∧
      (Request.run (Writer.fresh (· == 2)) Request.retries).close = .ok entries ∧
      entries.countP (·.isHeader) = 2 ∧
      (Source.findHeader (.ofEntries entries)).1.toBool = false := by
  have hrun : Request.acceptedHeaders (Writer.fresh (· == 2)) Request.retries = [{ id := "abc" }] ∧
      (Request.run (Writer.fresh (· == 2)) Request.retries).headerWritten = true ∧
      (Request.run (Writer.fresh (· == 2)) Request.retries).sink.failing
        (Request.run (Writer.fresh (· == 2)) Request.retries).sink.calls = false ∧
      (Request.run (Writer.fresh (· == 2)) Request.retries).sink.entries.countP (·.isHeader) = 2 ∧
      (Source.findHeader (.ofEntries
        (Request.run (Writer.fresh (· == 2)) Request.retries).sink.entries)).1.toBool = false := by
    cbv
  obtain ⟨haccepted, hheaded, hfinish, hcount, hfound⟩ := hrun
  exact ⟨_, Writer.ofSink_fresh (· == 2), haccepted, Writer.close_of_headed hheaded hfinish,
    hcount, hfound⟩

end ScanArchive
