import ScanArchive.Proofs.Archive.Run

/-!
# Sinks that hold an archive

A transcript is sound when no node went into the header entry, every entry opened for nodes got
its prefix, and none is over-full; then the sink holds an archive.  A run keeps a transcript
sound exactly when none of its writes spoils it.
-/

namespace ScanArchive

namespace Encoding

variable {encoding : Encoding}

def charge (encoding : Encoding) (nodes : List Node) : Nat :=
  (nodes.map fun n => (encoding.nodeBody n).length + Layout.messageOverhead).sum

@[simp] theorem charge_nil : encoding.charge [] = 0 := rfl

@[simp] theorem charge_append (as bs : List Node) :
    encoding.charge (as ++ bs) = encoding.charge as + encoding.charge bs := by
  rw [charge, List.map_append, List.sum_append]
  rfl

@[simp] theorem charge_singleton (n : Node) :
    encoding.charge [n] = (encoding.nodeBody n).length + Layout.messageOverhead := by
  rw [charge, List.map_singleton, List.sum_singleton]

/-- The messages of a chunk tell what was charged for them. -/
theorem charge_eq_of_messages_eq {as bs : List Node}
    (h : encoding.messages as = encoding.messages bs) :
    encoding.charge as = encoding.charge bs := by
  induction as generalizing bs with
  | nil =>
    cases bs with
    | nil => rfl
    | cons b bs =>
      exact absurd (List.append_eq_nil_iff.1 h.symm).1 (Wire.delimited_ne_nil _)
  | cons a as ih =>
    cases bs with
    | nil => exact absurd (List.append_eq_nil_iff.1 h).1 (Wire.delimited_ne_nil _)
    | cons b bs =>
      rw [messages_cons, messages_cons] at h
      obtain ⟨hbody, hrest⟩ := Wire.delimited_append_inj h
      have hlength := congrArg List.length hbody
      rw [← List.singleton_append, charge_append, charge_singleton, ih hrest, hlength,
        ← charge_singleton, ← charge_append, List.singleton_append]

end Encoding

namespace Transcript

variable {p : Provider} {ceiling : Int} {t : Transcript}

/-! ## 1. Sound transcripts -/

/-- All nodes stand in marked entries, none of which holds more than it may. -/
structure Sound (p : Provider) (ceiling : Int) (t : Transcript) : Prop where
  strays : t.strays = []
  parts : ∀ part ∈ t.parts, part.marked = true ∧ (p.encoding.charge part.nodes : Int) < ceiling

theorem sound_start_iff {marked : Bool} {nodes : List Node} :
    (t.start marked nodes).Sound p ceiling ↔
      t.Sound p ceiling ∧ marked = true ∧ (p.encoding.charge nodes : Int) < ceiling := by
  constructor
  · intro h
    exact ⟨⟨h.strays, fun part hpart => h.parts part (List.mem_cons_of_mem _ hpart)⟩,
      h.parts ⟨marked, nodes⟩ List.mem_cons_self⟩
  · rintro ⟨h, hnew⟩
    refine ⟨h.strays, fun part hpart => ?_⟩
    rcases List.mem_cons.1 hpart with rfl | hpart
    · exact hnew
    · exact h.parts part hpart

theorem not_sound_add_of_nil {n : Node} (hparts : t.parts = []) :
    ¬ (t.add n).Sound p ceiling := by
  intro h
  have hstrays := h.strays
  unfold add at hstrays
  rw [hparts] at hstrays
  simp at hstrays

theorem sound_add_iff {n : Node} {part : Part} {earlier : List Part}
    (hparts : t.parts = part :: earlier) :
    (t.add n).Sound p ceiling ↔
      t.Sound p ceiling ∧ (p.encoding.charge (part.nodes ++ [n]) : Int) < ceiling := by
  have hadd : t.add n
      = { t with parts := { part with nodes := part.nodes ++ [n] } :: earlier } := by
    unfold add
    rw [hparts]
  rw [hadd]
  constructor
  · intro h
    obtain ⟨hmarked, hcharge⟩ := h.parts _ List.mem_cons_self
    refine ⟨⟨h.strays, fun q hq => ?_⟩, hcharge⟩
    rw [hparts] at hq
    rcases List.mem_cons.1 hq with rfl | hq
    · refine ⟨hmarked, ?_⟩
      -- an entry that is not over-full with the node was not without it
      have hle : p.encoding.charge q.nodes ≤ p.encoding.charge (q.nodes ++ [n]) := by
        rw [Encoding.charge_append]
        omega
      simp only at hcharge
      omega
    · exact h.parts q (List.mem_cons_of_mem _ hq)
  · rintro ⟨h, hcharge⟩
    refine ⟨h.strays, fun q hq => ?_⟩
    rcases List.mem_cons.1 hq with rfl | hq
    · exact ⟨(h.parts part (by rw [hparts]; exact List.mem_cons_self)).1, hcharge⟩
    · exact h.parts q (by rw [hparts]; exact List.mem_cons_of_mem _ hq)

/-! ## 2. Sound transcripts are those of archives -/

theorem partEntries_reverse {parts : List Part} (h : ∀ part ∈ parts, part.marked = true) :
    (partEntries p parts).reverse = (parts.map (·.nodes)).reverse.mapIdx p.chunkEntry := by
  induction parts with
  | nil => rfl
  | cons part earlier ih =>
    have hearlier : ∀ q ∈ earlier, q.marked = true := fun q hq => h q (List.mem_cons_of_mem _ hq)
    have hcount : countMarked earlier = earlier.length := List.countP_eq_length.2 hearlier
    have hentry : partEntry p (countMarked earlier) part
        = p.chunkEntry earlier.length part.nodes := by
      rw [partEntry, h part List.mem_cons_self, hcount]
      rfl
    rw [partEntries, List.reverse_cons, ih hearlier, List.map_cons, List.reverse_cons,
      List.mapIdx_append, hentry]
    simp

theorem Sound.entries_eq {h : Header} (hs : t.Sound p ceiling) (hheader : t.header = some h)
    (htorn : t.torn = []) : (t.entries p).reverse = p.archive h t.blocks := by
  rw [entries, List.reverse_append, partEntries_reverse fun part hpart => (hs.parts part hpart).1,
    headerEntries, hheader, htorn, hs.strays]
  simp [Provider.archive, Provider.headerEntry, blocks]

/-! ## 3. Only sound transcripts are those of archives -/

/-- No message of a valid node starts like a prefix. -/
theorem messages_ne_zero_cons {nodes : List Node} {rest : Bytes}
    (hnodes : Framing.Readable p.encoding nodes) : p.encoding.messages nodes ≠ 0 :: rest := by
  cases nodes with
  | nil => exact fun h => by cases h
  | cons n nodes =>
    obtain ⟨hn, -⟩ := hnodes n List.mem_cons_self
    have hpos : 0 < (p.encoding.nodeBody n).length :=
      List.length_pos_iff.2 (Encoding.nodeBody_ne_nil hn)
    obtain ⟨byte, spelled, hspelled, hbyte⟩ := Wire.Varint.encode_eq_cons_of_pos hpos
    rw [Encoding.messages_cons, Wire.delimited, hspelled]
    intro h
    exact hbyte (List.cons.inj h).1

theorem of_partEntry_eq {index index' : Nat} {part : Part} {block : List Node}
    (hreadable : Framing.Readable p.encoding part.nodes)
    (h : partEntry p index part = p.chunkEntry index' block) :
    part.marked = true ∧ p.encoding.charge part.nodes = p.encoding.charge block := by
  have hdata := congrArg Entry.data h
  simp only [partEntry, Provider.chunkEntry] at hdata
  cases hmarked : part.marked with
  | false =>
    -- without a prefix the entry would start like a message
    rw [hmarked] at hdata
    exact absurd hdata (messages_ne_zero_cons hreadable)
  | true =>
    rw [hmarked, if_pos rfl] at hdata
    exact ⟨rfl, Encoding.charge_eq_of_messages_eq (List.append_cancel_left hdata)⟩

theorem mem_partEntries {parts : List Part} {part : Part} (h : part ∈ parts) :
    ∃ index, partEntry p index part ∈ partEntries p parts := by
  induction parts with
  | nil => cases h
  | cons q earlier ih =>
    rcases List.mem_cons.1 h with rfl | h
    · exact ⟨_, List.mem_cons_self⟩
    · obtain ⟨index, hmem⟩ := ih h
      exact ⟨index, List.mem_cons_of_mem _ hmem⟩

theorem readable_part (hreadable : Framing.Readable p.encoding t.nodes) {part : Part}
    (hpart : part ∈ t.parts) : Framing.Readable p.encoding part.nodes := by
  intro n hn
  refine hreadable n (List.mem_append.2 (.inr (List.mem_flatten.2 ⟨part.nodes, ?_, hn⟩)))
  exact List.mem_reverse.2 (List.mem_map_of_mem hpart)

/-- A transcript of an archive without over-full chunks is sound. -/
theorem sound_of_entries_eq {h : Header} {blocks : List (List Node)}
    (hheader : t.header = some h) (htorn : t.torn = [])
    (hreadable : Framing.Readable p.encoding t.nodes)
    (hentries : (t.entries p).reverse = p.archive h blocks)
    (hcharges : ∀ block ∈ blocks, (p.encoding.charge block : Int) < ceiling) :
    t.Sound p ceiling := by
  rw [entries, headerEntries, hheader, htorn, List.reverse_append] at hentries
  obtain ⟨hfirst, hparts⟩ := List.cons.inj hentries
  constructor
  · -- the header entry ends with the header
    have hdata := congrArg Entry.data hfirst
    simp only [Provider.headerEntry] at hdata
    have hmessages := List.append_cancel_left hdata
    rw [List.append_right_eq_self] at hmessages
    cases hstrays : t.strays with
    | nil => rfl
    | cons n strays =>
      rw [hstrays] at hmessages
      exact absurd (List.append_eq_nil_iff.1 hmessages).1 (Wire.delimited_ne_nil _)
  · -- each part is the entry of some block
    intro part hpart
    obtain ⟨index, hmem⟩ := mem_partEntries (p := p) hpart
    have hmem : partEntry p index part ∈ blocks.mapIdx p.chunkEntry := by
      rw [← hparts]
      exact List.mem_reverse.2 hmem
    obtain ⟨i, hi, heq⟩ := List.mem_mapIdx.1 hmem
    obtain ⟨hmarked, hcharge⟩ := of_partEntry_eq (readable_part hreadable hpart) heq.symm
    exact ⟨hmarked, hcharge ▸ hcharges _ (List.getElem_mem hi)⟩

end Transcript

/-! ## 4. Writes that spoil a transcript -/

def Writer.HasRoom (w : Writer MemorySink) (n : Node) : Prop :=
  ∃ index block, w.sink.entries.getLast? = some (w.provider.chunkEntry index block) ∧
    (w.provider.encoding.charge (block ++ [n]) : Int) < w.budget.ceiling

/--
The write opens an entry that gets no prefix, or adds a node to an entry that is no chunk entry
or has no room for it.
-/
def Write.Spoils (w : Writer MemorySink) : Write → Prop
  | .header _ => False
  | .node n => w.nodeOutcome n = .unmarked ∨ (w.nodeOutcome n = .added ∧ ¬ w.HasRoom n)

namespace Describes

variable {t : Transcript} {w : Writer MemorySink} {n : Node}

theorem getLast?_entries (hd : Describes t w) {part : Part} {earlier : List Part}
    (hparts : t.parts = part :: earlier) :
    w.sink.entries.getLast?
      = some (Transcript.partEntry w.provider (Transcript.countMarked earlier) part) := by
  rw [MemorySink.entries_eq, List.getLast?_reverse, hd.contents, Transcript.entries, hparts]
  rfl

theorem hasRoom_iff (hd : Describes t w) {part : Part} {earlier : List Part}
    (hparts : t.parts = part :: earlier) (hmarked : part.marked = true) :
    w.HasRoom n ↔
      (w.provider.encoding.charge (part.nodes ++ [n]) : Int) < w.budget.ceiling := by
  constructor
  · rintro ⟨index, block, hlast, hcharge⟩
    rw [hd.getLast?_entries hparts, Option.some.injEq] at hlast
    have hpart : part ∈ t.parts := by rw [hparts]; exact List.mem_cons_self
    obtain ⟨-, heq⟩ :=
      Transcript.of_partEntry_eq (Transcript.readable_part hd.readable hpart) hlast
    rw [Encoding.charge_append, heq, ← Encoding.charge_append]
    exact hcharge
  · intro hcharge
    refine ⟨Transcript.countMarked earlier, part.nodes, ?_, hcharge⟩
    rw [hd.getLast?_entries hparts, Transcript.partEntry, hmarked]
    rfl

theorem not_hasRoom_of_nil (hd : Describes t w) (hparts : t.parts = [])
    (hheaded : w.headerWritten = true) : ¬ w.HasRoom n := by
  rintro ⟨index, block, hlast, -⟩
  obtain ⟨h, hheader⟩ := Option.isSome_iff_exists.1 (hd.header_isSome hheaded)
  rw [MemorySink.entries_eq, List.getLast?_reverse, hd.contents, Transcript.entries, hparts,
    Transcript.headerEntries, hheader] at hlast
  have hname := congrArg Entry.name (Option.some.inj hlast)
  exact Layout.chunkName_ne_headerName index hname.symm

theorem charge_lt_ceiling (hd : Describes t w)
    (ho : w.nodeOutcome n = .unfilled ∨ w.nodeOutcome n = .opened) :
    (w.provider.encoding.charge [n] : Int) < w.budget.ceiling := by
  have hstep := Writer.nodeStep n w hd.written_ne_nil
  obtain ⟨placement, budget, hadmits, hplacement⟩ :=
    hstep.admits (by rcases ho with ho | ho <;> rw [ho] <;> decide)
  rcases ChunkBudget.place_cases hd.budget hadmits.placed with ⟨hcurrent, -⟩ | ⟨-, -, hfits, -⟩
  · rcases hplacement.1 hcurrent with h | h <;> rw [h] at ho <;> simp at ho
  · rw [Encoding.charge_singleton]
    exact hfits

/-- A write keeps a transcript sound unless it spoils it. -/
theorem sound_record_iff (hd : Describes t w) (a : Write) :
    (t.record a (a.outcome w)).Sound w.provider w.budget.ceiling ↔
      t.Sound w.provider w.budget.ceiling ∧ ¬ a.Spoils w := by
  cases a with
  | header h =>
    rw [Write.outcome, Write.Spoils, not_false_eq_true, and_true]
    cases w.headerOutcome h with
    | unmarked => exact ⟨fun h => ⟨h.strays, h.parts⟩, fun h => ⟨h.strays, h.parts⟩⟩
    | unfilled => exact ⟨fun h => ⟨h.strays, h.parts⟩, fun h => ⟨h.strays, h.parts⟩⟩
    | opened => exact ⟨fun h => ⟨h.strays, h.parts⟩, fun h => ⟨h.strays, h.parts⟩⟩
    | _ => exact Iff.rfl
  | node n =>
    have hfits := hd.charge_lt_ceiling (n := n)
    have hstep := Writer.nodeStep n w hd.written_ne_nil
    rw [Write.outcome, Write.Spoils]
    cases ho : w.nodeOutcome n with
    | unmarked => simp [Transcript.record, Transcript.sound_start_iff]
    | unfilled =>
      -- an empty part is not over-full, since the node would have found room in it
      have hfits := hfits (.inl ho)
      have hpos : (0 : Int) < w.budget.ceiling := by omega
      simp [Transcript.record, Transcript.sound_start_iff, hpos]
    | opened =>
      rw [Transcript.record, Transcript.sound_start_iff]
      exact and_congr_right fun _ => iff_of_true ⟨rfl, hfits (.inr ho)⟩ (by simp)
    | added =>
      obtain ⟨_, _, hadmits, -⟩ := hstep.admits (by rw [ho]; decide)
      simp only [Transcript.record, reduceCtorEq, true_and, false_or, not_not]
      cases hparts : t.parts with
      | nil =>
        -- the node goes into the header entry
        have hno := hd.not_hasRoom_of_nil (n := n) hparts hadmits.headed
        exact iff_of_false (Transcript.not_sound_add_of_nil hparts) fun h => hno h.2
      | cons part earlier =>
        rw [Transcript.sound_add_iff hparts]
        refine and_congr_right fun hsound => (hd.hasRoom_iff hparts ?_).symm
        exact (hsound.parts part (by rw [hparts]; exact List.mem_cons_self)).1
    | refused => simp [Transcript.record]
    | unopened => simp [Transcript.record]
    | dropped => simp [Transcript.record]

theorem sound_replay_iff (hd : Describes t w) (writes : List Write) :
    (t.replay (w.trace writes)).Sound w.provider w.budget.ceiling ↔
      t.Sound w.provider w.budget.ceiling ∧ ∀ step ∈ w.trace writes, ¬ step.2.Spoils step.1 := by
  -- the first write decides over the transcript that the others start from
  induction writes generalizing t w with
  | nil => exact ⟨fun h => ⟨h, fun _ h => nomatch h⟩, And.left⟩
  | cons a rest ih =>
    have hc := hd.continues_perform a
    have hrest := ih (hd.perform a)
    rw [hc.provider, hc.ceiling, hd.sound_record_iff a, and_assoc] at hrest
    rw [Writer.trace, List.forall_mem_cons]
    exact hrest

end Describes

/-! ## 5. Sound sinks hold archives -/

namespace Describes

variable {t : Transcript} {w : Writer MemorySink}

theorem length_blocks (hd : Describes t w) (hs : t.Sound w.provider w.budget.ceiling) :
    t.blocks.length = w.entryCount := by
  have hcount : Transcript.countMarked t.parts = t.parts.length :=
    List.countP_eq_length.2 fun part hpart => (hs.parts part hpart).1
  rw [hd.entryCount, hcount, Transcript.blocks, List.length_reverse, List.length_map]

theorem flatten_blocks (hs : t.Sound w.provider w.budget.ceiling) : t.blocks.flatten = t.nodes := by
  rw [Transcript.nodes, hs.strays, List.nil_append]

theorem readable_block (hd : Describes t w) {block : List Node} (hblock : block ∈ t.blocks) :
    Framing.Readable w.provider.encoding block := by
  obtain ⟨part, hpart, rfl⟩ := List.mem_map.1 (List.mem_reverse.1 hblock)
  exact Transcript.readable_part hd.readable hpart

/-- A sound sink holds an archive. -/
theorem entries_eq_archive (hd : Describes t w) (hs : t.Sound w.provider w.budget.ceiling)
    (htorn : t.torn = []) {h : Header} (hheader : t.header = some h) :
    w.sink.entries = w.provider.archive h t.blocks := by
  rw [MemorySink.entries_eq, hd.contents, hs.entries_eq hheader htorn]

theorem entries_eq_nil (hd : Describes t w) (htorn : t.torn = []) (hheader : t.header = none) :
    w.sink.entries = [] := by
  obtain ⟨hstrays, hparts⟩ := hd.unheaded hheader
  rw [MemorySink.entries_eq, hd.contents, Transcript.entries, hparts,
    Transcript.headerEntries, hheader, htorn]
  rfl

theorem readAll_of_sound (hd : Describes t w) (hs : t.Sound w.provider w.budget.ceiling)
    (htorn : t.torn = []) {h : Header} (hheader : t.header = some h)
    (hp : Registry.builtin.provider w.provider.version = .ok w.provider)
    (hsize : (w.provider.encoding.encodeHeader h).length < UInt64.size)
    (hfinish : w.sink.failing w.sink.calls = false) :
    w.close = .ok (w.provider.archive h t.blocks) ∧
      Source.readAll (.ofEntries (w.provider.archive h t.blocks))
        = .ok { version := w.provider.version, header := h, chunks := t.blocks.map .ofList } := by
  constructor
  · have hheaded : w.headerWritten = true := by rw [hd.headed, hheader]; rfl
    rw [← hd.entries_eq_archive hs htorn hheader]
    exact Writer.close_of_headed hheaded hfinish
  · exact Source.readAll_archive hp (hd.valid h hheader) hsize fun _ => hd.readable_block

end Describes

end ScanArchive
