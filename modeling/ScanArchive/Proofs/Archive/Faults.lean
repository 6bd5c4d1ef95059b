import ScanArchive.Proofs.Archive.Sound

/-!
# Nodes on sinks that fail

When sink calls fail, accepted nodes are read back exactly as long as no write spoils the sink:
no chunk entry is opened without getting its prefix, and no node is added to an entry that was
not opened for it and has no room.  The budget is charged before the entry is opened, so that a
failed attempt to open an entry can have the next node added to the one before.
-/

namespace ScanArchive

/-! ## 1. From the header on -/

theorem Transcript.torn_record {w : Writer MemorySink} (t : Transcript)
    (hheaded : w.headerWritten = true) (a : Write) : (t.record a (a.outcome w)).torn = t.torn := by
  cases a with
  | header h =>
    have hrefused : w.headerOutcome h = .refused := by rw [Writer.headerOutcome, if_pos hheaded]
    rw [Write.outcome, hrefused]
    rfl
  | node n =>
    rw [Write.outcome]
    cases w.nodeOutcome n with
    | added => exact torn_add
    | _ => rfl

namespace Describes

variable {t : Transcript} {w : Writer MemorySink}

theorem torn_replay (hd : Describes t w) (hheaded : w.headerWritten = true)
    (writes : List Write) : (t.replay (w.trace writes)).torn = t.torn := by
  induction writes generalizing t w with
  | nil => rfl
  | cons a rest ih =>
    have hrest := ih (hd.perform a) ((hd.continues_perform a).headerWritten hheaded)
    rw [t.torn_record hheaded a] at hrest
    exact hrest

theorem header_of_quiet (hd : Describes t w) {h : Header} {w' : Writer MemorySink}
    (hheader : Writer.writeHeader h w = (.ok (), w'))
    (hquiet : ∀ call < w'.sink.calls, w'.sink.failing call = false) :
    Describes { header := some h } w' := by
  have hstep := Writer.headerStep h w
  have hopened := hstep.result_eq_ok_iff.1 (congrArg Prod.fst hheader)
  have hnew := hstep.headerWritten (by rw [hopened]; decide)
  have hd' := hd.perform (.header h)
  rw [Write.outcome, hopened, hd.eq_torn hnew,
    show ((Write.header h).perform w).2 = w' from congrArg Prod.snd hheader] at hd'
  have htorn : t.torn = [] := hd'.untorn hquiet
  rw [htorn] at hd'
  exact hd'

/-- From the header on, the sink holds an archive of the accepted nodes unless it is spoiled. -/
theorem archive_iff_not_spoils {h : Header} (hd : Describes { header := some h } w)
    (hp : Registry.builtin.provider w.provider.version = .ok w.provider)
    (hsize : (w.provider.encoding.encodeHeader h).length < UInt64.size) (requests : List Request)
    (hfinish : w.sink.failing (Request.run w requests).sink.calls = false) :
    (∃ entries contents blocks,
      (Request.run w requests).close = .ok entries ∧
      Source.readAll (.ofEntries entries) = .ok contents ∧
      contents.version = w.provider.version ∧
      contents.header = h ∧
      contents.nodes.toList.Perm (Request.accepted w requests).dedup ∧
      entries = w.provider.archive h blocks ∧
      blocks.flatten = Request.accepted w requests ∧
      ∀ block ∈ blocks, (w.provider.encoding.charge block : Int) < w.budget.ceiling) ↔
    ∀ step ∈ w.trace (Request.runWrites w requests), ¬ step.2.Spoils step.1 := by
  have hsoundIff := hd.sound_replay_iff (Request.runWrites w requests)
  have hstart : Transcript.Sound w.provider w.budget.ceiling { header := some h } :=
    ⟨rfl, fun _ hpart => nomatch hpart⟩
  -- both sides say that the transcript at the end is sound
  rw [and_iff_right hstart] at hsoundIff
  rw [← hsoundIff]
  have hd' := hd.replay (Request.runWrites w requests)
  have hc := hd.continues_after (Request.runWrites w requests)
  have hheader := hd.header_replay_of_some rfl (Request.runWrites w requests)
  have htorn := hd.torn_replay hd.headed (Request.runWrites w requests)
  have hnodes : _ = Request.accepted w requests := hd.nodes_replay (Request.runWrites w requests)
  rw [Request.after_runWrites] at hd' hc
  generalize Transcript.replay { header := some h } _ = t' at *
  rw [← hnodes, ← hc.provider, ← hc.ceiling]
  rw [← hc.provider] at hp hsize
  rw [← hc.failing] at hfinish
  constructor
  · rintro ⟨entries, contents, blocks, hclose, -, -, -, -, hentries, -, hcharges⟩
    obtain ⟨-, rfl⟩ := Writer.close_eq_ok hclose
    rw [MemorySink.entries_eq, hd'.contents] at hentries
    exact Transcript.sound_of_entries_eq hheader htorn hd'.readable hentries hcharges
  · intro hs
    obtain ⟨hclose, hread⟩ := hd'.readAll_of_sound hs htorn hheader hp hsize hfinish
    refine ⟨_, _, t'.blocks, hclose, hread, rfl, rfl, ?_, rfl, flatten_blocks hs, ?_⟩
    · rw [← flatten_blocks hs]
      exact Chunk.merge_ofList_perm t'.blocks
    · intro block hblock
      obtain ⟨part, hpart, rfl⟩ := List.mem_map.1 (List.mem_reverse.1 hblock)
      exact (hs.parts part hpart).2

end Describes

/-! ## 2. Accepted nodes -/

def Writer.headedFailingAt (call : Nat) : Writer MemorySink :=
  (writeHeader { id := "abc" } (fresh (· == call))).2

def Request.remarks : List Request := [.node (.remark "a"), .node (.remark "b")]

/--
After a header without a failing call, whatever calls fail later: the archive closes and is read
back as the header and the accepted nodes, each entry of nodes being a chunk entry that is not
over-full, if and only if no write spoils the sink.
-/
theorem accepted_nodes_survive_iff {config : WriterConfig} {failing : Nat → Bool}
    {w₀ w₁ : Writer MemorySink} {before after : List Request} {h : Header}
    (hopen : Writer.ofSink ({ failing } : MemorySink) config = .ok w₀)
    (hheader : Writer.writeHeader h (Request.run w₀ before) = (.ok (), w₁))
    (hquiet : ∀ call < w₁.sink.calls, failing call = false)
    (hsize : (w₁.provider.encoding.encodeHeader h).length < UInt64.size)
    (hfinish : failing (Request.run w₁ after).sink.calls = false) :
    (∃ entries contents blocks,
      (Request.run w₁ after).close = .ok entries ∧
      Source.readAll (.ofEntries entries) = .ok contents ∧
      contents.version = config.version ∧
      contents.header = h ∧
      contents.nodes.toList.Perm (Request.accepted w₁ after).dedup ∧
      entries = w₁.provider.archive h blocks ∧
      blocks.flatten = Request.accepted w₁ after ∧
      ∀ block ∈ blocks, (w₁.provider.encoding.charge block : Int) < config.maxChunkSize) ↔
    ∀ step ∈ w₁.trace (Request.runWrites w₁ after), ¬ step.2.Spoils step.1 := by
  have hnew := Writer.New.of_ofSink hopen
  have hd₀ := (hnew.describes rfl).replay (Request.runWrites w₀ before)
  have hc₀ := (hnew.describes rfl).continues_after (Request.runWrites w₀ before)
  rw [Request.after_runWrites] at hd₀ hc₀
  -- the provider and the ceiling are those of the configuration
  have hc : w₀.Continues w₁ := by
    have hc₁ := hd₀.continues_perform (.header h)
    rw [show ((Write.header h).perform _).2 = w₁ from congrArg Prod.snd hheader] at hc₁
    exact hc₀.trans hc₁
  have hfailing : w₁.sink.failing = failing := by
    rw [hc.failing, hnew.eq]
  have hd₁ := hd₀.header_of_quiet hheader (hfailing ▸ hquiet)
  have hiff := hd₁.archive_iff_not_spoils (hc.provider ▸ hnew.registered) hsize after
    (by rw [hfailing]; exact hfinish)
  rw [hc.ceiling, hnew.ceiling, hc.provider, hnew.version, ← hc.provider] at hiff
  exact hiff

/-- An entry that was opened for a node whose write failed takes the next node. -/
theorem node_survives_unfilled_entry :
    ∃ w₁ entries contents,
      Writer.writeHeader { id := "abc" } (Writer.fresh (· == 5)) = (.ok (), w₁) ∧
      Request.accepted w₁ Request.remarks = [.remark "b"] ∧
      (Request.run w₁ Request.remarks).close = .ok entries ∧
      Source.readAll (.ofEntries entries) = .ok contents ∧
      contents.nodes.toList.Perm [.remark "b"] := by
  have hheader : (Writer.writeHeader { id := "abc" } (Writer.fresh (· == 5))).1 = .ok () ∧
      (Writer.headedFailingAt 5).sink.calls = 3 ∧
      (Encoding.enveloped.encodeHeader { id := "abc" }).length < UInt64.size := by cbv
  have hrun : Request.accepted (Writer.headedFailingAt 5) Request.remarks = [.remark "b"] ∧
      (Request.run (Writer.headedFailingAt 5) Request.remarks).sink.calls = 7 := by cbv
  have hfirst : (Writer.headedFailingAt 5).nodeOutcome (.remark "a") = .unfilled ∧
      (Writer.writeNode (.remark "a") (Writer.headedFailingAt 5)).2.sink.entries.getLast?
        = some ((⟨2, .enveloped⟩ : Provider).chunkEntry 0 []) ∧
      (Writer.writeNode (.remark "a") (Writer.headedFailingAt 5)).2.provider = ⟨2, .enveloped⟩ ∧
      (Writer.writeNode (.remark "a") (Writer.headedFailingAt 5)).2.budget.ceiling.toNat
        = 16777216 ∧
      Encoding.enveloped.charge [.remark "b"] < 16777216 ∧
      (Writer.writeNode (.remark "a") (Writer.headedFailingAt 5)).2.nodeOutcome (.remark "b")
        = .added := by cbv
  have hwritten : Writer.writeHeader { id := "abc" } (Request.run (Writer.fresh (· == 5)) [])
      = (.ok (), Writer.headedFailingAt 5) := Prod.ext hheader.1 rfl
  have hquiet : ∀ call < (Writer.headedFailingAt 5).sink.calls, (call == 5) = false := by
    rw [hheader.2.1]
    decide
  have hkept : ∀ step ∈ (Writer.headedFailingAt 5).trace
      (Request.runWrites (Writer.headedFailingAt 5) Request.remarks), ¬ step.2.Spoils step.1 := by
    obtain ⟨hunfilled, hlast, hprovider, hceiling, hcharge, hadded⟩ := hfirst
    have hroom :
        (Writer.writeNode (.remark "a") (Writer.headedFailingAt 5)).2.HasRoom (.remark "b") := by
      refine ⟨0, [], hprovider ▸ hlast, ?_⟩
      rw [hprovider, List.nil_append]
      show (Encoding.enveloped.charge [.remark "b"] : Int) < _
      omega
    intro step hstep
    rcases List.mem_cons.1 hstep with rfl | hstep
    · simp [Write.Spoils, hunfilled]
    · rw [List.mem_singleton.1 hstep]
      rintro (hunmarked | ⟨-, hno⟩)
      · cases hadded.symm.trans hunmarked
      · exact hno hroom
  obtain ⟨entries, contents, -, hclose, hread, -, -, hnodes, -⟩ :=
    (accepted_nodes_survive_iff (Writer.ofSink_fresh (· == 5))
      hwritten hquiet hheader.2.2 (by rw [hrun.2]; decide)).2 hkept
  rw [hrun.1] at hnodes
  exact ⟨_, entries, contents, hwritten, hrun.1, hclose, hread, hnodes⟩

/-- An entry that could not be opened for one node leaves room on account for the next. -/
theorem node_lost_after_unopened_entry :
    ∃ w₁ entries,
      Writer.ofSink ({ failing := (· == 3) } : MemorySink) {} = .ok (Writer.fresh (· == 3)) ∧
      Writer.writeHeader { id := "abc" } (Writer.fresh (· == 3)) = (.ok (), w₁) ∧
      (∀ call < w₁.sink.calls, w₁.sink.failing call = false) ∧
      Request.accepted w₁ Request.remarks = [.remark "b"] ∧
      (Request.run w₁ Request.remarks).close = .ok entries ∧
      ∀ contents, Source.readAll (.ofEntries entries) = .ok contents →
        contents.nodes.toList = [] := by
  have hheader : (Writer.writeHeader { id := "abc" } (Writer.fresh (· == 3))).1 = .ok () ∧
      (Writer.headedFailingAt 3).sink.calls = 3 := by cbv
  have hrun : Request.accepted (Writer.headedFailingAt 3) Request.remarks = [.remark "b"] ∧
      (Request.run (Writer.headedFailingAt 3) Request.remarks).headerWritten = true ∧
      (Request.run (Writer.headedFailingAt 3) Request.remarks).sink.failing
        (Request.run (Writer.headedFailingAt 3) Request.remarks).sink.calls = false ∧
      (Request.run (Writer.headedFailingAt 3) Request.remarks).sink.entries.length = 1 := by cbv
  obtain ⟨haccepted, hheaded, hfinish, hlength⟩ := hrun
  refine ⟨Writer.headedFailingAt 3,
    (Request.run (Writer.headedFailingAt 3) Request.remarks).sink.entries,
    Writer.ofSink_fresh (· == 3), Prod.ext hheader.1 rfl, ?_, haccepted,
    Writer.close_of_headed hheaded hfinish, ?_⟩
  · show ∀ call < (Writer.headedFailingAt 3).sink.calls, (call == 3) = false
    rw [hheader.2]
    decide
  · -- the only entry is the header
    intro contents hread
    have hchunks := Source.length_chunks_of_readAll hread
    rw [hlength, Nat.add_eq_right, List.length_eq_zero_iff] at hchunks
    rw [Contents.nodes, hchunks]
    rfl

end ScanArchive
