import ScanArchive.Proofs.Archive.Sound

/-!
# Sinks that never fail

Over a sink that never fails the budget of a writer is exact: it is what the last chunk entry
has left, and nothing before the first one.  So every reachable sink is empty or holds an
archive whose blocks are the accepted nodes, and what is written is read back.
-/

namespace ScanArchive

open Transcript

/-- The budget says what the last chunk entry has left, and no entry is in vain. -/
structure Tidy (t : Transcript) (w : Writer MemorySink) : Prop where
  torn : t.torn = []
  sound : t.Sound w.provider w.budget.ceiling
  filled : ∀ part ∈ t.parts, part.nodes ≠ []
  /-- nothing is left where no chunk entry is open -/
  remaining : w.budget.remaining = match t.parts with
    | [] => 0
    | part :: _ => w.budget.ceiling - w.provider.encoding.charge part.nodes

namespace Tidy

variable {t : Transcript} {w w' : Writer MemorySink} {n : Node} {h : Header} {o : Outcome}
  {result : Except Error Unit}

theorem opening_eq (hf : ∀ call, w.sink.failing call = false) : w.sink.opening = .opened := by
  rw [MemorySink.opening, if_neg (ne_true_of_eq_false (hf _)),
    if_neg (ne_true_of_eq_false (hf _)), if_neg (ne_true_of_eq_false (hf _))]

theorem hasRoom (ht : Tidy t w) (hd : Describes t w) {budget : ChunkBudget}
    (hadmits : w.Admits n .currentEntry budget) : w.HasRoom n := by
  rcases ChunkBudget.place_cases hd.budget hadmits.placed with ⟨-, hroom, -⟩ | ⟨hnew, -⟩
  · -- what is left of the budget is what the last part leaves of it
    have hremaining := ht.remaining
    cases hparts : t.parts with
    | nil =>
      rw [hparts] at hremaining
      simp only at hremaining
      omega
    | cons part earlier =>
      have hmarked := (ht.sound.parts part (by rw [hparts]; exact List.mem_cons_self)).1
      rw [hparts] at hremaining
      simp only at hremaining
      rw [hd.hasRoom_iff hparts hmarked, Encoding.charge_append, Encoding.charge_singleton]
      push_cast
      omega
  · cases hnew

theorem not_spoils (ht : Tidy t w) (hd : Describes t w)
    (hf : ∀ call, w.sink.failing call = false) : ∀ a : Write, ¬ a.Spoils w
  | .header _ => id
  | .node n => by
    have hstep := Writer.nodeStep n w hd.written_ne_nil
    rintro (hunmarked | ⟨hadded, hno⟩)
    · rw [hunmarked] at hstep
      generalize (Writer.writeNode n w).1 = result, (Writer.writeNode n w).2 = w' at hstep
      cases hstep with
      | unmarked _ hfail =>
        rw [hf] at hfail
        cases hfail
    · rw [hadded] at hstep
      generalize (Writer.writeNode n w).1 = result, (Writer.writeNode n w).2 = w' at hstep
      cases hstep with
      | added hadmits => exact hno (ht.hasRoom hd hadmits)

theorem nodeStep (ht : Tidy t w) (hd : Describes t w) (hf : ∀ call, w.sink.failing call = false)
    (hstep : w.NodeStep n o result w')
    (hsound : (t.record (.node n) o).Sound w'.provider w'.budget.ceiling) :
    Tidy (t.record (.node n) o) w' := by
  cases hstep with
  | refused => exact ht
  | unopened _ hfail => rw [hf] at hfail; cases hfail
  | unmarked _ hfail => rw [hf] at hfail; cases hfail
  | unfilled _ hfail => rw [hf] at hfail; cases hfail
  | dropped _ hfail => rw [hf] at hfail; cases hfail
  | opened hadmits =>
    rcases ChunkBudget.place_cases hd.budget hadmits.placed with ⟨hcurrent, -⟩ | ⟨-, -, -, rfl⟩
    · cases hcurrent
    · refine ⟨ht.torn, hsound, fun part hpart => ?_, ?_⟩
      · rcases List.mem_cons.1 hpart with rfl | hpart
        · exact List.cons_ne_nil _ _
        · exact ht.filled part hpart
      · show _ = w.budget.ceiling - (w.provider.encoding.charge [n] : Int)
        rw [Encoding.charge_singleton]
        rfl
  | added hadmits =>
    rcases ChunkBudget.place_cases hd.budget hadmits.placed with ⟨-, hroom, rfl⟩ | ⟨hnew, -⟩
    · have hremaining := ht.remaining
      rw [record] at hsound ⊢
      -- there is a part, or else the node would be a stray
      cases hparts : t.parts with
      | nil => exact absurd hsound (not_sound_add_of_nil hparts)
      | cons part earlier =>
        rw [hparts] at hremaining
        have hadd : (t.add n).parts = { part with nodes := part.nodes ++ [n] } :: earlier := by
          unfold add
          rw [hparts]
        refine ⟨torn_add.trans ht.torn, hsound, fun q hq => ?_, ?_⟩
        · rw [hadd] at hq
          rcases List.mem_cons.1 hq with rfl | hq
          · exact List.concat_ne_nil _ _
          · exact ht.filled q (by rw [hparts]; exact List.mem_cons_of_mem _ hq)
        · rw [hadd]
          show w.budget.remaining - _
            = w.budget.ceiling - (w.provider.encoding.charge (part.nodes ++ [n]) : Int)
          rw [Encoding.charge_append, Encoding.charge_singleton]
          simp only at hremaining
          push_cast
          omega
    · cases hnew

theorem headerStep (ht : Tidy t w) (hf : ∀ call, w.sink.failing call = false)
    (hstep : w.HeaderStep h o result w') : Tidy (t.record (.header h) o) w' := by
  cases hstep with
  | refused => exact ht
  | unopened _ hfail => rw [hf] at hfail; cases hfail
  | unmarked _ hfail => rw [hf] at hfail; cases hfail
  | unfilled _ hfail => rw [hf] at hfail; cases hfail
  | opened => exact ⟨ht.torn, ⟨ht.sound.strays, ht.sound.parts⟩, ht.filled, ht.remaining⟩

theorem perform (ht : Tidy t w) (hd : Describes t w) (hf : ∀ call, w.sink.failing call = false)
    (a : Write) : Tidy (t.record a (a.outcome w)) (a.perform w).2 := by
  have hc := hd.continues_perform a
  cases a with
  | header h => exact ht.headerStep hf (Writer.headerStep h w)
  | node n =>
    refine ht.nodeStep hd hf (Writer.nodeStep n w hd.written_ne_nil) ?_
    have hsound := (hd.sound_record_iff (.node n)).2 ⟨ht.sound, ht.not_spoils hd hf _⟩
    rwa [← hc.provider, ← hc.ceiling] at hsound

theorem replay (ht : Tidy t w) (hd : Describes t w) (hf : ∀ call, w.sink.failing call = false)
    (writes : List Write) : Tidy (t.replay (w.trace writes)) (w.after writes) := by
  -- write by write, along with the description
  induction writes generalizing t w with
  | nil => exact ht
  | cons a rest ih =>
    have hf' : ∀ call, (a.perform w).2.sink.failing call = false :=
      (hd.continues_perform a).failing ▸ hf
    exact ih (ht.perform hd hf a) (hd.perform a) hf'

end Tidy

/-! ## 2. Layout -/

theorem tidy_new {config : WriterConfig} {s : MemorySink} {w : Writer MemorySink}
    (h : w.New config s) : Tidy {} w := by
  rw [h.eq]
  exact ⟨rfl, ⟨rfl, fun _ hpart => (nomatch hpart)⟩, fun _ hpart => (nomatch hpart), rfl⟩

/--
Whatever a caller asks for, a sink that never fails holds nothing or the header accepted and
then the accepted nodes, cut into blocks; the writer knows how many.
-/
theorem run_layout {config : WriterConfig} {w : Writer MemorySink}
    (hopen : Writer.ofSink ({} : MemorySink) config = .ok w) (requests : List Request) :
    ∃ p blocks, Registry.builtin.provider config.version = .ok p ∧ p.version = config.version ∧
      (∀ block ∈ blocks, block ≠ []) ∧
      blocks.flatten = Request.accepted w requests ∧
      (Request.run w requests).entryCount = blocks.length ∧
      (Request.run w requests).nodesWritten = (Request.accepted w requests).length ∧
      ((Request.run w requests).sink.entries.map (·.name)).Nodup ∧
      (((Request.run w requests).headerWritten = false ∧
          Request.acceptedHeaders w requests = [] ∧
          (Request.run w requests).sink.entries = []) ∨
        ∃ h, (Request.run w requests).headerWritten = true ∧
          Request.acceptedHeaders w requests = [h] ∧
          (Request.run w requests).sink.entries = p.archive h blocks) := by
  have hnew := Writer.New.of_ofSink hopen
  have hd₀ := hnew.describes rfl
  have hf : ∀ call, w.sink.failing call = false := by
    rw [hnew.eq]
    exact fun _ => rfl
  -- the transcript at the end of the run
  have hd := hd₀.replay (Request.runWrites w requests)
  have ht := (tidy_new hnew).replay hd₀ hf (Request.runWrites w requests)
  have hc := hd₀.continues_after (Request.runWrites w requests)
  have hnodes := hd₀.nodes_replay (Request.runWrites w requests)
  have hheaders := hd₀.header_replay (Request.runWrites w requests)
  rw [Request.after_runWrites] at hd ht hc
  generalize Transcript.replay {} (w.trace (Request.runWrites w requests)) = t at *
  refine ⟨w.provider, t.blocks, hnew.provider, hnew.version, ?_, ?_, ?_, ?_, ?_⟩
  · intro block hblock
    obtain ⟨part, hpart, rfl⟩ := List.mem_map.1 (List.mem_reverse.1 hblock)
    exact ht.filled part hpart
  · rw [Describes.flatten_blocks ht.sound, hnodes]
    rfl
  · exact (hd.length_blocks ht.sound).symm
  · rw [hd.nodesWritten, hnodes]
    rfl
  · have hheaders : t.header.toList = Request.acceptedHeaders w requests := hheaders
    cases hheader : t.header with
    | none =>
      have hentries := hd.entries_eq_nil ht.torn hheader
      rw [hheader] at hheaders
      rw [hentries]
      exact ⟨List.nodup_nil, .inl ⟨by rw [hd.headed, hheader]; rfl, hheaders.symm, rfl⟩⟩
    | some h =>
      have hentries := hd.entries_eq_archive ht.sound ht.torn hheader
      rw [hheader] at hheaders
      rw [hentries, hc.provider]
      exact ⟨Provider.nodup_names_archive _ _ _,
        .inr ⟨h, by rw [hd.headed, hheader]; rfl, hheaders.symm, rfl⟩⟩

/-- A node before the header is refused, and the header is written once. -/
theorem remarks_layout :
    ∃ blocks, blocks.flatten = [Node.remark "a", .remark "b"] ∧
      (Request.run (.fresh fun _ => false) [.node (.remark "c"), .header { id := "abc" },
        .nodes [.remark "a", .remark "b"], .header { id := "def" }]).sink.entries
          = (⟨Layout.version2, .enveloped⟩ : Provider).archive { id := "abc" } blocks := by
  have haccepted : Request.accepted (.fresh fun _ => false) [.node (.remark "c"),
        .header { id := "abc" }, .nodes [.remark "a", .remark "b"], .header { id := "def" }]
          = [.remark "a", .remark "b"] ∧
      Request.acceptedHeaders (.fresh fun _ => false) [.node (.remark "c"),
        .header { id := "abc" }, .nodes [.remark "a", .remark "b"], .header { id := "def" }]
          = [{ id := "abc" }] := by cbv
  obtain ⟨p, blocks, hp, -, -, hnodes, -, -, -, hlayout⟩ :=
    run_layout (Writer.ofSink_fresh fun _ => false) [.node (.remark "c"), .header { id := "abc" },
      .nodes [.remark "a", .remark "b"], .header { id := "def" }]
  obtain rfl : ⟨Layout.version2, .enveloped⟩ = p := Except.ok.inj hp
  rw [haccepted.1] at hnodes
  rw [haccepted.2] at hlayout
  rcases hlayout with ⟨-, hno, -⟩ | ⟨h, -, hh, hentries⟩
  · cases hno
  · obtain rfl := (List.cons.inj hh).1
    exact ⟨blocks, hnodes, hentries⟩

/-! ## 3. Round trip -/

namespace Tidy

variable {t : Transcript} {w : Writer MemorySink} {n : Node}

theorem writeNode_eq_ok (hd : Describes t w) (hf : ∀ call, w.sink.failing call = false)
    (hheaded : w.headerWritten = true) (hvalid : w.provider.encoding.validate n = .ok ())
    (hfits : ((w.provider.encoding.nodeBody n).length + Layout.messageOverhead : Int)
      < w.budget.ceiling) :
    (Writer.writeNode n w).1 = .ok () := by
  have hshort : (w.provider.encoding.nodeBody n).length < UInt64.size := by
    have hle : w.budget.ceiling ≤ 0x7FFFFFFFFFFFFFFF := hd.budget.ceiling_le
    simp only [UInt64.size]
    omega
  have hplace := ChunkBudget.place_eq hd.budget (w.provider.encoding.nodeBody n).length
  rw [(Writer.nodeStep n w hd.written_ne_nil).result_eq_ok_iff, Writer.nodeOutcome]
  -- wherever the node is placed, its calls do not fail
  by_cases hroom : ((w.provider.encoding.nodeBody n).length : Int) + Layout.messageOverhead
      < w.budget.remaining
  · rw [if_pos hroom] at hplace
    rw [Writer.Admits.admission_eq ⟨hheaded, hvalid, hshort, hplace⟩]
    exact .inr (if_neg (ne_true_of_eq_false (hf _)))
  · rw [if_neg hroom, if_pos hfits] at hplace
    rw [Writer.Admits.admission_eq ⟨hheaded, hvalid, hshort, hplace⟩]
    exact .inl (opening_eq hf)

theorem writeNodes_eq_ok (hd : Describes t w) (hf : ∀ call, w.sink.failing call = false)
    (hheaded : w.headerWritten = true) {nodes : List Node}
    (hnodes : ∀ n ∈ nodes, w.provider.encoding.validate n = .ok () ∧
      ((w.provider.encoding.nodeBody n).length + Layout.messageOverhead : Int)
        < w.budget.ceiling) :
    Writer.writeNodes nodes w = (.ok (), w.after (nodes.map .node)) ∧
      w.doneNodes (nodes.map .node) = nodes := by
  -- the writer after the first node is described again
  induction nodes generalizing t w with
  | nil => exact ⟨rfl, rfl⟩
  | cons n nodes ih =>
    obtain ⟨hvalid, hfits⟩ := hnodes n List.mem_cons_self
    have hok := writeNode_eq_ok hd hf hheaded hvalid hfits
    have hc := hd.continues_perform (.node n)
    obtain ⟨hwrite, hdone⟩ := ih (hd.perform (.node n)) (hc.failing ▸ hf)
      (hc.headerWritten hheaded) (by
        rw [hc.provider, hc.ceiling]
        exact fun m hm => hnodes m (List.mem_cons_of_mem _ hm))
    constructor
    · rw [Writer.writeNodes, Call.bind_of_ok (Prod.ext hok rfl)]
      exact hwrite
    · rw [List.map_cons, Writer.doneNodes_cons, hdone, Write.doneNode, if_pos hok]
      rfl

end Tidy

theorem Tidy.exists_after_nodes {w : Writer MemorySink} {h : Header}
    (ht : Tidy { header := some h } w) (hd : Describes { header := some h } w)
    (hf : ∀ call, w.sink.failing call = false) {nodes : List Node}
    (hnodes : ∀ n ∈ nodes, w.provider.encoding.validate n = .ok () ∧
      ((w.provider.encoding.nodeBody n).length + Layout.messageOverhead : Int)
        < w.budget.ceiling) :
    ∃ t, Writer.writeNodes nodes w = (.ok (), w.after (nodes.map .node)) ∧
      (w.after (nodes.map .node)).provider = w.provider ∧
      (∀ call, (w.after (nodes.map .node)).sink.failing call = false) ∧
      Describes t (w.after (nodes.map .node)) ∧ Tidy t (w.after (nodes.map .node)) ∧
      t.header = some h ∧ t.nodes = nodes := by
  obtain ⟨hwrite, hdone⟩ := writeNodes_eq_ok hd hf hd.headed hnodes
  have hc := hd.continues_after (nodes.map .node)
  have hall := hd.nodes_replay (nodes.map .node)
  rw [hdone] at hall
  exact ⟨_, hwrite, hc.provider, hc.failing ▸ hf, hd.replay _, ht.replay hd hf _,
    hd.header_replay_of_some rfl _, hall⟩

theorem exists_headed {config : WriterConfig} (hconfig : config.validate = .ok ())
    {p : Provider} (hp : Registry.builtin.provider config.version = .ok p) {h : Header}
    (hvalid : h.validate = .ok ()) :
    ∃ w₀ w₁ : Writer MemorySink,
      Writer.ofSink ({} : MemorySink) config = .ok w₀ ∧
      Writer.writeHeader h w₀ = (.ok (), w₁) ∧
      w₁.provider = p ∧ w₁.budget.ceiling = config.maxChunkSize ∧
      (∀ call, w₁.sink.failing call = false) ∧
      Describes { header := some h } w₁ ∧ Tidy { header := some h } w₁ := by
  obtain ⟨w₀, hopen⟩ := Writer.New.ofSink_eq hconfig {}
  have hnew := Writer.New.of_ofSink hopen
  obtain rfl : p = w₀.provider := Except.ok.inj (hp.symm.trans hnew.provider)
  have hf₀ : ∀ call, w₀.sink.failing call = false := by
    rw [hnew.eq]
    exact fun _ => rfl
  have hd₀ := hnew.describes rfl
  have hopened : w₀.headerOutcome h = .opened := by
    have hnone : w₀.headerWritten = false := by rw [hnew.eq]
    rw [Writer.headerOutcome, hnone, hvalid]
    exact Tidy.opening_eq hf₀
  have hheader : (Writer.writeHeader h w₀).1 = .ok () :=
    (Writer.headerStep h w₀).result_eq_ok_iff.2 hopened
  have hrecord : ({} : Transcript).record (.header h) ((Write.header h).outcome w₀)
      = { header := some h } := congrArg (({} : Transcript).record (.header h)) hopened
  have hd₁ := hd₀.perform (.header h)
  have ht₁ := (tidy_new hnew).perform hd₀ hf₀ (.header h)
  have hc₁ := hd₀.continues_perform (.header h)
  rw [hrecord] at hd₁ ht₁
  exact ⟨w₀, _, hopen, Prod.ext hheader rfl, hc₁.provider, hc₁.ceiling.trans hnew.ceiling,
    hc₁.failing ▸ hf₀, hd₁, ht₁⟩

theorem exists_written {config : WriterConfig} (hconfig : config.validate = .ok ())
    {p : Provider} (hp : Registry.builtin.provider config.version = .ok p) {h : Header}
    (hvalid : h.validate = .ok ()) {nodes : List Node}
    (hnodes : ∀ n ∈ nodes, p.encoding.validate n = .ok () ∧
      (p.encoding.nodeBody n).length + Layout.messageOverhead < config.maxChunkSize) :
    ∃ w₀ w₁ w₂ : Writer MemorySink, ∃ t : Transcript,
      Writer.ofSink ({} : MemorySink) config = .ok w₀ ∧
      Writer.writeHeader h w₀ = (.ok (), w₁) ∧
      Writer.writeNodes nodes w₁ = (.ok (), w₂) ∧
      w₂.provider = p ∧ (∀ call, w₂.sink.failing call = false) ∧
      Describes t w₂ ∧ Tidy t w₂ ∧ t.header = some h ∧ t.nodes = nodes := by
  obtain ⟨w₀, w₁, hopen, hheader, rfl, hceiling, hf₁, hd₁, ht₁⟩ := exists_headed hconfig hp hvalid
  have hfits : ∀ n ∈ nodes, w₁.provider.encoding.validate n = .ok () ∧
      ((w₁.provider.encoding.nodeBody n).length + Layout.messageOverhead : Int)
        < w₁.budget.ceiling := by
    rw [hceiling]
    exact fun n hn => ⟨(hnodes n hn).1, by exact_mod_cast (hnodes n hn).2⟩
  obtain ⟨t, hwrite, hprovider, hf₂, hd₂, ht₂, hsome, hall⟩ :=
    ht₁.exists_after_nodes hd₁ hf₁ hfits
  exact ⟨w₀, w₁, _, t, hopen, hheader, hwrite, hprovider, hf₂, hd₂, ht₂, hsome, hall⟩

/--
Any header and any nodes that are valid and fit into a chunk are written, and reading gives the
header, one chunk for each chunk entry, and each of the nodes once.  The header must be short
enough to have a length, as every header is that fits into memory.
-/
theorem archive_round_trip {config : WriterConfig} (hconfig : config.validate = .ok ())
    {p : Provider} (hp : Registry.builtin.provider config.version = .ok p) {h : Header}
    (hvalid : h.validate = .ok ()) (hsize : (p.encoding.encodeHeader h).length < UInt64.size)
    {nodes : List Node}
    (hnodes : ∀ n ∈ nodes, p.encoding.validate n = .ok () ∧
      (p.encoding.nodeBody n).length + Layout.messageOverhead < config.maxChunkSize) :
    ∃ w₀ w₁ w₂ : Writer MemorySink, ∃ entries contents,
      Writer.ofSink ({} : MemorySink) config = .ok w₀ ∧
      Writer.writeHeader h w₀ = (.ok (), w₁) ∧
      Writer.writeNodes nodes w₁ = (.ok (), w₂) ∧
      w₂.close = .ok entries ∧
      Source.readAll (.ofEntries entries) = .ok contents ∧
      contents.version = config.version ∧
      contents.header = h ∧
      contents.chunks.length = w₂.entryCount ∧
      entries.length = w₂.entryCount + 1 ∧
      contents.nodes.toList.Perm nodes.dedup := by
  obtain ⟨w₀, w₁, w₂, t, hopen, hheader, hwrite, rfl, hf, hd, ht, hsome, rfl⟩ :=
    exists_written hconfig hp hvalid hnodes
  obtain ⟨hversion, hregistered⟩ := Registry.provider_of_provider hp
  obtain ⟨hclose, hread⟩ :=
    hd.readAll_of_sound ht.sound ht.torn hsome hregistered hsize (hf _)
  refine ⟨w₀, w₁, w₂, _, _, hopen, hheader, hwrite, hclose, hread, hversion, rfl, ?_, ?_, ?_⟩
  · rw [List.length_map, hd.length_blocks ht.sound]
  · rw [Provider.length_archive, hd.length_blocks ht.sound]
  · rw [← Describes.flatten_blocks ht.sound]
    exact Chunk.merge_ofList_perm t.blocks

/-- Of a node that is written twice, one is read. -/
theorem remarks_round_trip :
    ∃ w₀ w₁ w₂ : Writer MemorySink, ∃ entries contents,
      Writer.ofSink ({} : MemorySink) {} = .ok w₀ ∧
      Writer.writeHeader { id := "abc" } w₀ = (.ok (), w₁) ∧
      Writer.writeNodes [.remark "a", .remark "b", .remark "a"] w₁ = (.ok (), w₂) ∧
      w₂.close = .ok entries ∧
      Source.readAll (.ofEntries entries) = .ok contents ∧
      contents.header = { id := "abc" } ∧
      contents.nodes.toList.Perm [.remark "b", .remark "a"] := by
  have hsize : (Encoding.enveloped.encodeHeader { id := "abc" }).length < UInt64.size := by cbv
  have hnodes : ∀ n ∈ [Node.remark "a", .remark "b", .remark "a"],
      Encoding.enveloped.validate n = .ok () ∧
        (Encoding.enveloped.nodeBody n).length + Layout.messageOverhead < Layout.maxChunkSize := by
    have ha : Encoding.enveloped.validate (.remark "a") = .ok () ∧
        (Encoding.enveloped.nodeBody (.remark "a")).length + Layout.messageOverhead
          < Layout.maxChunkSize := by cbv
    have hb : Encoding.enveloped.validate (.remark "b") = .ok () ∧
        (Encoding.enveloped.nodeBody (.remark "b")).length + Layout.messageOverhead
          < Layout.maxChunkSize := by cbv
    simp only [List.forall_mem_cons]
    exact ⟨ha, hb, ha, List.forall_mem_nil _⟩
  obtain ⟨w₀, w₁, w₂, entries, contents, hopen, hheader, hwrite, hclose, hread, -, hsame, -, -,
    hperm⟩ := archive_round_trip (show WriterConfig.validate {} = .ok () by decide)
      (p := ⟨Layout.version2, .enveloped⟩) (by decide) (h := { id := "abc" }) (by decide) hsize
      hnodes
  exact ⟨w₀, w₁, w₂, entries, contents, hopen, hheader, hwrite, hclose, hread, hsame, hperm⟩

end ScanArchive
