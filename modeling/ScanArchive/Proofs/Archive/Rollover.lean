import ScanArchive.Proofs.Archive.Faultless
import ScanArchive.Proofs.Archive.HeaderFaults

/-!
# Rollover

A new chunk is opened only for a node that the open one has no room for.  So no sequence of
chunks that keeps to the limit has fewer of them than a writer opens, and since the estimate for
a length is never too small, the contents of a chunk stay below the limit.
-/

namespace ScanArchive

/-! ## 1. The estimate is never too small -/

namespace Wire

theorem delimitedSize_le {length : Nat} (h : length < 0x10000000) :
    delimitedSize length ≤ length + Layout.messageOverhead := by
  have hlog : length.log2 < 28 := by
    by_cases hzero : length = 0
    · rw [hzero]
      decide
    · exact (Nat.log2_lt hzero).2 h
  unfold delimitedSize Varint.size Layout.messageOverhead
  omega

end Wire

namespace Encoding

variable {encoding : Encoding}

theorem charge_cons (n : Node) (nodes : List Node) :
    encoding.charge (n :: nodes)
      = (encoding.nodeBody n).length + Layout.messageOverhead + encoding.charge nodes := by
  rw [← List.singleton_append, charge_append, charge_singleton]

theorem length_messages_le {nodes : List Node} (h : encoding.charge nodes < 0x10000000) :
    (encoding.messages nodes).length ≤ encoding.charge nodes := by
  induction nodes with
  | nil => exact Nat.le_refl 0
  | cons n nodes ih =>
    rw [charge_cons] at h ⊢
    have hshort : (encoding.nodeBody n).length < 0x10000000 := by omega
    have hfirst := Wire.delimitedSize_le hshort
    have hrest := ih (by omega)
    rw [messages_cons, List.length_append, Wire.length_delimited]
    omega

/-! ## 2. Greedy cuts are least -/

/-- No block has room for the node that the next one starts with. -/
def Tight (encoding : Encoding) (limit : Int) (blocks : List (List Node)) : Prop :=
  blocks.IsChain fun block next =>
    ∃ n, next.head? = some n ∧ limit ≤ encoding.charge (block ++ [n])

variable {limit : Int} {blocks groups : List (List Node)}

/-- What follows a block cannot start before what follows a group, since the group is no longer. -/
theorem suffix_of_tight {block group later rest : List Node} {n : Node}
    (hhead : later.head? = some n) (hfull : limit ≤ encoding.charge (block ++ [n]))
    (hgroup : (encoding.charge group : Int) < limit)
    (hsub : block ++ later <:+ group ++ rest) : later <:+ rest := by
  have hlater : later <:+ group ++ rest := (List.suffix_append block later).trans hsub
  rcases List.suffix_or_suffix_of_suffix hlater (List.suffix_append group rest) with h | ⟨pre, hpre⟩
  · exact h
  · cases pre with
    | nil => exact (show later = rest from hpre.symm) ▸ List.suffix_refl _
    | cons m pre =>
      -- the group would hold all of the block and the node that did not fit
      obtain rfl : m = n := by
        rw [← hpre] at hhead
        exact Option.some.inj hhead
      obtain ⟨before, hbefore⟩ := hsub
      rw [← hpre, ← List.append_assoc, ← List.append_assoc] at hbefore
      have hlong : group = before ++ block ++ (m :: pre) := (List.append_cancel_right hbefore).symm
      have hcharge : encoding.charge group
          = encoding.charge before + encoding.charge (block ++ [m]) + encoding.charge pre := by
        rw [hlong, charge_append, charge_append, charge_append, charge_cons, charge_singleton]
        omega
      omega

/-- No cut of the nodes into groups that keep to the limit has fewer groups than a tight one. -/
theorem length_le_of_tight (ht : encoding.Tight limit blocks)
    (hfilled : ∀ block ∈ blocks, block ≠ [])
    (hsub : blocks.flatten <:+ groups.flatten)
    (hgroups : ∀ group ∈ groups, (encoding.charge group : Int) < limit) :
    blocks.length ≤ groups.length := by
  -- block by block: what is left of the blocks is always covered by what is left of the groups
  induction blocks generalizing groups with
  | nil => exact Nat.zero_le _
  | cons block blocks ih =>
    cases groups with
    | nil =>
      have hnil := List.append_eq_nil_iff.1 (List.suffix_nil.1 hsub)
      exact absurd hnil.1 (hfilled block List.mem_cons_self)
    | cons group groups =>
      apply Nat.succ_le_succ
      cases blocks with
      | nil => exact Nat.zero_le _
      | cons next blocks =>
        obtain ⟨⟨n, hhead, hfull⟩, ht⟩ := List.isChain_cons_cons.1 ht
        have hheads : (next :: blocks).flatten.head? = some n := by
          rw [List.flatten_cons, List.head?_append, hhead]
          rfl
        exact ih ht (fun b hb => hfilled b (List.mem_cons_of_mem _ hb))
          (suffix_of_tight hheads hfull (hgroups group List.mem_cons_self) hsub)
          fun g hg => hgroups g (List.mem_cons_of_mem _ hg)

theorem charge_flatten_le {limit : Nat} (h : ∀ group ∈ groups, encoding.charge group < limit) :
    encoding.charge groups.flatten ≤ limit * groups.length := by
  induction groups with
  | nil => exact Nat.zero_le _
  | cons group groups ih =>
    have hgroup := h group List.mem_cons_self
    have hrest := ih fun g hg => h g (List.mem_cons_of_mem _ hg)
    rw [List.flatten_cons, charge_append, List.length_cons, Nat.mul_succ]
    omega

theorem Tight.concat {n : Node} (ht : encoding.Tight limit blocks)
    (hfull : ∀ block ∈ blocks.getLast?, limit ≤ encoding.charge (block ++ [n])) :
    encoding.Tight limit (blocks ++ [[n]]) := by
  refine List.isChain_append.2 ⟨ht, .singleton _, fun block hblock next hnext => ?_⟩
  obtain rfl := Option.mem_some_iff.1 hnext
  exact ⟨n, rfl, hfull block hblock⟩

theorem Tight.extend {block : List Node} (ht : encoding.Tight limit (blocks ++ [block]))
    (hfilled : block ≠ []) (nodes : List Node) :
    encoding.Tight limit (blocks ++ [block ++ nodes]) := by
  obtain ⟨hblocks, -, hlast⟩ := List.isChain_append.1 ht
  refine List.isChain_append.2 ⟨hblocks, .singleton _, fun before hbefore next hnext => ?_⟩
  obtain rfl := Option.mem_some_iff.1 hnext
  -- the block still starts with the same node
  obtain ⟨n, hhead, hfull⟩ := hlast before hbefore block rfl
  exact ⟨n, by rw [List.head?_append_of_ne_nil _ hfilled, hhead], hfull⟩

end Encoding

/-! ## 3. Blocks of a run -/

namespace Tidy

open Transcript

variable {t : Transcript} {w w' : Writer MemorySink} {n : Node} {o : Outcome}
  {result : Except Error Unit}

theorem blocks_eq_concat {part : Part} {earlier : List Part} (hparts : t.parts = part :: earlier) :
    t.blocks = (earlier.map (·.nodes)).reverse ++ [part.nodes] := by
  rw [blocks, hparts, List.map_cons, List.reverse_cons]

theorem le_charge_of_newEntry (ht : Tidy t w) (hd : Describes t w) {budget : ChunkBudget}
    (hadmits : w.Admits n .newEntry budget) :
    ∀ block ∈ t.blocks.getLast?,
      w.budget.ceiling ≤ w.provider.encoding.charge (block ++ [n]) := by
  intro block hblock
  have hremaining := ht.remaining
  cases hparts : t.parts with
  | nil =>
    rw [blocks, hparts] at hblock
    cases hblock
  | cons part earlier =>
    rw [blocks_eq_concat hparts, List.getLast?_concat] at hblock
    obtain rfl := Option.mem_some_iff.1 hblock
    rw [hparts] at hremaining
    simp only at hremaining
    rcases ChunkBudget.place_cases hd.budget hadmits.placed with ⟨hcurrent, -⟩ | ⟨-, hfull, -⟩
    · cases hcurrent
    · rw [Encoding.charge_append, Encoding.charge_singleton]
      push_cast
      omega

theorem tight_nodeStep (ht : Tidy t w) (hd : Describes t w)
    (hf : ∀ call, w.sink.failing call = false) (hstep : w.NodeStep n o result w')
    (htight : w.provider.encoding.Tight w.budget.ceiling t.blocks) :
    w.provider.encoding.Tight w.budget.ceiling (t.record (.node n) o).blocks := by
  cases hstep with
  | refused => exact htight
  | unopened _ hfail => rw [hf] at hfail; cases hfail
  | unmarked _ hfail => rw [hf] at hfail; cases hfail
  | unfilled _ hfail => rw [hf] at hfail; cases hfail
  | dropped _ hfail => rw [hf] at hfail; cases hfail
  | opened hadmits =>
    rw [record, blocks_start]
    exact htight.concat (ht.le_charge_of_newEntry hd hadmits)
  | added hadmits =>
    rw [record]
    cases hparts : t.parts with
    | nil =>
      -- a stray leaves the blocks as they are
      have hblocks : (t.add n).blocks = t.blocks := by
        unfold add blocks
        rw [hparts]
      rw [hblocks]
      exact htight
    | cons part earlier =>
      have hadd : (t.add n).parts = { part with nodes := part.nodes ++ [n] } :: earlier := by
        unfold add
        rw [hparts]
      rw [blocks_eq_concat hparts] at htight
      rw [blocks_eq_concat hadd]
      exact htight.extend (ht.filled part (by rw [hparts]; exact List.mem_cons_self)) [n]

theorem tight_perform (ht : Tidy t w) (hd : Describes t w)
    (hf : ∀ call, w.sink.failing call = false)
    (htight : w.provider.encoding.Tight w.budget.ceiling t.blocks) (a : Write) :
    w.provider.encoding.Tight w.budget.ceiling (t.record a (a.outcome w)).blocks := by
  cases a with
  | header h =>
    rw [Write.outcome]
    cases w.headerOutcome h <;> exact htight
  | node n => exact ht.tight_nodeStep hd hf (Writer.nodeStep n w hd.written_ne_nil) htight

theorem tight_replay (ht : Tidy t w) (hd : Describes t w)
    (hf : ∀ call, w.sink.failing call = false)
    (htight : w.provider.encoding.Tight w.budget.ceiling t.blocks) (writes : List Write) :
    w.provider.encoding.Tight w.budget.ceiling (t.replay (w.trace writes)).blocks := by
  -- write by write, along with the description and the budget
  induction writes generalizing t w with
  | nil => exact htight
  | cons a rest ih =>
    have hc := hd.continues_perform a
    have hrest := ih (ht.perform hd hf a) (hd.perform a) (hc.failing ▸ hf)
    rw [hc.provider, hc.ceiling] at hrest
    exact hrest (ht.tight_perform hd hf htight a)

end Tidy

/-! ## 4. Chunk entries of a run -/

def Entry.payload (e : Entry) : Bytes := e.data.drop Layout.prefixLength

def MemorySink.chunkEntries (s : MemorySink) : List Entry := s.entries.filter fun e => !e.isHeader

theorem Provider.payload_chunkEntry (p : Provider) (index : Nat) (nodes : List Node) :
    (p.chunkEntry index nodes).payload = p.encoding.messages nodes :=
  List.drop_left' (Framing.length_encodePrefix _ _)

theorem Provider.filter_archive {p : Provider} {h : Header} {blocks : List (List Node)}
    (hblocks : ∀ block ∈ blocks, Framing.Readable p.encoding block) :
    (p.archive h blocks).filter (fun e => !e.isHeader) = blocks.mapIdx p.chunkEntry := by
  have hheader : (p.headerEntry h).isHeader = true := by
    rw [Entry.isHeader, decide_eq_true (show (p.headerEntry h).name = Layout.headerName from rfl),
      Bool.true_or]
  rw [archive, List.filter_cons_of_neg (by rw [hheader]; decide), List.filter_eq_self]
  intro e he
  obtain ⟨i, hi, rfl⟩ := List.mem_mapIdx.1 he
  have hpart : (Transcript.partEntry p i ⟨true, blocks[i]⟩).isHeader = false :=
    Transcript.isHeader_partEntry (hblocks _ (List.getElem_mem hi)) i
  rw [show p.chunkEntry i blocks[i] = Transcript.partEntry p i ⟨true, blocks[i]⟩ from rfl, hpart]
  rfl

theorem Tidy.chunkEntries_eq {t : Transcript} {w : Writer MemorySink} (ht : Tidy t w)
    (hd : Describes t w) : w.sink.chunkEntries = t.blocks.mapIdx w.provider.chunkEntry := by
  rw [MemorySink.chunkEntries]
  cases hheader : t.header with
  | none =>
    obtain ⟨-, hparts⟩ := hd.unheaded hheader
    rw [hd.entries_eq_nil ht.torn hheader, Transcript.blocks, hparts]
    rfl
  | some h =>
    rw [hd.entries_eq_archive ht.sound ht.torn hheader]
    exact Provider.filter_archive fun _ => hd.readable_block

theorem Request.exists_tidy {config : WriterConfig} {w : Writer MemorySink}
    (hopen : Writer.ofSink ({} : MemorySink) config = .ok w) (requests : List Request) :
    ∃ t, Describes t (run w requests) ∧ Tidy t (run w requests) ∧
      w.provider.encoding.Tight w.budget.ceiling t.blocks ∧
      t.nodes = accepted w requests ∧ t.header.toList = acceptedHeaders w requests ∧
      w.Continues (run w requests) := by
  have hnew := Writer.New.of_ofSink hopen
  have hd := hnew.describes rfl
  have ht := tidy_new hnew
  have hf : ∀ call, w.sink.failing call = false := by
    rw [hnew.eq]
    exact fun _ => rfl
  have htight := ht.tight_replay hd hf List.isChain_nil (runWrites w requests)
  rw [← after_runWrites]
  exact ⟨_, hd.replay _, ht.replay hd hf _, htight, hd.nodes_replay _, hd.header_replay _,
    hd.continues_after _⟩

theorem Tidy.charge_lt {config : WriterConfig} {w₀ w : Writer MemorySink} {t : Transcript}
    (hopen : Writer.ofSink ({} : MemorySink) config = .ok w₀) (hc : w₀.Continues w)
    (ht : Tidy t w) {block : List Node} (hblock : block ∈ t.blocks) :
    w.provider.encoding.charge block < config.maxChunkSize := by
  have hnew := Writer.New.of_ofSink hopen
  obtain ⟨part, hpart, rfl⟩ := List.mem_map.1 (List.mem_reverse.1 hblock)
  have hlt := (ht.sound.parts part hpart).2
  rw [hc.ceiling, hnew.ceiling] at hlt
  exact_mod_cast hlt

open Request in
/--
The contents of every chunk stay below the limit, and there are as few chunks as in any cut of
the accepted nodes into groups, in order, that are charged less than the limit each.
-/
theorem rollover_is_least {config : WriterConfig} {w : Writer MemorySink}
    (hopen : Writer.ofSink ({} : MemorySink) config = .ok w) (requests : List Request) :
    ∃ p, Registry.builtin.provider config.version = .ok p ∧
      (∀ e ∈ (run w requests).sink.chunkEntries, e.payload.length < config.maxChunkSize) ∧
      (run w requests).sink.chunkEntries.length = (run w requests).entryCount ∧
      IsLeast
        {count | ∃ groups : List (List Node), groups.flatten = accepted w requests ∧
          (∀ group ∈ groups, p.encoding.charge group < config.maxChunkSize) ∧
          groups.length = count}
        (run w requests).sink.chunkEntries.length ∧
      p.encoding.charge (accepted w requests) ⌈/⌉ config.maxChunkSize
        ≤ (run w requests).sink.chunkEntries.length := by
  have hnew := Writer.New.of_ofSink hopen
  obtain ⟨hpositive, hlimit⟩ := config.maxChunkSize_of_validate hnew.valid
  obtain ⟨t, hd, ht, htight, hnodes, -, hc⟩ := exists_tidy hopen requests
  have hentries := ht.chunkEntries_eq hd
  have hlength : (run w requests).sink.chunkEntries.length = t.blocks.length := by
    rw [hentries, List.length_mapIdx]
  have hflat : t.blocks.flatten = accepted w requests :=
    (Describes.flatten_blocks ht.sound).trans hnodes
  -- no block is over-full
  have hcharge : ∀ block ∈ t.blocks, w.provider.encoding.charge block < config.maxChunkSize := by
    rw [← hc.provider]
    exact fun block hblock => ht.charge_lt hopen hc hblock
  refine ⟨w.provider, hnew.provider, fun e he => ?_, ?_, ⟨?_, ?_⟩, ?_⟩
  · rw [hentries] at he
    obtain ⟨i, hi, rfl⟩ := List.mem_mapIdx.1 he
    have hblock := hcharge _ (List.getElem_mem hi)
    have hsmall : Layout.maxChunkSize < 0x10000000 := by decide
    have hcharged : w.provider.encoding.charge t.blocks[i] < 0x10000000 := by omega
    have hmessages := Encoding.length_messages_le hcharged
    rw [hc.provider, Provider.payload_chunkEntry]
    omega
  · rw [hlength, hd.length_blocks ht.sound]
  · exact ⟨t.blocks, hflat, hcharge, hlength.symm⟩
  · rintro count ⟨groups, hgroups, hfits, rfl⟩
    rw [hlength]
    refine Encoding.length_le_of_tight htight (fun block hblock => ?_) ?_ (fun g hg => ?_)
    · obtain ⟨part, hpart, rfl⟩ := List.mem_map.1 (List.mem_reverse.1 hblock)
      exact ht.filled part hpart
    · rw [hflat, hgroups]
    · rw [hnew.ceiling]
      exact_mod_cast hfits g hg
  · rw [hlength, ← hflat]
    exact (ceilDiv_le_iff_le_mul (by omega)).2 (Encoding.charge_flatten_le hcharge)

theorem remarks_rollover :
    Writer.ofSink ({} : MemorySink) { maxChunkSize := 200 } = .ok .narrow ∧
    IsLeast
      {count | ∃ groups : List (List Node),
        groups.flatten = [.remark "a", .remark "b", .remark "c"] ∧
        (∀ group ∈ groups, Encoding.enveloped.charge group < 200) ∧ groups.length = count} 2 := by
  have hrun : Request.accepted .narrow
        [.header { id := "abc" }, .nodes [.remark "a", .remark "b", .remark "c"]]
          = [.remark "a", .remark "b", .remark "c"] ∧
      (Request.run .narrow [.header { id := "abc" },
        .nodes [.remark "a", .remark "b", .remark "c"]]).entryCount = 2 := by cbv
  obtain ⟨p, hp, -, hcount, hleast, -⟩ := rollover_is_least Writer.ofSink_narrow
    [.header { id := "abc" }, .nodes [.remark "a", .remark "b", .remark "c"]]
  obtain rfl : ⟨Layout.version2, .enveloped⟩ = p := Except.ok.inj hp
  rw [hcount, hrun.1, hrun.2] at hleast
  exact ⟨Writer.ofSink_narrow, hleast⟩

end ScanArchive
