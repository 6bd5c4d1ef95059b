import ScanArchive.Proofs.Archive.Layout
import ScanArchive.Proofs.Archive.Writing

/-!
# What a sink holds, as it came about

A transcript keeps what the outcomes of the writes so far have put into a sink: header entries
that were begun in vain, the header, nodes that went into the header entry, and the entries
opened for nodes.  A writer that is *described* by a transcript stays so with every write,
whichever sink calls fail.
-/

namespace ScanArchive

structure Part where
  /-- whether it got its prefix -/
  marked : Bool
  nodes : List Node

/-- What was put into a sink; entries stand last one first. -/
structure Transcript where
  /-- header entries begun in vain, and whether they got their prefix -/
  torn : List Bool := []
  header : Option Header := none
  /-- nodes that went into the header entry -/
  strays : List Node := []
  parts : List Part := []

inductive Write where
  | header (h : Header)
  | node (n : Node)

namespace Transcript

variable (p : Provider) (t : Transcript)

/-! ## 1. Entries and nodes -/

def countMarked (parts : List Part) : Nat := parts.countP (·.marked)

/-- The entry of a part, by the number of entries counted before it. -/
def partEntry (index : Nat) (part : Part) : Entry :=
  ⟨Layout.chunkName index,
    (if part.marked then Framing.encodePrefix .chunk p.version else [])
      ++ p.encoding.messages part.nodes⟩

def partEntries : List Part → List Entry
  | [] => []
  | part :: earlier => partEntry p (countMarked earlier) part :: partEntries earlier

def tornEntry (marked : Bool) : Entry :=
  ⟨Layout.headerName, if marked then Framing.encodePrefix .header p.version else []⟩

def headerEntries : List Entry :=
  (t.header.map fun h =>
    (⟨Layout.headerName, Framing.encodePrefix .header p.version
      ++ (p.encoding.encodeHeader h ++ p.encoding.messages t.strays)⟩ : Entry)).toList
    ++ t.torn.map (tornEntry p)

/-- All entries, last one first. -/
def entries : List Entry := partEntries p t.parts ++ headerEntries p t

/-- The nodes of each part, in the order in which the parts were opened. -/
def blocks : List (List Node) := (t.parts.map (·.nodes)).reverse

def nodes : List Node := t.strays ++ t.blocks.flatten

/-! ## 2. Growth -/

def add (n : Node) : Transcript :=
  match t.parts with
  | [] => { t with strays := t.strays ++ [n] }
  | part :: earlier => { t with parts := { part with nodes := part.nodes ++ [n] } :: earlier }

def start (marked : Bool) (nodes : List Node) : Transcript :=
  { t with parts := ⟨marked, nodes⟩ :: t.parts }

/-- What a write adds, by its outcome. -/
def record : Write → Outcome → Transcript
  | .header _, .unmarked => { t with torn := false :: t.torn }
  | .header _, .unfilled => { t with torn := true :: t.torn }
  | .header h, .opened => { t with header := some h }
  | .node _, .unmarked => t.start false []
  | .node _, .unfilled => t.start true []
  | .node n, .opened => t.start true [n]
  | .node n, .added => t.add n
  | _, _ => t

variable {p t} {n : Node} {marked : Bool}

theorem blocks_start (nodes : List Node) : (t.start marked nodes).blocks = t.blocks ++ [nodes] := by
  simp only [blocks, start, List.map_cons, List.reverse_cons]

theorem nodes_start (nodes : List Node) : (t.start marked nodes).nodes = t.nodes ++ nodes := by
  rw [Transcript.nodes, blocks_start, List.flatten_append, ← List.append_assoc,
    List.flatten_singleton]
  rfl

theorem nodes_add : (t.add n).nodes = t.nodes ++ [n] := by
  unfold add
  split
  · rename_i hparts
    simp [nodes, blocks, hparts]
  · rename_i part earlier hparts
    simp [nodes, blocks, hparts]

theorem header_add : (t.add n).header = t.header := by
  unfold add
  split <;> rfl

theorem torn_add : (t.add n).torn = t.torn := by
  unfold add
  split <;> rfl

theorem countMarked_start (nodes : List Node) :
    countMarked (t.start true nodes).parts = countMarked t.parts + 1 :=
  List.countP_cons_of_pos rfl

theorem countMarked_add : countMarked (t.add n).parts = countMarked t.parts := by
  unfold add
  split
  · rfl
  · rename_i part earlier hparts
    rw [hparts]
    rfl

theorem entries_add (hheader : t.header.isSome) :
    (t.add n).entries p = (t.entries p).modifyHead fun e =>
      ⟨e.name, e.data ++ Wire.delimited (p.encoding.nodeBody n)⟩ := by
  obtain ⟨h, hh⟩ := Option.isSome_iff_exists.1 hheader
  unfold add
  split
  · rename_i hparts
    simp [entries, headerEntries, partEntries, hparts, hh]
  · rename_i part earlier hparts
    simp [entries, headerEntries, partEntries, partEntry, hparts]

theorem entries_start (nodes : List Node) :
    (t.start marked nodes).entries p
      = partEntry p (countMarked t.parts) ⟨marked, nodes⟩ :: t.entries p := rfl

theorem entries_ne_nil (hheader : t.header.isSome) : t.entries p ≠ [] := by
  obtain ⟨h, hh⟩ := Option.isSome_iff_exists.1 hheader
  simp [entries, headerEntries, hh]

end Transcript

/-! ## 3. Descriptions -/

/-- The transcript says what the sink holds, and the writer knows as much of it as it keeps. -/
structure Describes (t : Transcript) (w : Writer MemorySink) : Prop where
  contents : w.sink.contents = t.entries w.provider
  headed : w.headerWritten = t.header.isSome
  entryCount : w.entryCount = Transcript.countMarked t.parts
  nodesWritten : w.nodesWritten = t.nodes.length
  budget : w.budget.Bounded
  readable : Framing.Readable w.provider.encoding t.nodes
  valid : ∀ h ∈ t.header, h.validate = .ok ()
  /-- without a header there are no nodes -/
  unheaded : t.header = none → t.strays = [] ∧ t.parts = []
  /-- a header entry is torn by failing calls only -/
  untorn : (∀ call < w.sink.calls, w.sink.failing call = false) → t.torn = []

namespace Describes

variable {t t' : Transcript} {w w' : Writer MemorySink} {n : Node} {h : Header} {o : Outcome}
  {result : Except Error Unit}

theorem header_isSome (hd : Describes t w) (hheaded : w.headerWritten = true) :
    t.header.isSome = true := hd.headed ▸ hheaded

theorem written_ne_nil (hd : Describes t w) (hheaded : w.headerWritten = true) :
    w.sink.written ≠ [] := by
  have hentries := Transcript.entries_ne_nil (p := w.provider) (hd.header_isSome hheaded)
  rw [← hd.contents] at hentries
  exact fun hnil => hentries (by rw [MemorySink.contents, hnil]; rfl)

theorem of_node (hd : Describes t w) (hheaded : w.headerWritten = true) (hc : w.Continues w')
    (hheader : t'.header = t.header) (htorn : t'.torn = t.torn)
    (hcontents : w'.sink.contents = t'.entries w.provider)
    (hcount : w'.entryCount = Transcript.countMarked t'.parts)
    (hwritten : w'.nodesWritten = t'.nodes.length) (hbudget : w'.budget.Bounded)
    (hreadable : Framing.Readable w.provider.encoding t'.nodes) : Describes t' w' where
  contents := hc.provider ▸ hcontents
  headed := by rw [hc.headerWritten hheaded, hheader, hd.header_isSome hheaded]
  entryCount := hcount
  nodesWritten := hwritten
  budget := hbudget
  readable := hc.provider ▸ hreadable
  valid := hheader ▸ hd.valid
  unheaded hnone := by
    have hsome := hd.header_isSome hheaded
    rw [← hheader, hnone] at hsome
    cases hsome
  untorn hquiet := by
    rw [htorn]
    exact hd.untorn fun call hcall => hc.failing ▸ hquiet call (Nat.lt_of_lt_of_le hcall hc.calls)

theorem contents_begin (hd : Describes t w) :
    (w.sink.begin (Layout.chunkName w.entryCount)).contents
      = (t.start false []).entries w.provider := by
  rw [MemorySink.contents_begin, hd.contents, hd.entryCount]
  rfl

theorem contents_startedChunk (hd : Describes t w) :
    w.startedChunk.sink.contents = (t.start true []).entries w.provider := by
  rw [Writer.startedChunk, MemorySink.contents_append, hd.contents_begin]
  simp [Transcript.entries_start, Transcript.partEntry, Writer.version]

theorem contents_add (hd : Describes t w) (hheaded : w.headerWritten = true) (n : Node) :
    (w.sink.append (Wire.delimited (w.provider.encoding.nodeBody n))).contents
      = (t.add n).entries w.provider := by
  rw [MemorySink.contents_append, hd.contents, Transcript.entries_add (hd.header_isSome hheaded)]

theorem readable_snoc (hd : Describes t w) {placement : Placement} {budget : ChunkBudget}
    (hadmits : w.Admits n placement budget) :
    Framing.Readable w.provider.encoding (t.nodes ++ [n]) := by
  intro m hm
  rcases List.mem_append.1 hm with hm | hm
  · exact hd.readable m hm
  · rw [List.mem_singleton.1 hm]
    exact ⟨hadmits.valid, hadmits.short⟩

/-- Writing a node is described by its outcome. -/
theorem nodeStep (hd : Describes t w) (hstep : w.NodeStep n o result w') :
    Describes (t.record (.node n) o) w' := by
  have hc := hstep.continues hd.budget
  cases hstep with
  | refused => exact hd
  | unopened hadmits =>
    exact hd.of_node hadmits.headed hc rfl rfl hd.contents hd.entryCount hd.nodesWritten
      (hd.budget.of_place hadmits.placed).1 hd.readable
  | unmarked hadmits =>
    -- an entry that got no node leaves the nodes as they are
    have hnodes : (t.start false []).nodes = t.nodes := by
      rw [Transcript.nodes_start, List.append_nil]
    exact hd.of_node hadmits.headed hc rfl rfl hd.contents_begin hd.entryCount
      (by rw [Transcript.record, hnodes]; exact hd.nodesWritten)
      (hd.budget.of_place hadmits.placed).1
      (by rw [Transcript.record, hnodes]; exact hd.readable)
  | unfilled hadmits =>
    have hnodes : (t.start true []).nodes = t.nodes := by
      rw [Transcript.nodes_start, List.append_nil]
    exact hd.of_node hadmits.headed hc rfl rfl hd.contents_startedChunk
      (by rw [Transcript.record, Transcript.countMarked_start]
          exact congrArg (· + 1) hd.entryCount)
      (by rw [Transcript.record, hnodes]; exact hd.nodesWritten)
      (hd.budget.of_place hadmits.placed).1
      (by rw [Transcript.record, hnodes]; exact hd.readable)
  | opened hadmits =>
    have hnodes : (t.start true [n]).nodes = t.nodes ++ [n] := Transcript.nodes_start [n]
    -- the node is added to the part that was just started
    have hcontents : (w.startedChunk.sink.append
        (Wire.delimited (w.provider.encoding.nodeBody n))).contents
          = (t.start true [n]).entries w.provider := by
      rw [MemorySink.contents_append, hd.contents_startedChunk,
        ← Transcript.entries_add (t := t.start true []) (hd.header_isSome hadmits.headed)]
      rfl
    exact hd.of_node hadmits.headed hc rfl rfl hcontents
      (by rw [Transcript.record, Transcript.countMarked_start]
          exact congrArg (· + 1) hd.entryCount)
      (by rw [Transcript.record, hnodes, List.length_append]
          exact congrArg (· + 1) hd.nodesWritten)
      (hd.budget.of_place hadmits.placed).1
      (by rw [Transcript.record, hnodes]; exact hd.readable_snoc hadmits)
  | dropped hadmits =>
    exact hd.of_node hadmits.headed hc rfl rfl hd.contents hd.entryCount hd.nodesWritten
      (hd.budget.of_place hadmits.placed).1 hd.readable
  | added hadmits =>
    exact hd.of_node hadmits.headed hc Transcript.header_add Transcript.torn_add
      (hd.contents_add hadmits.headed n)
      (by rw [Transcript.record, Transcript.countMarked_add]; exact hd.entryCount)
      (by rw [Transcript.record, Transcript.nodes_add, List.length_append]
          exact congrArg (· + 1) hd.nodesWritten)
      (hd.budget.of_place hadmits.placed).1
      (by rw [Transcript.record, Transcript.nodes_add]; exact hd.readable_snoc hadmits)

theorem eq_torn (hd : Describes t w) (hnew : w.headerWritten = false) :
    t = { torn := t.torn } := by
  have hnone : t.header = none :=
    Option.not_isSome_iff_eq_none.1 (by rw [← hd.headed, hnew]; decide)
  obtain ⟨hstrays, hparts⟩ := hd.unheaded hnone
  cases t
  simp_all

theorem tear (hd : Describes t w) (hnew : w.headerWritten = false) {sink : MemorySink}
    {marked : Bool} {call : Nat}
    (hcontents : sink.contents = Transcript.tornEntry w.provider marked :: w.sink.contents)
    (hcall : call < sink.calls) (hfail : sink.failing call = true) :
    Describes { t with torn := marked :: t.torn } { w with sink } where
  contents := by
    rw [hcontents, hd.contents, hd.eq_torn hnew]
    rfl
  headed := hd.headed
  entryCount := hd.entryCount
  nodesWritten := hd.nodesWritten
  budget := hd.budget
  readable := hd.readable
  valid := hd.valid
  unheaded := hd.unheaded
  untorn hquiet := by
    have hno := hquiet call hcall
    rw [hfail] at hno
    cases hno

theorem headerStep (hd : Describes t w) (hstep : w.HeaderStep h o result w') :
    Describes (t.record (.header h) o) w' := by
  have hc := hstep.continues
  cases hstep with
  | refused => exact hd
  | unopened hnew hfail =>
    exact { hd with
      untorn := fun hquiet => hd.untorn fun call hcall => hquiet call (Nat.lt_succ_of_lt hcall) }
  | unmarked hnew hfail =>
    exact hd.tear hnew rfl (Nat.lt_succ_self (w.sink.calls + 1)) hfail
  | unfilled hnew hfail =>
    refine hd.tear hnew ?_ (Nat.lt_succ_self (w.sink.calls + 2)) hfail
    rw [MemorySink.contents_skip, Writer.startedHeader, MemorySink.contents_append]
    rfl
  | opened hnew hvalid =>
    -- so far there is nothing but entries of headers that failed
    have htorn := hd.eq_torn hnew
    have hnodes : t.nodes = [] := by rw [htorn]; rfl
    have hcontents : (w.startedHeader.sink.append (w.provider.encoding.encodeHeader h)).contents
        = ({ t with header := some h } : Transcript).entries w.provider := by
      rw [MemorySink.contents_append, Writer.startedHeader, MemorySink.contents_append,
        MemorySink.contents_begin, hd.contents, htorn]
      simp [Transcript.entries, Transcript.headerEntries, Transcript.partEntries, Writer.version]
    exact {
      contents := hcontents
      headed := rfl
      entryCount := hd.entryCount
      nodesWritten := hd.nodesWritten
      budget := hd.budget
      readable := hd.readable
      valid := fun h' hh' => by cases hh'; exact hvalid
      unheaded := fun hnone => by cases hnone
      untorn := fun hquiet => hd.untorn fun call hcall =>
        hquiet call (Nat.lt_of_lt_of_le hcall hc.calls) }

end Describes
end ScanArchive
