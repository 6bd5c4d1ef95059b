import ScanArchive.Proofs.Archive.Faultless
import ScanArchive.Proofs.Container.Sinks

/-!
# Writers over other sinks

What is written to a sink that keeps its entries is what would be written to a sink in memory, as
long as every call is reported as done.  So whatever is known of the entries of a run over a sink
in memory is known of what any such sink keeps.
-/

namespace ScanArchive.Writer

variable {σ ω α : Type} [Sink σ ω] {kept : σ → List OpenEntry → Prop}

/-! ## 1. Calls that are done -/

section

variable {w w' : Writer σ} {all : List OpenEntry}

omit [Sink σ ω] in
theorem onSink_eq_ok {call : Call σ α} {a : α} (h : onSink call w = (.ok a, w')) :
    ∃ s, call w.sink = (.ok a, s) ∧ w' = { w with sink := s } := by
  obtain ⟨hok, rfl⟩ := Prod.mk.inj h
  exact ⟨_, Prod.ext hok rfl, rfl⟩

variable (hkeeps : Sink.Keeps kept)

include hkeeps

theorem kept_startEntry (hw : kept w.sink all) {name : String} {type : EntryType}
    (h : startEntry name type w = (.ok (), w')) :
    ∃ s, w' = { w with sink := s } ∧
      kept s (OpenEntry.add { name } (Framing.encodePrefix type w.version) :: all) := by
  obtain ⟨_, _, hget, h⟩ := Call.exists_of_bind_eq_ok h
  cases hget
  obtain ⟨⟨⟩, w₁, hstart, hmark⟩ := Call.exists_of_bind_eq_ok h
  obtain ⟨s₁, hstarted, rfl⟩ := onSink_eq_ok hstart
  obtain ⟨s₂, hmarked, rfl⟩ := onSink_eq_ok hmark
  exact ⟨s₂, rfl, hkeeps.writeBytes _ (hkeeps.startEntry name hw hstarted) hmarked⟩

theorem kept_writeHeader (hw : kept w.sink all) {h : Header}
    (hwrite : writeHeader h w = (.ok (), w')) :
    w.headerWritten = false ∧ h.validate = .ok () ∧
    ∃ s, w' = { w with sink := s, headerWritten := true } ∧
      kept s (OpenEntry.add (.add { name := Layout.headerName }
        (Framing.encodePrefix .header w.version)) (w.provider.encoding.encodeHeader h) :: all) := by
  obtain ⟨_, _, hget, hwrite⟩ := Call.exists_of_bind_eq_ok hwrite
  cases hget
  cases hheaded : w.headerWritten with
  | true => rw [hheaded] at hwrite; cases hwrite
  | false =>
    rw [hheaded] at hwrite
    cases hvalid : h.validate with
    | error e => rw [hvalid] at hwrite; cases hwrite
    | ok _ =>
      rw [hvalid] at hwrite
      obtain ⟨_, _, hchecked, hwrite⟩ := Call.exists_of_bind_eq_ok hwrite
      cases hchecked
      obtain ⟨⟨⟩, w₁, hstart, hwrite⟩ := Call.exists_of_bind_eq_ok hwrite
      obtain ⟨s₁, rfl, hstarted⟩ := kept_startEntry hkeeps hw hstart
      obtain ⟨⟨⟩, w₂, hfill, hdone⟩ := Call.exists_of_bind_eq_ok hwrite
      obtain ⟨s₂, hfilled, rfl⟩ := onSink_eq_ok hfill
      cases hdone
      exact ⟨rfl, rfl, s₂, rfl, hkeeps.writeBytes _ hstarted hfilled⟩

theorem kept_put_newEntry (hw : kept w.sink all) {payload : Bytes}
    (hput : put payload .newEntry w = (.ok (), w')) :
    ∃ s, w' = { w with
        sink := s, entryCount := w.entryCount + 1, nodesWritten := w.nodesWritten + 1 } ∧
      kept s (OpenEntry.add (.add { name := Layout.chunkName w.entryCount }
        (Framing.encodePrefix .chunk w.version)) payload :: all) := by
  obtain ⟨⟨⟩, w₁, hchunk, hwrite⟩ := Call.exists_of_bind_eq_ok hput
  obtain ⟨_, _, hget, hchunk⟩ := Call.exists_of_bind_eq_ok hchunk
  cases hget
  obtain ⟨⟨⟩, w₂, hstart, hcount⟩ := Call.exists_of_bind_eq_ok hchunk
  obtain ⟨s₁, rfl, hstarted⟩ := kept_startEntry hkeeps hw hstart
  cases hcount
  obtain ⟨⟨⟩, w₃, hfill, hdone⟩ := Call.exists_of_bind_eq_ok hwrite
  obtain ⟨s₂, hfilled, rfl⟩ := onSink_eq_ok hfill
  cases hdone
  exact ⟨s₂, rfl, hkeeps.writeBytes _ hstarted hfilled⟩

theorem kept_put_currentEntry (hw : kept w.sink all) {payload : Bytes}
    (hput : put payload .currentEntry w = (.ok (), w')) :
    ∃ s, w' = { w with sink := s, nodesWritten := w.nodesWritten + 1 } ∧
      kept s (all.modifyHead (·.add payload)) := by
  obtain ⟨⟨⟩, w₁, hfill, hdone⟩ := Call.exists_of_bind_eq_ok hput
  obtain ⟨s₁, hfilled, rfl⟩ := onSink_eq_ok hfill
  cases hdone
  exact ⟨s₁, rfl, hkeeps.writeBytes _ hw hfilled⟩

end

/-! ## 2. Twins -/

/--
Whether a writer over a sink in memory is the twin of a writer over another sink: they have written
the same entries and are alike in everything else.
-/
structure Twin (kept : σ → List OpenEntry → Prop) (w : Writer σ) (v : Writer MemorySink) :
    Prop where
  eq : v = {
    sink := v.sink
    provider := w.provider
    budget := w.budget
    entryCount := w.entryCount
    nodesWritten := w.nodesWritten
    headerWritten := w.headerWritten }
  kept : kept w.sink v.sink.written
  failing : ∀ call, v.sink.failing call = false
  opened : v.headerWritten = true → v.sink.written ≠ []

namespace Twin

variable {w w' : Writer σ} {v : Writer MemorySink}

omit [Sink σ ω] in
theorem of_ofSink {config : WriterConfig} {sink : σ} (hsink : kept sink [])
    (hopen : ofSink sink config = .ok w) :
    ∃ v, ofSink ({} : MemorySink) config = .ok v ∧ Twin kept w v := by
  cases hvalid : config.validate with
  | error e =>
    rw [ofSink, hvalid] at hopen
    cases hopen
  | ok _ =>
    obtain ⟨p, hp⟩ := config.provider_of_validate hvalid
    rw [ofSink, hvalid, hp] at hopen
    cases hopen
    refine ⟨{ sink := {}, provider := p, budget := .ofSize config.maxChunkSize }, ?_, rfl, hsink,
      fun _ => rfl, fun h => absurd h Bool.false_ne_true⟩
    rw [ofSink, hvalid, hp]
    rfl

variable (hkeeps : Sink.Keeps kept) (ht : Twin kept w v)

include hkeeps ht

theorem writeHeader {h : Header} (hwrite : Writer.writeHeader h w = (.ok (), w')) :
    ∃ v', Writer.writeHeader h v = (.ok (), v') ∧ Twin kept w' v' := by
  obtain ⟨heq, hw, hf, -⟩ := ht
  obtain ⟨hnew, hvalid, s, rfl, hkept⟩ := kept_writeHeader hkeeps hw hwrite
  -- the checks are the same, and no call of the twin fails
  have hopened : v.headerOutcome h = .opened := by
    rw [headerOutcome, heq, hnew, hvalid]
    exact Tidy.opening_eq hf
  have hstep := headerStep h v
  rw [hopened] at hstep
  obtain ⟨m, provider, budget, entryCount, nodesWritten, headerWritten⟩ := v
  cases heq
  generalize hdone : Writer.writeHeader h (_ : Writer MemorySink) = done at hstep ⊢
  obtain ⟨result, v'⟩ := done
  cases hstep
  exact ⟨_, rfl, rfl, hkept, hf, fun _ => List.cons_ne_nil _ _⟩

theorem writeNode {n : Node} (hwrite : Writer.writeNode n w = (.ok (), w')) :
    ∃ v', Writer.writeNode n v = (.ok (), v') ∧ Twin kept w' v' := by
  obtain ⟨heq, hw, hf, hopened⟩ := ht
  rw [writeNode_apply] at hwrite
  cases hadmitted : w.admission n with
  | error e => rw [hadmitted] at hwrite; cases hwrite
  | ok found =>
    obtain ⟨payload, placement, budget⟩ := found
    rw [hadmitted] at hwrite
    obtain ⟨hadmits, rfl⟩ := admits_of_admission hadmitted
    -- the node is admitted by the twin as well, to the same place
    have hadmission : v.admission n
        = .ok (Wire.delimited (w.provider.encoding.nodeBody n), placement, budget) := by
      rw [heq]
      exact hadmitted
    have hstep := nodeStep n v hopened
    rw [nodeOutcome, hadmission] at hstep
    simp only [Tidy.opening_eq hf, hf, Bool.false_eq_true, if_false] at hstep
    generalize hdone : Writer.writeNode n v = done at hstep ⊢
    obtain ⟨result, v'⟩ := done
    obtain ⟨m, provider, budget₀, entryCount, nodesWritten, headerWritten⟩ := v
    cases heq
    cases placement with
    | newEntry =>
      obtain ⟨s, rfl, hkept⟩ := kept_put_newEntry hkeeps (w := { w with budget }) hw hwrite
      cases hstep with
      | opened hadmits' =>
        cases hadmits'.admission_eq.symm.trans hadmission
        exact ⟨_, rfl, rfl, hkept, hf, fun _ => List.cons_ne_nil _ _⟩
    | currentEntry =>
      obtain ⟨s, rfl, hkept⟩ := kept_put_currentEntry hkeeps (w := { w with budget }) hw hwrite
      cases hstep with
      | added hadmits' =>
        cases hadmits'.admission_eq.symm.trans hadmission
        refine ⟨_, rfl, rfl, hkept, hf, fun hheaded hnil => ?_⟩
        rw [MemorySink.append, List.modifyHead_eq_nil_iff] at hnil
        exact hopened hheaded hnil

omit ht in
theorem writeNodes {nodes : List Node} (ht : Twin kept w v)
    (hwrite : Writer.writeNodes nodes w = (.ok (), w')) :
    ∃ v', Writer.writeNodes nodes v = (.ok (), v') ∧ Twin kept w' v' := by
  -- node by node, `writeNode` being the step
  induction nodes generalizing w v with
  | nil =>
    cases hwrite
    exact ⟨v, rfl, ht⟩
  | cons n nodes ih =>
    rw [Writer.writeNodes] at hwrite
    obtain ⟨⟨⟩, w₁, hfirst, hrest⟩ := Call.exists_of_bind_eq_ok hwrite
    obtain ⟨v₁, hfirst', ht₁⟩ := ht.writeNode hkeeps hfirst
    obtain ⟨v', hrest', ht'⟩ := ih ht₁ hrest
    refine ⟨v', ?_, ht'⟩
    rw [Writer.writeNodes, Call.bind_of_ok hfirst']
    exact hrest'

end Twin

end ScanArchive.Writer
