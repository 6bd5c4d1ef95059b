import ScanArchive.Proofs.Archive.Transcript

/-!
# Runs of a writer

A caller writes headers and nodes in any order and goes on after an error.  A run is cut into
single writes, and the transcript of a run is put together from their outcomes; it describes the
writer at the end, and its nodes are those whose writes were reported as done.
-/

namespace ScanArchive

/-! ## 1. Single writes -/

namespace Write

def perform : Write → Call (Writer MemorySink) Unit
  | header h => Writer.writeHeader h
  | node n => Writer.writeNode n

def outcome (w : Writer MemorySink) : Write → Outcome
  | header h => w.headerOutcome h
  | node n => w.nodeOutcome n

def doneNode (w : Writer MemorySink) : Write → Option Node
  | header _ => none
  | node n => if (Writer.writeNode n w).1 = .ok () then some n else none

def doneHeader (w : Writer MemorySink) : Write → Option Header
  | header h => if (Writer.writeHeader h w).1 = .ok () then some h else none
  | node _ => none

end Write

namespace Writer

/-- The writer after some writes, those after an error included. -/
def after (w : Writer MemorySink) (writes : List Write) : Writer MemorySink :=
  writes.foldl (fun w a => (a.perform w).2) w

/-- Each write with the writer that it is made on. -/
def trace (w : Writer MemorySink) : List Write → List (Writer MemorySink × Write)
  | [] => []
  | a :: rest => (w, a) :: trace (a.perform w).2 rest

def doneNodes (w : Writer MemorySink) (writes : List Write) : List Node :=
  (w.trace writes).filterMap fun (w, a) => a.doneNode w

def doneHeaders (w : Writer MemorySink) (writes : List Write) : List Header :=
  (w.trace writes).filterMap fun (w, a) => a.doneHeader w

end Writer

/-! ## 2. Requests of a caller -/

inductive Request where
  | header (h : Header)
  | node (n : Node)
  | nodes (ns : List Node)

namespace Request

def perform : Request → Call (Writer MemorySink) Unit
  | header h => Writer.writeHeader h
  | node n => Writer.writeNode n
  | nodes ns => Writer.writeNodes ns

/-- The nodes of a list that are tried: all, or those up to the first that fails. -/
def tried (w : Writer MemorySink) : List Node → List Node
  | [] => []
  | n :: rest =>
    n :: match Writer.writeNode n w with
      | (.ok (), w') => tried w' rest
      | (.error _, _) => []

def writes (w : Writer MemorySink) : Request → List Write
  | header h => [.header h]
  | node n => [.node n]
  | nodes ns => (tried w ns).map .node

/-- The writer after some requests, those after an error included. -/
def run (w : Writer MemorySink) (requests : List Request) : Writer MemorySink :=
  requests.foldl (fun w r => (r.perform w).2) w

def runWrites (w : Writer MemorySink) : List Request → List Write
  | [] => []
  | r :: rest => r.writes w ++ runWrites (r.perform w).2 rest

/-- The nodes that requests get accepted, in the order in which they were written. -/
def accepted (w : Writer MemorySink) (requests : List Request) : List Node :=
  w.doneNodes (runWrites w requests)

def acceptedHeaders (w : Writer MemorySink) (requests : List Request) : List Header :=
  w.doneHeaders (runWrites w requests)

end Request

section

variable {w : Writer MemorySink}

theorem Writer.after_append (as bs : List Write) : w.after (as ++ bs) = (w.after as).after bs :=
  List.foldl_append

theorem Writer.trace_append (as bs : List Write) :
    w.trace (as ++ bs) = w.trace as ++ (w.after as).trace bs := by
  induction as generalizing w with
  | nil => rfl
  | cons a as ih => rw [List.cons_append, trace, ih]; rfl

theorem Writer.doneNodes_cons (a : Write) (rest : List Write) :
    w.doneNodes (a :: rest) = (a.doneNode w).toList ++ (a.perform w).2.doneNodes rest := by
  rw [doneNodes, trace]
  cases hdone : a.doneNode w <;> simp [doneNodes, hdone]

theorem Writer.doneHeaders_cons (a : Write) (rest : List Write) :
    w.doneHeaders (a :: rest) = (a.doneHeader w).toList ++ (a.perform w).2.doneHeaders rest := by
  rw [doneHeaders, trace]
  cases hdone : a.doneHeader w <;> simp [doneHeaders, hdone]

theorem Request.after_tried (ns : List Node) :
    w.after ((tried w ns).map .node) = (Writer.writeNodes ns w).2 := by
  -- both stop at the first node that fails
  induction ns generalizing w with
  | nil => rfl
  | cons n ns ih =>
    rw [tried, Writer.writeNodes]
    cases hwrite : Writer.writeNode n w with
    | mk result w' =>
      have hperform : (Write.perform (.node n) w).2 = w' := congrArg Prod.snd hwrite
      cases result with
      | error e =>
        rw [Call.bind_of_error hwrite]
        exact hperform
      | ok _ =>
        rw [Call.bind_of_ok hwrite, ← ih, ← hperform]
        rfl

/-- A run makes its single writes one after another. -/
theorem Request.after_runWrites (requests : List Request) :
    w.after (runWrites w requests) = run w requests := by
  induction requests generalizing w with
  | nil => rfl
  | cons r rest ih =>
    have hfirst : w.after (r.writes w) = (r.perform w).2 := by
      cases r with
      | header h => rfl
      | node n => rfl
      | nodes ns => exact after_tried ns
    rw [runWrites, Writer.after_append, hfirst, ih]
    rfl

theorem Request.runWrites_append (as bs : List Request) :
    runWrites w (as ++ bs) = runWrites w as ++ runWrites (run w as) bs := by
  induction as generalizing w with
  | nil => rfl
  | cons a as ih => rw [List.cons_append, runWrites, ih, runWrites, List.append_assoc]; rfl

end

/-! ## 3. Transcripts of runs -/

def Transcript.replay (t : Transcript) (trace : List (Writer MemorySink × Write)) : Transcript :=
  trace.foldl (fun t (w, a) => t.record a (a.outcome w)) t

namespace Describes

variable {t : Transcript} {w : Writer MemorySink}

/-- What a write does is described by its outcome. -/
theorem perform (hd : Describes t w) (a : Write) :
    Describes (t.record a (a.outcome w)) (a.perform w).2 := by
  cases a with
  | header h => exact hd.headerStep (Writer.headerStep h w)
  | node n => exact hd.nodeStep (Writer.nodeStep n w hd.written_ne_nil)

theorem continues_perform (hd : Describes t w) (a : Write) : w.Continues (a.perform w).2 := by
  cases a with
  | header h => exact (Writer.headerStep h w).continues
  | node n => exact (Writer.nodeStep n w hd.written_ne_nil).continues hd.budget

theorem replay (hd : Describes t w) (writes : List Write) :
    Describes (t.replay (w.trace writes)) (w.after writes) := by
  -- write by write, `perform` being the step
  induction writes generalizing t w with
  | nil => exact hd
  | cons a rest ih => exact ih (hd.perform a)

theorem continues_after (hd : Describes t w) (writes : List Write) :
    w.Continues (w.after writes) := by
  induction writes generalizing t w with
  | nil => exact .refl w
  | cons a rest ih => exact (hd.continues_perform a).trans (ih (hd.perform a))

theorem doneNode_eq (hd : Describes t w) (n : Node) :
    (Write.node n).doneNode w
      = if w.nodeOutcome n = .opened ∨ w.nodeOutcome n = .added then some n else none := by
  have hstep := Writer.nodeStep n w hd.written_ne_nil
  rw [Write.doneNode]
  simp only [hstep.result_eq_ok_iff]

theorem nodes_record (hd : Describes t w) (a : Write) :
    (t.record a (a.outcome w)).nodes = t.nodes ++ (a.doneNode w).toList := by
  cases a with
  | header h =>
    rw [Write.outcome, Write.doneNode, Option.toList_none, List.append_nil]
    cases w.headerOutcome h <;> rfl
  | node n =>
    rw [hd.doneNode_eq, Write.outcome]
    cases w.nodeOutcome n with
    | opened => exact Transcript.nodes_start [n]
    | added => exact Transcript.nodes_add
    | unmarked => exact Transcript.nodes_start []
    | unfilled => exact Transcript.nodes_start []
    | refused => exact (List.append_nil _).symm
    | unopened => exact (List.append_nil _).symm
    | dropped => exact (List.append_nil _).symm

theorem nodes_replay (hd : Describes t w) (writes : List Write) :
    (t.replay (w.trace writes)).nodes = t.nodes ++ w.doneNodes writes := by
  induction writes generalizing t w with
  | nil => exact (List.append_nil _).symm
  | cons a rest ih =>
    have hrest := ih (hd.perform a)
    rw [hd.nodes_record, List.append_assoc] at hrest
    rw [Writer.doneNodes_cons]
    exact hrest

theorem header_record (hd : Describes t w) (a : Write) :
    (t.record a (a.outcome w)).header.toList = t.header.toList ++ (a.doneHeader w).toList := by
  cases a with
  | header h =>
    have hstep := Writer.headerStep h w
    rw [Write.doneHeader, Write.outcome]
    simp only [hstep.result_eq_ok_iff]
    cases ho : w.headerOutcome h with
    | opened =>
      -- a header is written only where there is none
      have hnew : w.headerWritten = false := hstep.headerWritten (by rw [ho]; decide)
      rw [hd.eq_torn hnew]
      rfl
    | _ => exact (List.append_nil _).symm
  | node n =>
    rw [Write.doneHeader, Option.toList_none, List.append_nil, Write.outcome]
    cases w.nodeOutcome n with
    | added => exact congrArg Option.toList Transcript.header_add
    | _ => rfl

theorem header_replay (hd : Describes t w) (writes : List Write) :
    (t.replay (w.trace writes)).header.toList = t.header.toList ++ w.doneHeaders writes := by
  induction writes generalizing t w with
  | nil => exact (List.append_nil _).symm
  | cons a rest ih =>
    have hrest := ih (hd.perform a)
    rw [hd.header_record, List.append_assoc] at hrest
    rw [Writer.doneHeaders_cons]
    exact hrest

theorem header_replay_of_some (hd : Describes t w) {h : Header} (hheader : t.header = some h)
    (writes : List Write) : (t.replay (w.trace writes)).header = some h := by
  have hreplay := hd.header_replay writes
  rw [hheader, Option.toList_some, List.singleton_append] at hreplay
  cases hlast : (t.replay (w.trace writes)).header with
  | none => rw [hlast] at hreplay; cases hreplay
  | some h' => rw [hlast] at hreplay; rw [(List.cons.inj hreplay).1]

end Describes

/-! ## 4. New writers -/

namespace WriterConfig

variable {config : WriterConfig}

theorem maxChunkSize_of_validate (h : config.validate = .ok ()) :
    Layout.messageOverhead < config.maxChunkSize ∧ config.maxChunkSize ≤ Layout.maxChunkSize := by
  unfold validate at h
  split at h
  · cases h
  split at h
  · cases h
  split at h
  · cases h
  omega

theorem provider_of_validate (h : config.validate = .ok ()) :
    ∃ p, Registry.builtin.provider config.version = .ok p := by
  have hknown : config.version ∈ Registry.builtin.versions := by
    by_cases hknown : config.version ∈ Registry.builtin.versions
    · exact hknown
    · rw [validate, if_pos hknown] at h
      cases h
  obtain ⟨p, hp, hversion⟩ := List.mem_map.1 hknown
  cases hfound : Registry.builtin.providers.find? (·.version = config.version) with
  | none => exact absurd (by simpa using hversion) (List.find?_eq_none.1 hfound p hp)
  | some q => exact ⟨q, by rw [Registry.provider, hfound]⟩

end WriterConfig

/-- What is known of a writer that was just made. -/
structure Writer.New (config : WriterConfig) (s : MemorySink) (w : Writer MemorySink) : Prop where
  valid : config.validate = .ok ()
  provider : Registry.builtin.provider config.version = .ok w.provider
  eq : w = { sink := s, provider := w.provider, budget := .ofSize config.maxChunkSize }

namespace Writer.New

variable {config : WriterConfig} {s : MemorySink} {w : Writer MemorySink}

theorem of_ofSink (hopen : Writer.ofSink s config = .ok w) : w.New config s := by
  cases hvalid : config.validate with
  | error e =>
    rw [Writer.ofSink, hvalid] at hopen
    cases hopen
  | ok _ =>
    obtain ⟨p, hp⟩ := config.provider_of_validate hvalid
    rw [Writer.ofSink, hvalid, hp] at hopen
    cases hopen
    exact ⟨hvalid, hp, rfl⟩

theorem ofSink_eq (hvalid : config.validate = .ok ()) (s : MemorySink) :
    ∃ w, Writer.ofSink s config = .ok w := by
  obtain ⟨p, hp⟩ := config.provider_of_validate hvalid
  refine ⟨{ sink := s, provider := p, budget := .ofSize config.maxChunkSize }, ?_⟩
  rw [Writer.ofSink, hvalid, hp]
  rfl

theorem version (h : w.New config s) : w.provider.version = config.version :=
  (Registry.provider_of_provider h.provider).1

theorem registered (h : w.New config s) :
    Registry.builtin.provider w.provider.version = .ok w.provider :=
  (Registry.provider_of_provider h.provider).2

theorem ceiling (h : w.New config s) : w.budget.ceiling = config.maxChunkSize := by
  have hle := (config.maxChunkSize_of_validate h.valid).2
  rw [h.eq]
  apply ChunkBudget.saturate_of_le
  · omega
  · simp only [Layout.maxChunkSize, ChunkBudget.maxAmount] at *
    omega

theorem describes (h : w.New config s) (hempty : s.written = []) : Describes {} w := by
  rw [h.eq]
  exact {
    contents := by rw [MemorySink.contents, hempty]; rfl
    headed := rfl
    entryCount := rfl
    nodesWritten := rfl
    budget := ChunkBudget.bounded_ofSize _
    readable := fun n hn => nomatch hn
    valid := fun h hh => nomatch hh
    unheaded := fun _ => ⟨rfl, rfl⟩
    untorn := fun _ => rfl }

end Writer.New

def Writer.fresh (failing : Nat → Bool) : Writer MemorySink :=
  { sink := { failing }, provider := ⟨Layout.version2, .enveloped⟩,
    budget := .ofSize Layout.maxChunkSize }

theorem Writer.ofSink_fresh (failing : Nat → Bool) :
    ofSink ({ failing } : MemorySink) {} = .ok (fresh failing) := rfl

/-- A new writer with chunks so small that two remarks fill one. -/
def Writer.narrow : Writer MemorySink :=
  { sink := {}, provider := ⟨Layout.version2, .enveloped⟩, budget := .ofSize 200 }

theorem Writer.ofSink_narrow :
    ofSink ({} : MemorySink) { maxChunkSize := 200 } = .ok .narrow := rfl

end ScanArchive
