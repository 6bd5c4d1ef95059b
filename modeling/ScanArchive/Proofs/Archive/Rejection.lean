import ScanArchive.Proofs.Archive.Run

/-!
# Rejected calls

Over a sink that never fails, a call that is rejected leaves the writer and its sink as they are.
So a run comes to the same end without its rejected calls: `rejected_calls_leave_no_trace`.
-/

namespace ScanArchive

/-! ## 1. Single writes -/

namespace Writer

variable {w w' : Writer MemorySink} {n : Node} {h : Header} {o : Outcome} {e : Error}

theorem HeaderStep.eq_of_error (hf : ∀ call, w.sink.failing call = false)
    (hstep : HeaderStep w h o (.error e) w') : w' = w := by
  cases hstep with
  | refused => rfl
  | unopened _ hfail => rw [hf] at hfail; cases hfail
  | unmarked _ hfail => rw [hf] at hfail; cases hfail
  | unfilled _ hfail => rw [hf] at hfail; cases hfail

theorem NodeStep.eq_of_error (hf : ∀ call, w.sink.failing call = false)
    (hstep : NodeStep w n o (.error e) w') : w' = w := by
  cases hstep with
  | refused => rfl
  | unopened _ hfail => rw [hf] at hfail; cases hfail
  | unmarked _ hfail => rw [hf] at hfail; cases hfail
  | unfilled _ hfail => rw [hf] at hfail; cases hfail
  | dropped _ hfail => rw [hf] at hfail; cases hfail

/-- A writer that some run leads to, over a sink that never fails. -/
structure Quiet (w : Writer MemorySink) : Prop where
  described : ∃ t, Describes t w
  failing : ∀ call, w.sink.failing call = false

namespace Quiet

theorem eq_of_error (hq : w.Quiet) (a : Write) (herror : (a.perform w).1 = .error e) :
    (a.perform w).2 = w := by
  obtain ⟨t, hd⟩ := hq.described
  cases a with
  | header h =>
    have hstep := headerStep h w
    change (writeHeader h w).1 = _ at herror
    rw [herror] at hstep
    exact hstep.eq_of_error hq.failing
  | node n =>
    have hstep := nodeStep n w hd.written_ne_nil
    change (writeNode n w).1 = _ at herror
    rw [herror] at hstep
    exact hstep.eq_of_error hq.failing

theorem after (hq : w.Quiet) (writes : List Write) : (w.after writes).Quiet := by
  obtain ⟨t, hd⟩ := hq.described
  exact ⟨⟨_, hd.replay writes⟩, (hd.continues_after writes).failing ▸ hq.failing⟩

theorem perform (hq : w.Quiet) (r : Request) : (r.perform w).2.Quiet := by
  have hrun := hq.after (Request.runWrites w [r])
  rw [Request.after_runWrites] at hrun
  exact hrun

end Quiet
end Writer

/-! ## 2. Runs without their rejected calls -/

namespace Request

def acceptedFront (w : Writer MemorySink) : List Node → List Node
  | [] => []
  | n :: rest =>
    match Writer.writeNode n w with
    | (.ok (), w') => n :: acceptedFront w' rest
    | (.error _, _) => []

/-- What is accepted of a request: all of it or nothing, or the front of a list. -/
def acceptedPart (w : Writer MemorySink) : Request → List Request
  | header h => if (Writer.writeHeader h w).1 = .ok () then [header h] else []
  | node n => if (Writer.writeNode n w).1 = .ok () then [node n] else []
  | nodes ns => [nodes (acceptedFront w ns)]

/-- What is accepted of some requests, each made on the writer after those before it. -/
def acceptedParts (w : Writer MemorySink) : List Request → List Request
  | [] => []
  | r :: rest => r.acceptedPart w ++ acceptedParts (r.perform w).2 rest

def results (w : Writer MemorySink) : List Request → List (Except Error Unit)
  | [] => []
  | r :: rest => (r.perform w).1 :: results (r.perform w).2 rest

variable {w : Writer MemorySink}

theorem run_append (as bs : List Request) : run w (as ++ bs) = run (run w as) bs :=
  List.foldl_append

theorem results_append (as bs : List Request) :
    results w (as ++ bs) = results w as ++ results (run w as) bs := by
  induction as generalizing w with
  | nil => rfl
  | cons a as ih => rw [List.cons_append, results, ih]; rfl

theorem writeNodes_acceptedFront (hq : w.Quiet) (ns : List Node) :
    Writer.writeNodes (acceptedFront w ns) w = (.ok (), (Writer.writeNodes ns w).2) := by
  induction ns generalizing w with
  | nil => rfl
  | cons n ns ih =>
    rw [acceptedFront, Writer.writeNodes]
    cases hwrite : Writer.writeNode n w with
    | mk result w' =>
      have hperform : (perform (.node n) w).2 = w' := congrArg Prod.snd hwrite
      cases result with
      | error e =>
        have hsame : (perform (.node n) w).2 = w :=
          hq.eq_of_error (.node n) (congrArg Prod.fst hwrite)
        rw [Call.bind_of_error hwrite, ← hperform, hsame]
        rfl
      | ok _ =>
        have hq' : w'.Quiet := hperform ▸ hq.perform (.node n)
        show Writer.writeNodes (n :: acceptedFront w' ns) w = _
        rw [Writer.writeNodes, Call.bind_of_ok hwrite, Call.bind_of_ok hwrite, ih hq']

theorem run_ite {r : Request}
    (hrejected : ∀ e, (r.perform w).1 = .error e → (r.perform w).2 = w) :
    run w (if (r.perform w).1 = .ok () then [r] else []) = (r.perform w).2 ∧
      ∀ result ∈ results w (if (r.perform w).1 = .ok () then [r] else []), result = .ok () := by
  by_cases hok : (r.perform w).1 = .ok ()
  · rw [if_pos hok]
    exact ⟨rfl, fun result hresult => (List.mem_singleton.1 hresult).trans hok⟩
  · rw [if_neg hok]
    refine ⟨?_, fun result hresult => nomatch hresult⟩
    cases hresult : (r.perform w).1 with
    | ok _ => exact absurd hresult hok
    | error e => exact (hrejected e hresult).symm

/-- What is accepted of a request does all that the request does, and is not rejected. -/
theorem run_acceptedPart (hq : w.Quiet) (r : Request) :
    run w (r.acceptedPart w) = (r.perform w).2 ∧
      ∀ result ∈ results w (r.acceptedPart w), result = .ok () := by
  cases r with
  | header h => exact run_ite (r := .header h) fun _ => hq.eq_of_error (.header h)
  | node n => exact run_ite (r := .node n) fun _ => hq.eq_of_error (.node n)
  | nodes ns =>
    have hfront := writeNodes_acceptedFront hq ns
    have hperform : perform (.nodes (acceptedFront w ns)) w
        = (.ok (), (perform (.nodes ns) w).2) := hfront
    refine ⟨?_, fun result hresult => ?_⟩
    · show (perform (.nodes (acceptedFront w ns)) w).2 = _
      rw [hperform]
    · rw [List.mem_singleton.1 hresult, hperform]

theorem run_acceptedParts (hq : w.Quiet) (requests : List Request) :
    run w (acceptedParts w requests) = run w requests ∧
      ∀ result ∈ results w (acceptedParts w requests), result = .ok () := by
  -- request by request; those that are left start from the same writer
  induction requests generalizing w with
  | nil => exact ⟨rfl, fun _ hresult => nomatch hresult⟩
  | cons r rest ih =>
    obtain ⟨hrun, hresults⟩ := run_acceptedPart hq r
    obtain ⟨hrest, hrestResults⟩ := ih (hq.perform r)
    rw [acceptedParts, run_append, results_append, hrun]
    refine ⟨hrest, fun result hresult => ?_⟩
    rcases List.mem_append.1 hresult with hresult | hresult
    · exact hresults result hresult
    · exact hrestResults result hresult

end Request

open Request in
/--
A write that is rejected changes neither the writer nor its sink, whatever was asked for before.
So without what is rejected, a run accepts everything and comes to the same end.
-/
theorem rejected_calls_leave_no_trace {config : WriterConfig} {w : Writer MemorySink}
    (hopen : Writer.ofSink ({} : MemorySink) config = .ok w) (requests : List Request) :
    (∀ (a : Write) (e : Error),
      (a.perform (run w requests)).1 = .error e → (a.perform (run w requests)).2 = run w requests) ∧
    run w (acceptedParts w requests) = run w requests ∧
    ∀ result ∈ results w (acceptedParts w requests), result = .ok () := by
  have hnew := Writer.New.of_ofSink hopen
  have hq : w.Quiet := ⟨⟨_, hnew.describes rfl⟩, by rw [hnew.eq]; exact fun _ => rfl⟩
  have hrun : (run w requests).Quiet := by
    have hafter := hq.after (runWrites w requests)
    rw [after_runWrites] at hafter
    exact hafter
  exact ⟨fun a _ => hrun.eq_of_error a, run_acceptedParts hq requests⟩

/-- A remark that is too long for a chunk takes the rest of its list with it, and nothing else. -/
theorem remarks_leave_no_trace :
    Writer.ofSink ({} : MemorySink) { maxChunkSize := 200 } = .ok .narrow ∧
    Request.run .narrow [.header { id := "abc" }, .nodes [.remark "a"], .node (.remark "c")]
      = Request.run .narrow [.node (.remark "a"), .header { id := "abc" }, .header { id := "abc" },
          .nodes [.remark "a", .remark "sixty letters are too many for a chunk of two hundred bytes",
            .remark "b"], .node (.remark "c")] := by
  have hparts : Request.acceptedParts .narrow [.node (.remark "a"), .header { id := "abc" },
        .header { id := "abc" },
        .nodes [.remark "a", .remark "sixty letters are too many for a chunk of two hundred bytes",
          .remark "b"], .node (.remark "c")]
      = [.header { id := "abc" }, .nodes [.remark "a"], .node (.remark "c")] := by cbv
  have hrun := (rejected_calls_leave_no_trace Writer.ofSink_narrow
    [.node (.remark "a"), .header { id := "abc" }, .header { id := "abc" },
      .nodes [.remark "a", .remark "sixty letters are too many for a chunk of two hundred bytes",
        .remark "b"], .node (.remark "c")]).2.1
  rw [hparts] at hrun
  exact ⟨Writer.ofSink_narrow, hrun⟩

end ScanArchive
