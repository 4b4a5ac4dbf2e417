import EbpfSyscall.Lemmas.Ledger
import EbpfSyscall.Lemmas.TypedRun
import EbpfSyscall.Theorems.Sharding

/-!
# Times in the merged ledger

The clock of a client is the clock of the coordinator plus an offset that the probe has measured. A time in the merged ledger should
say when, after the start of the run and in the clock of the coordinator, the thing happened.
-/

namespace EbpfSyscall.Kvio

open Checked Queue RealRunAux LedgerAux TypedRunAux Option

variable {σ : Type}

namespace ClientRun

/-- A thread submits the operation when the clock of the client reads `reading`; `eligible` is its eligible time in the run. -/
def Submits (run : ClientRun σ) (opId : Text) (eligible reading : Int) : Prop :=
  ∃ s t w, run.ex.ReachesReal run.first s ∧ s.workers w = .taken opId eligible ∧ RealStep run.ex w .submit s t ∧
    run.ex.ReachesReal t run.last ∧ t.clock = reading

/-- The operation is submitted at this reading of the clock of the client. -/
def SubmittedAt (run : ClientRun σ) (opId : Text) (reading : Int) : Prop := ∃ eligible, run.Submits opId eligible reading

/-- The operation is completed at this reading. -/
def CompletedAt (run : ClientRun σ) (opId : Text) (reading : Int) : Prop :=
  ∃ s t w outcome, run.ex.ReachesReal run.first s ∧ s.workers w = .performed opId outcome ∧ RealStep run.ex w .complete s t ∧
    run.ex.ReachesReal t run.last ∧ t.clock = reading

/-- This is the first reading with which the test of the eligible time passes. -/
def EligibleAt (run : ClientRun σ) (opId : Text) (reading : Int) : Prop :=
  ∃ eligible submitted, run.Submits opId eligible submitted ∧ IsLeast {clock | eligible ≤ clock - run.first.t0} reading

end ClientRun

/-- The merged ledger of a coordinated run. -/
def mergedLedger (runs : Assoc Text (ClientRun σ)) (startCoordinatorNs : Int) (offsetNs : Text → Int) : List MergedRow :=
  merge startCoordinatorNs (runs.entries.map fun entry => (entry.1, entry.2.report)) offsetNs

/-- The times of a merged row are those at which the things happened, from the start on and in the clock of the coordinator. -/
structure MergedRow.Accurate (row : MergedRow) (run : ClientRun σ) (startCoordinatorNs offsetNs : Int) : Prop where
  eligible : ∀ reading, run.EligibleAt row.opId reading → row.coordEligibleNs = some (reading - offsetNs - startCoordinatorNs)
  submit : ∀ reading, run.SubmittedAt row.opId reading → row.coordSubmitNs = some (reading - offsetNs - startCoordinatorNs)
  complete : ∀ reading, run.CompletedAt row.opId reading → row.coordCompleteNs = some (reading - offsetNs - startCoordinatorNs)

namespace MergedTimesAux

variable {run : ClientRun σ} {opId : Text} {runs : Assoc Text (ClientRun σ)} {startCoordinatorNs : Int} {offsetNs : Text → Int}
  {reading : Int}

theorem run_wellFormed (run : ClientRun σ) : run.ex.WellFormed := by
  obtain ⟨hvalid, -, hex⟩ := ofWorkload_eq_ok.mp run.accepted
  rw [hex]
  exact wellFormed hvalid

theorem run_inv (run : ClientRun σ) {s : RealRun run.ex.workers} (hreach : run.ex.ReachesReal run.first s) : RealInv run.ex s := by
  obtain ⟨first, hfirst, hinv, honce⟩ := startReal_ok (run_wellFormed run) (run.startClientNs + run.prepareNs)
  obtain rfl := Except.ok.inj (hfirst.symm.trans run.started)
  exact (realInv_of_reach (run_wellFormed run) hinv honce hreach).1

theorem run_t0 (run : ClientRun σ) : run.first.t0 = run.startClientNs + run.prepareNs := by
  have hstarted := run.started
  simp only [Executor.startReal, bind_eq_ok] at hstarted
  obtain ⟨board, -, hfirst⟩ := hstarted
  rw [← Except.ok.inj hfirst]

/-- The row of a submitted operation. -/
theorem row_of_submits {eligible : Int} (h : run.Submits opId eligible reading) : opId ∈ run.ex.order ∧
    (run.last.board.rows opId).eligibleNs = some eligible ∧
      (run.last.board.rows opId).submitNs = some (reading - run.first.t0) := by
  obtain ⟨s, t, w, hbefore, hworker, hstep, hafter, rfl⟩ := h
  have hwf := run_wellFormed run
  have hinv := run_inv run hbefore
  have hset := submitSet_of_submit hinv hworker hstep
  have hlast := reach_kept hwf (fun h hstep hset => submitSet_step hwf h hstep hset) (realInv_step hwf hinv hstep) hset hafter
  rw [← t0_reach hbefore]
  exact ⟨hinv.takenMem opId ((hinv.held opId).mp ⟨w, by rw [hworker]; rfl⟩).1, hlast.eligible, hlast.submit⟩

/-- The row of a completed operation. -/
theorem row_of_completedAt (h : run.CompletedAt opId reading) : opId ∈ run.ex.order ∧
    (run.last.board.rows opId).completeNs = some (reading - run.first.t0) := by
  obtain ⟨s, t, w, outcome, hbefore, hworker, hstep, hafter, rfl⟩ := h
  have hwf := run_wellFormed run
  have hinv := run_inv run hbefore
  have hset := completeSet_of_complete hinv hworker hstep
  have hlast := reach_kept hwf (fun h hstep hset => completeSet_step hwf h hstep hset) (realInv_step hwf hinv hstep) hset hafter
  rw [← t0_reach hbefore]
  exact ⟨hinv.takenMem opId ((hinv.held opId).mp ⟨w, by rw [hworker]; rfl⟩).1, hlast.complete⟩

/-- The merged row of an operation of a client. -/
def rowOf (run : ClientRun σ) (client opId : Text) (startCoordinatorNs offsetNs : Int) : MergedRow :=
  let coord (time : Int) : Int := time + run.startClientNs - offsetNs - startCoordinatorNs
  { client, opId
    row := run.last.board.rows opId
    coordEligibleNs := (run.last.board.rows opId).eligibleNs.map coord
    coordSubmitNs := (run.last.board.rows opId).submitNs.map coord
    coordCompleteNs := (run.last.board.rows opId).completeNs.map coord }

theorem mem_mergedLedger {row : MergedRow} : row ∈ mergedLedger runs startCoordinatorNs offsetNs ↔
    ∃ client run, runs.get client = some run ∧ ∃ opId ∈ run.ex.order,
      row = rowOf run client opId startCoordinatorNs (offsetNs client) := by
  simp only [mergedLedger, merge, List.mem_flatMap, List.mem_map, Assoc.get_eq_some_iff]
  constructor
  · rintro ⟨_, ⟨⟨client, run⟩, hentry, rfl⟩, ⟨opId, clientRow⟩, hmem, rfl⟩
    obtain ⟨opId', hin, heq⟩ := List.mem_map.mp hmem
    obtain ⟨rfl, rfl⟩ := Prod.mk.inj heq
    exact ⟨client, run, hentry, opId', hin, rfl⟩
  · rintro ⟨client, run, hentry, opId, hin, rfl⟩
    exact ⟨_, ⟨(client, run), hentry, rfl⟩, (opId, run.last.board.rows opId), List.mem_map.mpr ⟨opId, hin, rfl⟩, rfl⟩

/-- The row is accurate if the client did not prepare for any time. -/
theorem rowOf_accurate {client : Text} {offset : Int} (hready : run.prepareNs = 0) :
    (rowOf run client opId startCoordinatorNs offset).Accurate run startCoordinatorNs offset := by
  have ht0 : run.first.t0 = run.startClientNs := by rw [run_t0, hready, add_zero]
  refine ⟨?_, ?_, ?_⟩
  · rintro reading ⟨eligible, submitted, hsubmits, hleast⟩
    have hreading : reading = run.startClientNs + eligible := by
      have hmem : eligible ≤ reading - run.first.t0 := hleast.1
      have hle : reading ≤ run.first.t0 + eligible := hleast.2 (show eligible ≤ _ - run.first.t0 by omega)
      omega
    have hrow : (run.last.board.rows opId).eligibleNs = some eligible := (row_of_submits hsubmits).2.1
    simp only [rowOf, hrow, map_some, hreading, some.injEq]
    omega
  · rintro reading ⟨eligible, hsubmits⟩
    have hrow : (run.last.board.rows opId).submitNs = some (reading - run.first.t0) := (row_of_submits hsubmits).2.2
    simp only [rowOf, hrow, map_some, ht0, some.injEq]
    omega
  · intro reading hcompleted
    have hrow : (run.last.board.rows opId).completeNs = some (reading - run.first.t0) := (row_of_completedAt hcompleted).2
    simp only [rowOf, hrow, map_some, ht0, some.injEq]
    omega

/-- A client whose row is accurate and that submitted or completed the operation did not prepare for any time. -/
theorem prepareNs_eq_zero {client : Text} {offset : Int}
    (haccurate : (rowOf run client opId startCoordinatorNs offset).Accurate run startCoordinatorNs offset)
    (h : run.SubmittedAt opId reading ∨ run.CompletedAt opId reading) : run.prepareNs = 0 := by
  have ht0 := run_t0 run
  rcases h with ⟨eligible, hsubmits⟩ | hcompleted
  · have htime := haccurate.submit reading ⟨eligible, hsubmits⟩
    simp only [rowOf, (row_of_submits hsubmits).2.2, map_some, some.injEq] at htime
    omega
  · have htime := haccurate.complete reading hcompleted
    simp only [rowOf, (row_of_completedAt hcompleted).2, map_some, some.injEq] at htime
    omega

theorem mem_order_of_timed (h : run.SubmittedAt opId reading ∨ run.CompletedAt opId reading) : opId ∈ run.ex.order := by
  rcases h with ⟨eligible, hsubmits⟩ | hcompleted
  · exact (row_of_submits hsubmits).1
  · exact (row_of_completedAt hcompleted).1

/-- From its start, an executor with an operation and a worker can go on to a submission. -/
theorem exists_submit {ex : Executor σ} (hwf : ex.WellFormed) (hsome : ex.order ≠ []) (hworkers : 0 < ex.workers) (t0 : Int) :
    ∃ first s t w opId eligible, ex.startReal t0 = .ok first ∧ ex.ReachesReal first s ∧
      s.workers w = .taken opId eligible ∧ RealStep ex w .submit s t := by
  obtain ⟨board, hboard, -, hinv⟩ := BoardAux.boardInv_start hwf
  obtain ⟨opId, hmem, -, hor⟩ := BoardAux.BoardInv.progress hwf hinv (by
    obtain ⟨opId, hmem⟩ := List.exists_mem_of_ne_nil _ hsome
    exact ⟨opId, hmem, rfl⟩)
  have hpending : ∃ entry rest, board.pending = entry :: rest := by
    rcases hor with hin | htaken
    · exact List.exists_cons_of_ne_nil fun hnil => by simp [items, hnil] at hin
    · cases htaken
  obtain ⟨entry, rest, hpending⟩ := hpending
  let first : RealRun ex.workers :=
    { board, running := 0, finished := 0, t0, clock := t0, workers := fun _ => .idle, takenIds := [], performedIds := []
      finishedIds := [] }
  have htake : RealStep ex ⟨0, hworkers⟩ .take first _ :=
    .take rfl (List.length_pos_of_ne_nil hsome) (show t0 ≤ t0 + max 0 entry.time by omega) hpending
      (show entry.time ≤ t0 + max 0 entry.time - t0 by omega) hworkers
  refine ⟨first, _, _, ⟨0, hworkers⟩, entry.item, entry.time, ?_, .single ⟨_, _, htake⟩, workers_goTo_self _ _ _,
    .submit (workers_goTo_self _ _ _) (le_refl _)⟩
  rw [Executor.startReal, hboard]
  rfl

/-- A client with the workload, that submits an operation after any time of preparation. -/
theorem exists_run {wl : Workload3} (hvalid : Workload3.Valid wl) (hsome : wl.operations ≠ []) (startClientNs : Int)
    {prepareNs : Int} (hprepare : 0 ≤ prepareNs) : ∃ run : ClientRun Unit, run.prepareNs = prepareNs ∧
      ∃ opId reading, run.SubmittedAt opId reading := by
  let perform : Operation3 → Unit → Except PyError (Outcome × Unit) := fun _ s => .ok (⟨.success, 0, []⟩, s)
  have hwf : (wl.executor {} perform fun _ => 1).WellFormed := wellFormed hvalid
  have hsomeIds : (wl.executor {} perform fun _ => 1).order ≠ [] := by
    rw [order_eq]
    simpa using hsome
  obtain ⟨first, s, t, w, opId, eligible, hfirst, hreach, hworker, hstep⟩ :=
    exists_submit hwf hsomeIds (by decide : 0 < (max 1 (8 : Int)).toNat) (startClientNs + prepareNs)
  exact ⟨{ shard := wl, settings := {}, perform, serviceNs := fun _ => 1, ex := _,
           accepted := ofWorkload_eq_ok.mpr ⟨hvalid, by simp, rfl⟩
           startClientNs, prepareNs, prepareNs_nonneg := hprepare, first, last := t, started := hfirst
           reaches := hreach.tail ⟨w, _, hstep⟩ }, rfl, opId, t.clock, eligible, s, t, w, hreach, hworker, hstep, .refl, rfl⟩

end MergedTimesAux

open MergedTimesAux

/-- The merged ledger tells the times of all clients exactly if no client that submits or completes an operation prepares for any time
between the reading of its clock and the start of its executor. -/
theorem mergedLedger_accurate (runs : Assoc Text (ClientRun σ)) (startCoordinatorNs : Int) (offsetNs : Text → Int) :
    (∀ row ∈ mergedLedger runs startCoordinatorNs offsetNs, ∀ run, runs.get row.client = some run →
      row.Accurate run startCoordinatorNs (offsetNs row.client)) ↔
    ∀ client run, runs.get client = some run →
      (∃ opId reading, run.SubmittedAt opId reading ∨ run.CompletedAt opId reading) → run.prepareNs = 0 := by
  constructor
  · rintro haccurate client run hrun ⟨opId, reading, htimed⟩
    have hrow : rowOf run client opId startCoordinatorNs (offsetNs client) ∈ mergedLedger runs startCoordinatorNs offsetNs :=
      mem_mergedLedger.mpr ⟨client, run, hrun, opId, mem_order_of_timed htimed, rfl⟩
    exact prepareNs_eq_zero (haccurate _ hrow run hrun) htimed
  · intro hready row hrow run hrun
    obtain ⟨client, other, hget, opId, -, rfl⟩ := mem_mergedLedger.mp hrow
    obtain rfl : other = run := Option.some.inj (hget.symm.trans hrun)
    by_cases htimed : ∃ opId reading, other.SubmittedAt opId reading ∨ other.CompletedAt opId reading
    · exact rowOf_accurate (hready client other hget htimed)
    · refine ⟨?_, ?_, ?_⟩
      · rintro reading ⟨eligible, submitted, hsubmits, -⟩
        exact absurd ⟨_, submitted, Or.inl ⟨eligible, hsubmits⟩⟩ htimed
      · intro reading hsubmitted
        exact absurd ⟨_, reading, Or.inl hsubmitted⟩ htimed
      · intro reading hcompleted
        exact absurd ⟨_, reading, Or.inr hcompleted⟩ htimed

/-- A client that prepares for one unit of time and submits an operation has a row that says so too early. -/
theorem mergedLedger_early : ∃ (runs : Assoc Text (ClientRun Unit)) (startCoordinatorNs : Int) (offsetNs : Text → Int),
    ∃ row ∈ mergedLedger runs startCoordinatorNs offsetNs, ∃ run, runs.get row.client = some run ∧
      ¬row.Accurate run startCoordinatorNs (offsetNs row.client) := by
  have haccepted : validateWorkload sampleWorkload = .ok () := by decide +kernel
  have hvalid : Workload3.Valid sampleWorkload := validateWorkload_eq_ok.mp haccepted
  obtain ⟨run, hprepare, opId, reading, hsubmitted⟩ := exists_run hvalid (by simp [sampleWorkload]) 0 (show (0 : Int) ≤ 1 by decide)
  refine ⟨Assoc.empty.set "c0".toList run, 0, fun _ => 0, rowOf run "c0".toList opId 0 0,
    mem_mergedLedger.mpr ⟨_, run, Assoc.get_set_self _ _ _, opId, mem_order_of_timed (Or.inl hsubmitted), rfl⟩, run,
    Assoc.get_set_self _ _ _, fun haccurate => ?_⟩
  have hzero := prepareNs_eq_zero haccurate (Or.inl hsubmitted)
  omega

end EbpfSyscall.Kvio
