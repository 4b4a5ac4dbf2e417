import EbpfSyscall.Lemmas.CoordinatorRun
import EbpfSyscall.Theorems.MergedTimes
import EbpfSyscall.Theorems.RealRun

/-!
# Coordinated runs

A coordinated run that ends as complete had every client exactly once and all the rows, whatever the interleaving of the connections
and whatever the clients did.
-/

namespace EbpfSyscall.Kvio

open Checked Coordinator CoordinatorState CoordinatorRunAux List Finset Assoc

/-- What a client did in a complete run: it got its slot once, was ready before anybody was told to start, and was done after that. -/
structure TookPart (client : Text) (log : List RunEvent) : Prop where
  once : log.count (.claimed client) = 1
  inOrder : ∃ before after, log = before ++ after ∧ .ready client ∈ before ∧ (∀ c, .started c ∉ before) ∧ .started client ∈ after ∧
    .done client ∈ after

/-- Something went wrong with a client: it never got its slot, it was not ready or not done when it was asked, or a second connection
in its name was turned away before the final check. -/
def WentWrong (client : Text) (log : List RunEvent) : Prop :=
  .claimed client ∉ log ∨ .notReady client ∈ log ∨ .noResult client ∈ log ∨ .turnedAway client ∈ log.takeWhile (· ≠ .finalCheck)

namespace CoordinatorRunAux

variable {co : Coordination} {s : CoordinatorState} {rows : List MergedRow} {client : Text}

/-- In a run that has received everything, the results are those of all clients. -/
theorem mem_results (h : ThreadInv co s) (hreceived : Received co s [] .complete) : client ∈ s.results.keys ↔ client ∈ co.clients := by
  constructor
  · intro hin
    obtain ⟨report, hget⟩ := mem_keys_iff.mp hin
    exact mem_shards.mp (h.known client (hreceived.honest client report hget).1)
  · intro hclient
    obtain ⟨i, hi⟩ := hreceived.underway.allReady client hclient
    obtain ⟨front, hfront, hdone⟩ := hreceived.done
    have hentry := get_eq_some_iff.mp (h.slots i client (by rw [hi]; rfl))
    rw [hfront, append_nil] at hentry
    exact (hdone rfl _ hentry).1

theorem tookPart (h : ThreadInv co s) (hreceived : Received co s [] .complete) (hclient : client ∈ co.clients) : TookPart client s.log := by
  obtain ⟨i, hi⟩ := hreceived.underway.allReady client hclient
  have hget := h.slots i client (by rw [hi]; rfl)
  refine ⟨?_, ?_⟩
  · rw [h.claims, if_pos (mem_keys_iff.mpr ⟨i, hget⟩)]
  · obtain ⟨before, after, hlog, hready, hnone⟩ := hreceived.underway.inOrder
    obtain ⟨front, hfront, hdone⟩ := hreceived.done
    have hentry := get_eq_some_iff.mp hget
    have hstarted := hreceived.started _ hentry
    rw [hfront, append_nil] at hentry
    have hfinished := (hdone rfl _ hentry).2
    rw [hlog] at hstarted hfinished
    exact ⟨before, after, hlog, hready client hclient, fun c => (hnone c).1,
      (mem_append.mp hstarted).resolve_left (hnone client).1, (mem_append.mp hfinished).resolve_left (hnone client).2⟩

/-- The ids of the rows that a client reports are those of its shard. -/
theorem reports_rows {report : Report} (h : co.Reports client report) :
    ∃ shard, co.shards.get client = some shard ∧ report.rows.map Prod.fst = shard.operations.map Operation3.opId := by
  obtain ⟨σ, run, hshard, -, rfl⟩ := h
  have hids : run.report.rows.map Prod.fst = run.ex.order := by
    rw [ClientRun.report, List.map_map]
    exact map_id _
  obtain ⟨-, -, hex⟩ := TypedRunAux.ofWorkload_eq_ok.mp run.accepted
  refine ⟨run.shard, hshard, ?_⟩
  rw [hids, hex, TypedRunAux.order_eq]

/-- The ids of the operations of a client. -/
def idsOf (co : Coordination) (client : Text) : List Text := ((co.shards.get client).elim [] Workload3.operations).map Operation3.opId

/-- The merged ledger has one row for each operation. -/
theorem rows_perm (h : ThreadInv co s) (hreceived : Received co s [] .complete) (offsetNs : Text → Int) :
    ((merge s.startCoordinatorNs s.results.entries offsetNs).map MergedRow.opId).Perm (co.wl.operations.map Operation3.opId) := by
  obtain ⟨owner, hsharded⟩ := shardWorkload_eq_ok co.accepted
  have hrows : (merge s.startCoordinatorNs s.results.entries offsetNs).map MergedRow.opId = s.results.keys.flatMap (idsOf co) := by
    rw [merge, List.map_flatMap, Assoc.keys, List.flatMap_map]
    refine List.flatMap_congr fun entry hentry => ?_
    obtain ⟨shard, hshard, hids⟩ := reports_rows (hreceived.honest _ _ (Assoc.get_eq_some_iff.mpr hentry)).2
    rw [idsOf, hshard, List.map_map]
    exact hids
  have hshards : co.shards.keys.flatMap (idsOf co) =
      (co.shards.entries.flatMap fun entry => entry.2.operations.map Operation3.unnumbered).map Operation3.opId := by
    rw [List.map_flatMap, Assoc.keys, List.flatMap_map]
    refine List.flatMap_congr fun entry hentry => ?_
    rw [idsOf, Assoc.get_eq_some_iff.mpr hentry, List.map_map]
    rfl
  have hkeys : s.results.keys.Perm co.shards.keys :=
    (List.perm_ext_iff_of_nodup s.results.nodup co.shards.nodup).mpr fun client =>
      (mem_results h hreceived).trans mem_shards.symm
  have htogether := hsharded.partitions_default.together.map Operation3.opId
  rw [hrows]
  refine (hkeys.flatMap_right _).trans ?_
  rw [hshards]
  refine htogether.trans (List.Perm.of_eq ?_)
  rw [List.map_map]
  rfl

end CoordinatorRunAux

/-- A run that ends as complete had every client once, in order, and has one row for each operation; it does not end as complete if
something went wrong with a client. -/
theorem coordinatorRun_complete {co : Coordination} {s : CoordinatorState} (hreach : co.Reaches s) {status : RunStatus}
    {rows : List MergedRow} (hended : s.main = .ended status rows) :
    (status = .complete → (∀ client ∈ co.clients, TookPart client s.log) ∧
      (rows.map MergedRow.opId).Perm (co.wl.operations.map Operation3.opId)) ∧
    ((∃ client ∈ co.clients, WentWrong client s.log) → status ≠ .complete) := by
  obtain ⟨hthreads, hmain⟩ := inv_of_reaches hreach
  rw [hended] at hmain
  refine ⟨?_, ?_⟩
  · rintro rfl
    obtain ⟨hreceived, -, offsetNs, rfl⟩ := hmain rfl
    exact ⟨fun client hclient => tookPart hthreads hreceived hclient, rows_perm hthreads hreceived offsetNs⟩
  · rintro ⟨client, hclient, hwrong⟩ rfl
    obtain ⟨hreceived, hchecked, -⟩ := hmain rfl
    rcases hwrong with hnever | hnotReady | hnoResult | hturned
    · have hone := (tookPart hthreads hreceived hclient).once
      rw [List.count_eq_zero.mpr hnever] at hone
      cases hone
    · obtain ⟨i, hi⟩ := hreceived.underway.allReady client hclient
      obtain ⟨reply, hreply⟩ := (hthreads.refused client hnotReady).2 i (by rw [hi]; rfl)
      rw [hi] at hreply
      cases hreply
    · exact hreceived.noneFailed rfl client hnoResult
    · exact hchecked.noneTurnedAway rfl client hturned

/-! ## A run to the end -/

namespace CoordinatorRunAux

open Queue RealRunAux LedgerAux TypedRunAux

section Finishing

variable {σ : Type} {ex : Executor σ} {n : Nat} {s t : RealRun n} {w : Fin n} {action : Action}

/-- How many steps a thread is from leaving, with the operation that it has. -/
def stepsLeft : Worker → Nat
  | .exited => 0
  | .idle => 1
  | .completed _ => 2
  | .performed _ _ => 3
  | .submitted _ => 4
  | .taken _ _ => 5

/-- How many steps are left at most, waiting apart. -/
def RunLeft (ex : Executor σ) (s : RealRun n) : Nat := 6 * (ex.order.length - s.takenIds.length) + ∑ w, stepsLeft (s.workers w)

theorem sum_goTo (s : RealRun n) (w : Fin n) (worker : Worker) : ∑ w', stepsLeft ((s.goTo w worker).workers w') + stepsLeft (s.workers w) =
      ∑ w', stepsLeft (s.workers w') + stepsLeft worker := by
  have hrest : ∑ w' ∈ univ.erase w, stepsLeft ((s.goTo w worker).workers w') =
      ∑ w' ∈ univ.erase w, stepsLeft (s.workers w') :=
    sum_congr rfl fun w' hw' => by rw [workers_goTo_of_ne _ (ne_of_mem_erase hw')]
  rw [← add_sum_erase _ _ (mem_univ w), hrest, workers_goTo_self,
    ← add_sum_erase _ (fun w' => stepsLeft (s.workers w')) (mem_univ w)]
  omega

theorem sum_goTo_lt {before worker : Worker} (hworker : s.workers w = before) (h : stepsLeft worker < stepsLeft before) :
    ∑ w', stepsLeft ((s.goTo w worker).workers w') < ∑ w', stepsLeft (s.workers w') := by
  have hsum := sum_goTo s w worker
  rw [hworker] at hsum
  omega

/-- Every step but waiting leaves less to do. -/
theorem runLeft_step (h : RealInv ex s) (hstep : RealStep ex w action s t) (hne : action ≠ .wait) : RunLeft ex t < RunLeft ex s := by
  cases hstep with
  | @take _ clock entry rest hworker hleft hclock hpending htime hfree =>
    have hfresh := take_fresh h hpending
    have hroom : s.takenIds.length < ex.order.length := by
      have hall : (entry.item :: s.takenIds).Nodup := nodup_cons.mpr ⟨hfresh, h.takenNodup⟩
      have hentry : entry.item ∈ items s.board.pending := by
        rw [hpending]
        exact mem_cons_self
      have hmem := ((h.board.pending _).mp hentry).1
      exact (hall.subperm (cons_subset.mpr ⟨hmem, fun opId hin => h.takenMem opId hin⟩)).length_le
    have hsum : ∑ w', stepsLeft ((s.goTo w (.taken entry.item entry.time)).workers w') + 1 = ∑ w', stepsLeft (s.workers w') + 5 := by
      have hsum := sum_goTo s w (.taken entry.item entry.time)
      rwa [hworker] at hsum
    have hlength : (s.takenIds ++ [entry.item]).length = s.takenIds.length + 1 := by simp
    show 6 * (ex.order.length - (s.takenIds ++ [entry.item]).length) +
      ∑ w', stepsLeft ((s.goTo w (.taken entry.item entry.time)).workers w') < 6 * (ex.order.length - s.takenIds.length) + _
    rw [hlength]
    omega
  | wait => exact absurd rfl hne
  | exit hworker hall | submit hworker hclock | perform hworker outcome | complete hworker hclock | finish hworker hwake =>
    exact Nat.add_lt_add_left (sum_goTo_lt hworker (Nat.lt_add_one _)) _

end Finishing

/-- From every state of a run, the threads can go on until all have left. -/
theorem exists_exited {σ : Type} {ex : Executor σ} (hwf : ex.WellFormed) {s : RealRun ex.workers} (h : RealInv ex s) :
    ∃ t, ex.ReachesReal s t ∧ ∀ w, t.workers w = .exited := by
  induction hleft : RunLeft ex s using Nat.strong_induction_on generalizing s with
  | _ left ih =>
    by_cases hall : ∀ w, s.workers w = .exited
    · exact ⟨s, .refl, hall⟩
    · push Not at hall
      obtain ⟨w, action, t, hne, hstep⟩ := step_of_not_exited hwf h hall
      obtain ⟨last, hreach, hexited⟩ := ih _ (hleft ▸ runLeft_step h hstep hne) (realInv_step hwf h hstep) rfl
      exact ⟨last, .head ⟨w, action, hstep⟩ hreach, hexited⟩

/-- A client can report on any accepted shard. -/
theorem exists_reports {co : Coordination} {client : Text} {shard : Workload3} (hget : co.shards.get client = some shard)
    (hvalid : Workload3.Valid shard) : ∃ report, co.Reports client report := by
  let perform : Operation3 → Unit → Except PyError (Outcome × Unit) := fun _ s => .ok (⟨.success, 0, []⟩, s)
  have hwf : (shard.executor {} perform fun _ => 1).WellFormed := wellFormed hvalid
  obtain ⟨first, hfirst, hinv, -⟩ := startReal_ok hwf 0
  obtain ⟨last, hreach, hexited⟩ := exists_exited hwf hinv
  exact ⟨_, Unit, { shard, settings := {}, perform, serviceNs := fun _ => 1, ex := _
                    accepted := ofWorkload_eq_ok.mpr ⟨hvalid, by simp, rfl⟩
                    startClientNs := 0, prepareNs := 0, prepareNs_nonneg := le_refl 0, first, last, started := hfirst
                    reaches := hreach }, hget, hexited, rfl⟩

end CoordinatorRunAux

/-- One client that runs both operations. -/
theorem coordinatorRun_complete_sample : ∃ (co : Coordination) (s : CoordinatorState) (rows : List MergedRow), co.Reaches s ∧
    s.main = .ended .complete rows ∧ (∀ client ∈ co.clients, TookPart client s.log) ∧
      (rows.map MergedRow.opId).Perm (sampleWorkload.operations.map Operation3.opId) := by
  have hany : (shardWorkload sampleWorkload ["c0".toList] none).toOption.any (fun _ => true) = true := by decide +kernel
  obtain ⟨⟨shards, used⟩, haccepted, -⟩ := exists_ok_of_any hany
  let co : Coordination := ⟨sampleWorkload, ["c0".toList], shards, used, haccepted⟩
  have hknown : "c0".toList ∈ co.shards.keys := mem_shards.mpr List.mem_cons_self
  obtain ⟨report, hreport⟩ : ∃ report, co.Reports "c0".toList report := by
    obtain ⟨owner, hsharded⟩ := shardWorkload_eq_ok haccepted
    obtain ⟨shard, hshard, hget⟩ := hsharded.shards_get List.mem_cons_self
    exact exists_reports hget (shardFor_eq_ok hshard).2
  have hprobe : probeClock (List.replicate probes ⟨0, 0, 0⟩) = .ok ⟨0, 0, 0, 0, none, none⟩ := by decide +kernel
  obtain ⟨s, rows, hreach, hended⟩ : ∃ s rows, co.Reaches s ∧ s.main = .ended .complete rows := by
    have hclaimed : co.Reaches _ := .tail (.tail (.tail .refl (Or.inl ⟨0, .accept rfl⟩))
      (Or.inl ⟨0, .hello "c0".toList (sessions_goTo_self _ _ _)⟩))
      (Or.inl ⟨0, .claim (sessions_goTo_self _ _ _) rfl hknown List.not_mem_nil⟩)
    have hready : co.Reaches _ := .tail (.tail (.tail hclaimed (Or.inl ⟨0, .ready (sessions_goTo_self _ _ _)⟩))
      (Or.inl ⟨0, .lock (sessions_goTo_self _ _ _) rfl⟩))
      (Or.inl ⟨0, .probed (sessions_goTo_self _ _ _) List.length_replicate hprobe⟩)
    have hstarted : co.Reaches _ := .tail (.tail (.tail (.tail (.tail (.tail hready (Or.inr (.wait rfl))) (Or.inr (.allClaimed rfl rfl)))
      (Or.inr (.noFailure rfl rfl))) (Or.inr (.start 0 rfl rfl))) (Or.inr (.send rfl))) (Or.inr (.sent rfl))
    have hchecked : co.Reaches _ := .tail (.tail (.tail hstarted (Or.inr (.done rfl hreport false))) (Or.inr (.received rfl)))
      (Or.inr (.clean rfl rfl))
    refine ⟨_, _, .tail hchecked (Or.inr (@MainStep.merge _ _ _ (fun _ => 0) rfl ?_)), rfl⟩
    intro client hclient
    rw [show client = "c0".toList from List.mem_singleton.mp hclient]
    exact ⟨_, rfl, rfl⟩
  have hcomplete := (coordinatorRun_complete hreach hended).1 rfl
  exact ⟨co, s, rows, hreach, hended, hcomplete⟩

end EbpfSyscall.Kvio
