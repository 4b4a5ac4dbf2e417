import EbpfSyscall.Lemmas.RealRun
import EbpfSyscall.Theorems.Simulated

/-!
# Real runs

What holds in every state that the worker threads of a real run can reach, in any order of their steps and for any outcomes of the
operations.
-/

namespace EbpfSyscall.Kvio

open Checked Queue BoardAux RealRunAux

variable {σ : Type}

/-- A state in which the scheduler has gone wrong nowhere and is not stuck. -/
structure RealSafe (ex : Executor σ) (s : RealRun ex.workers) : Prop where
  places : ∀ opId ∈ ex.order, ∃! place, s.At opId place
  performedOnce : s.performedIds.Nodup
  taken : ∀ w t, RealStep ex w .take s t → ∃ task ∈ ex.tasks, ∃ eligible, t.workers w = .taken task.opId eligible ∧
    (∀ d ∈ task.deps, s.At d .finished) ∧ ex.eligibleTime s.board.rows task = .ok eligible ∧ eligible ≤ t.clock - t.t0
  capacity : ∀ opIds : List Text, opIds.Nodup → (∀ opId ∈ opIds, s.At opId .running) → opIds.length ≤ ex.workers
  exited : ∀ w, s.workers w = .exited → ∀ opId ∈ ex.order, s.At opId .finished
  left : (∃ opId ∈ ex.order, ¬s.At opId .finished) → ∃ opId ∈ ex.order, s.At opId .pending ∨ s.At opId .running
  notStuck : (∃ w, s.workers w ≠ .exited) → ∃ w action t, action ≠ .wait ∧ RealStep ex w action s t

namespace RealRunAux

variable {ex : Executor σ} {s : RealRun ex.workers}

/-- An operation is taken once its dependencies have been finished, and not before it is eligible. -/
theorem take_ready (hwf : ex.WellFormed) (h : RealInv ex s) {w : Fin ex.workers} {t : RealRun ex.workers}
    (hstep : RealStep ex w .take s t) : ∃ task ∈ ex.tasks, ∃ eligible, t.workers w = .taken task.opId eligible ∧
      (∀ d ∈ task.deps, s.At d .finished) ∧ ex.eligibleTime s.board.rows task = .ok eligible ∧ eligible ≤ t.clock - t.t0 := by
  cases hstep with
  | @take _ clock entry rest hworker hleft hclock hpending htime hfree =>
    have hentry : entry ∈ s.board.pending := by
      rw [hpending]
      exact List.mem_cons_self
    obtain ⟨hmem, -, hdeps⟩ := (h.board.pending _).mp (List.mem_map_of_mem hentry)
    obtain ⟨task, htask, heligible⟩ := h.board.offers entry hentry
    obtain ⟨task', hin, heq⟩ := mem_order.mp hmem
    obtain rfl : task = task' := by
      rw [← heq, task_of_mem hwf.nodup hin] at htask
      exact (Except.ok.inj htask).symm
    refine ⟨task, hin, entry.time, ?_, ?_, heligible, htime⟩
    · rw [workers_goTo_self, heq]
    · intro d hd
      have hfinished := hdeps d (by rw [depsOf_task htask]; exact hd)
      show d ∈ s.finishedIds
      simpa using hfinished

/-- The operations that run are no more than the workers. -/
theorem running_le (h : RealInv ex s) {opIds : List Text} (hnodup : opIds.Nodup) (hrunning : ∀ opId ∈ opIds, s.At opId .running) :
    opIds.length ≤ ex.workers := by
  have hheld : ∀ opId ∈ opIds, opId ∈ s.takenIds ∧ opId ∉ s.finishedIds := fun opId hin => (h.held opId).mp (hrunning opId hin)
  have hall : (opIds ++ s.finishedIds).Nodup := by
    refine List.nodup_append.mpr ⟨hnodup, h.finishedNodup, ?_⟩
    rintro a ha b hb rfl
    exact (hheld a ha).2 hb
  have hsub : (opIds ++ s.finishedIds).Subperm s.takenIds := by
    refine hall.subperm fun opId hin => ?_
    rcases List.mem_append.mp hin with hin | hin
    · exact (hheld opId hin).1
    · exact h.finishedMem opId hin
  have hle := hsub.length_le
  rw [List.length_append] at hle
  have hcount := h.count
  have hsum := h.running
  have hcapacity := h.capacity
  omega

/-- As long as a thread has not left, some thread can do more than wait. -/
theorem step_of_not_exited (hwf : ex.WellFormed) (h : RealInv ex s) (hleft : ∃ w, s.workers w ≠ .exited) :
    ∃ w action t, action ≠ .wait ∧ RealStep ex w action s t := by
  by_cases hheld : ∃ w opId, (s.workers w).opId? = some opId
  · obtain ⟨w, opId, hworker⟩ := hheld
    obtain ⟨action, t, hne, hstep⟩ := step_of_holds hwf h hworker
    exact ⟨w, action, t, hne, hstep⟩
  · push Not at hheld
    obtain ⟨w, hw⟩ := hleft
    have hidle : s.workers w = .idle := by
      cases hpoint : s.workers w with
      | idle => rfl
      | exited => exact absurd hpoint hw
      | taken opId eligible | submitted opId | performed opId outcome | completed opId =>
        exact absurd (by rw [hpoint]; rfl) (hheld w opId)
    by_cases hall : ex.order.length ≤ s.finished
    · exact ⟨w, .exit, _, by simp, .exit hidle hall⟩
    · -- No thread has an operation, so one is pending; it can be taken once the clock has reached its time.
      have hnone : ∀ opId, ¬s.At opId .running := by
        rintro opId ⟨w', hw'⟩
        exact hheld w' opId hw'
      have hunfinished : ∃ opId ∈ ex.order, ¬s.At opId .finished := by
        by_contra hnot
        push Not at hnot
        have hsub : ex.order.Subperm s.finishedIds := hwf.nodup.subperm hnot
        have hle := hsub.length_le
        rw [← h.count] at hle
        exact hall hle
      obtain ⟨opId, -, hor⟩ := pending_or_running hwf h hunfinished
      have hpending : opId ∈ items s.board.pending := hor.resolve_right (hnone opId)
      have hrunning : s.running = 0 := by
        have hsub : s.takenIds.Subperm s.finishedIds := by
          refine h.takenNodup.subperm fun other hin => ?_
          by_contra hnot
          exact hnone other ((h.held other).mpr ⟨hin, hnot⟩)
        have hle := hsub.length_le
        have hcount := h.count
        have hsum := h.running
        omega
      cases hqueue : s.board.pending with
      | nil =>
        rw [hqueue] at hpending
        cases hpending
      | cons entry rest =>
        have htime : entry.time ≤ max s.clock (entry.time + s.t0) - s.t0 := by
          have hle := le_max_right s.clock (entry.time + s.t0)
          omega
        have hfree : s.running < ex.workers := by
          rw [hrunning]
          exact Fin.pos w
        exact ⟨w, .take, _, by simp, .take hidle (by omega) (le_max_left _ _) hqueue htime hfree⟩

end RealRunAux

/-- In every state that the threads of a real run reach: every operation is waiting for dependencies, pending, running or finished, and
only one of these; none has been performed twice; one is taken only when its dependencies have been finished and it is eligible; at
most as many run as there are workers; a thread has left only if everything is finished; and something can always go on. -/
theorem realRun_safe {H : ContentHost} {intent : Intent2} {backend : FakeBackend} {settings : Settings} {ex : Executor Objects}
    (hex : Executor.ofIntent2 H intent backend settings = .ok ex) (t0 : Int) :
    ∃ first, ex.startReal t0 = .ok first ∧ ∀ s, ex.ReachesReal first s → RealSafe ex s := by
  obtain ⟨hvalid, -, rfl⟩ := ObjectRunAux.ofIntent2_eq_ok.mp hex
  have hwf : (ObjectRunAux.executor H intent backend settings).WellFormed := ObjectRunAux.wellFormed hvalid
  obtain ⟨first, hstart, hinv, honce⟩ := startReal_ok hwf t0
  refine ⟨first, hstart, fun s hreach => ?_⟩
  obtain ⟨h, hperformed⟩ := realInv_of_reach hwf hinv honce hreach
  refine ⟨fun opId hmem => existsUnique_place h hmem, hperformed.performedNodup, fun w t hstep => take_ready hwf h hstep,
    fun opIds hnodup hrunning => running_le h hnodup hrunning, ?_, pending_or_running hwf h, step_of_not_exited hwf h⟩
  intro w hw opId hmem
  exact finished_of_count h (hperformed.exited w hw) opId hmem

theorem realRun_safe_sample : ∃ first, (ObjectRunAux.executor sampleHost sampleIntent sampleBackend {}).startReal 7 = .ok first ∧
    ∀ s, (ObjectRunAux.executor sampleHost sampleIntent sampleBackend {}).ReachesReal first s → RealSafe _ s := by
  have hex : Executor.ofIntent2 sampleHost sampleIntent sampleBackend {} =
      .ok (ObjectRunAux.executor sampleHost sampleIntent sampleBackend {}) :=
    ObjectRunAux.ofIntent2_eq_ok.mpr ⟨validateIntent2_eq_ok.mp sampleIntent_valid, by decide, rfl⟩
  exact realRun_safe hex 7

end EbpfSyscall.Kvio
