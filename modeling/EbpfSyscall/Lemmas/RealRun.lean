import EbpfSyscall.Kvio.RealRun
import EbpfSyscall.Lemmas.Simulated

/-!
# Interleavings of the workers

The operations that the threads hold are those that were taken and have not been finished, each by one thread. Every step of every
thread keeps this, and what the board says of the operations that were taken and finished.
-/

namespace EbpfSyscall.Kvio

open Checked Queue BoardAux List Function

variable {σ : Type}

/-- What ties the threads, the board and the counters together. -/
structure RealInv (ex : Executor σ) {n : Nat} (s : RealRun n) : Prop where
  board : BoardInv ex s.board (fun opId => decide (opId ∈ s.takenIds)) (fun opId => decide (opId ∈ s.finishedIds))
  takenNodup : s.takenIds.Nodup
  takenMem : ∀ opId ∈ s.takenIds, opId ∈ ex.order
  finishedNodup : s.finishedIds.Nodup
  finishedMem : ∀ opId ∈ s.finishedIds, opId ∈ s.takenIds
  count : s.finished = s.finishedIds.length
  running : s.running + s.finished = s.takenIds.length
  capacity : s.running ≤ ex.workers
  held : ∀ opId, (∃ w, (s.workers w).opId? = some opId) ↔ opId ∈ s.takenIds ∧ opId ∉ s.finishedIds
  heldOnce : ∀ w w' opId, (s.workers w).opId? = some opId → (s.workers w').opId? = some opId → w = w'
  completed : ∀ opId ∈ s.finishedIds, (s.board.rows opId).completeNs.isSome = true
  toFinish : ∀ w opId, s.workers w = .completed opId → (s.board.rows opId).completeNs.isSome = true

/-- What ties the threads to the operations that have been performed, and to the end. -/
structure RealOnce (ex : Executor σ) {n : Nat} (s : RealRun n) : Prop where
  performedNodup : s.performedIds.Nodup
  performedMem : ∀ opId ∈ s.performedIds, opId ∈ s.takenIds
  toPerform : ∀ w opId, ((∃ eligible, s.workers w = .taken opId eligible) ∨ s.workers w = .submitted opId) →
    opId ∉ s.performedIds
  exited : ∀ w, s.workers w = .exited → ex.order.length ≤ s.finished

namespace RealRunAux

variable {ex : Executor σ} {n : Nat} {s t : RealRun n} {w : Fin n} {action : Action} {worker : Worker} {opId : Text}

theorem workers_goTo_self (s : RealRun n) (w : Fin n) (worker : Worker) : (s.goTo w worker).workers w = worker :=
  update_self _ _ _

theorem workers_goTo_of_ne (s : RealRun n) {w w' : Fin n} (h : w' ≠ w) (worker : Worker) : (s.goTo w worker).workers w' = s.workers w' :=
  update_of_ne h _ _

/-- A thread that keeps its operation. -/
theorem opId_goTo_of_eq (s : RealRun n) {w : Fin n} (h : worker.opId? = (s.workers w).opId?) (w' : Fin n) :
    ((s.goTo w worker).workers w').opId? = (s.workers w').opId? := by
  by_cases heq : w' = w
  · rw [heq, workers_goTo_self, h]
  · rw [workers_goTo_of_ne s heq]

/-- An operation that a thread holds has not been finished. -/
theorem notMem_finishedIds (h : RealInv ex s) (hworker : (s.workers w).opId? = some opId) : opId ∉ s.finishedIds :=
  ((h.held opId).mp ⟨w, hworker⟩).2

/-- A thread that sets the row of the operation it holds, and goes on with it. -/
theorem realInv_setRow (h : RealInv ex s) (hworker : (s.workers w).opId? = some opId) {row : Row} {clock : Int} (hkept : worker.opId? = some opId)
    (hrow : worker = .completed opId → row.completeNs.isSome = true) :
    RealInv ex (((s.read clock).setRow opId row).goTo w worker) := by
  have hnot := notMem_finishedIds h hworker
  have hother : ∀ other, other ≠ opId → (update s.board.rows opId row) other = s.board.rows other := fun other hne =>
    update_of_ne hne _ _
  have hfinished : ∀ other ∈ s.finishedIds, (update s.board.rows opId row) other = s.board.rows other := by
    intro other hin
    refine hother other ?_
    rintro rfl
    exact hnot hin
  have hopId : ∀ w', ((((s.read clock).setRow opId row).goTo w worker).workers w').opId? = (s.workers w').opId? :=
    opId_goTo_of_eq ((s.read clock).setRow opId row) (hkept.trans hworker.symm)
  refine ⟨?_, h.takenNodup, h.takenMem, h.finishedNodup, h.finishedMem, h.count, h.running, h.capacity, ?_, ?_, ?_, ?_⟩
  · exact BoardAux.BoardInv.withRows h.board fun d hd => congrArg Row.completeNs (hfinished d (by simpa using hd))
  · intro other
    simp only [hopId]
    exact h.held other
  · intro w₁ w₂ other h₁ h₂
    rw [hopId] at h₁ h₂
    exact h.heldOnce w₁ w₂ other h₁ h₂
  · intro other hin
    show ((update s.board.rows opId row) other).completeNs.isSome = true
    rw [hfinished other hin]
    exact h.completed other hin
  · intro w' other hcompleted
    show ((update s.board.rows opId row) other).completeNs.isSome = true
    by_cases heq : w' = w
    · subst heq
      rw [workers_goTo_self] at hcompleted
      subst hcompleted
      obtain rfl : other = opId := by simpa [Worker.opId?] using hkept
      rw [update_self]
      exact hrow rfl
    · rw [workers_goTo_of_ne _ heq] at hcompleted
      rw [hother other]
      · exact h.toFinish w' other hcompleted
      · rintro rfl
        exact heq (h.heldOnce w' w other (by rw [show s.workers w' = .completed other from hcompleted]; rfl) hworker)

/-- A thread takes the first pending operation. -/
theorem realInv_take (h : RealInv ex s) {clock : Int} {entry : Entry Text} {rest : List (Entry Text)}
    (hworker : s.workers w = .idle) (hpending : s.board.pending = entry :: rest) (hfree : s.running < ex.workers) :
    RealInv ex (((s.read clock).pop entry rest).goTo w (.taken entry.item entry.time)) := by
  have hentry : entry.item ∈ items s.board.pending := by
    rw [hpending]
    exact mem_cons_self
  obtain ⟨hmem, hnew, -⟩ := (h.board.pending _).mp hentry
  simp only [decide_eq_false_iff_not] at hnew
  have hnotFinished : entry.item ∉ s.finishedIds := fun hin => hnew (h.finishedMem _ hin)
  have hself := workers_goTo_self ((s.read clock).pop entry rest) w (.taken entry.item entry.time)
  have hother : ∀ w', w' ≠ w →
      (((s.read clock).pop entry rest).goTo w (.taken entry.item entry.time)).workers w' = s.workers w' := fun w' hne =>
    workers_goTo_of_ne _ hne _
  refine ⟨?_, ?_, ?_, h.finishedNodup, ?_, h.count, ?_, hfree, ?_, ?_, h.completed, ?_⟩
  · have hboard : BoardInv ex ((s.read clock).pop entry rest).board _ _ :=
      BoardAux.BoardInv.take h.board hpending rfl rfl (fun d _ => rfl)
    rw [← SimulatedAux.update_mem] at hboard
    exact hboard
  · exact nodup_append.mpr ⟨h.takenNodup, nodup_singleton _, by
      rintro a ha b hb rfl
      obtain rfl : a = entry.item := by simpa using hb
      exact hnew ha⟩
  · intro opId hin
    rcases mem_append.mp hin with hin | hin
    · exact h.takenMem opId hin
    · obtain rfl : opId = entry.item := by simpa using hin
      exact hmem
  · intro opId hin
    exact mem_append_left _ (h.finishedMem opId hin)
  · have hrunning := h.running
    simp only [RealRun.goTo, RealRun.pop, RealRun.read, length_append, length_singleton]
    omega
  · intro opId
    have hheld := h.held opId
    simp only [RealRun.goTo, RealRun.pop, RealRun.read, mem_append, mem_singleton] at hself hother ⊢
    constructor
    · rintro ⟨w', hw'⟩
      by_cases heq : w' = w
      · rw [heq, hself] at hw'
        obtain rfl : entry.item = opId := by simpa [Worker.opId?] using hw'
        exact ⟨Or.inr rfl, hnotFinished⟩
      · rw [hother w' heq] at hw'
        obtain ⟨htaken, hnot⟩ := hheld.mp ⟨w', hw'⟩
        exact ⟨Or.inl htaken, hnot⟩
    · rintro ⟨htaken | rfl, hnot⟩
      · obtain ⟨w', hw'⟩ := hheld.mpr ⟨htaken, hnot⟩
        refine ⟨w', ?_⟩
        rw [hother w']
        · exact hw'
        · rintro rfl
          rw [hworker] at hw'
          cases hw'
      · exact ⟨w, by rw [hself]; rfl⟩
  · intro w₁ w₂ opId h₁ h₂
    have hnotHeld : ∀ w', w' ≠ w → (s.workers w').opId? ≠ some entry.item := fun w' _ hw' =>
      hnew ((h.held _).mp ⟨w', hw'⟩).1
    by_cases heq₁ : w₁ = w <;> by_cases heq₂ : w₂ = w
    · rw [heq₁, heq₂]
    · rw [heq₁, hself] at h₁
      obtain rfl : entry.item = opId := by simpa [Worker.opId?] using h₁
      rw [hother w₂ heq₂] at h₂
      exact absurd h₂ (hnotHeld w₂ heq₂)
    · rw [heq₂, hself] at h₂
      obtain rfl : entry.item = opId := by simpa [Worker.opId?] using h₂
      rw [hother w₁ heq₁] at h₁
      exact absurd h₁ (hnotHeld w₁ heq₁)
    · rw [hother w₁ heq₁] at h₁
      rw [hother w₂ heq₂] at h₂
      exact h.heldOnce w₁ w₂ opId h₁ h₂
  · intro w' opId hcompleted
    by_cases heq : w' = w
    · rw [heq, hself] at hcompleted
      cases hcompleted
    · rw [hother w' heq] at hcompleted
      exact h.toFinish w' opId hcompleted

/-- The dependents of an operation that a thread has completed can be woken. -/
theorem wake_completed (hwf : ex.WellFormed) (h : RealInv ex s) (hworker : s.workers w = .completed opId) :
    ∃ board, ex.wake (ex.dependents opId) s.board = .ok board ∧ board.rows = s.board.rows ∧
      BoardInv ex board (fun other => decide (other ∈ s.takenIds)) (fun other => decide (other ∈ s.finishedIds ++ [opId])) := by
  have hnot : opId ∉ s.finishedIds := ((h.held opId).mp ⟨w, by rw [hworker]; rfl⟩).2
  rw [SimulatedAux.update_mem]
  refine BoardAux.BoardInv.finish hwf h.board (by simpa using hnot) (fun x _ => rfl) ?_
  intro x hx
  by_cases heq : x = opId
  · rw [heq]
    exact h.toFinish w opId hworker
  · rw [update_of_ne heq, decide_eq_true_eq] at hx
    exact h.completed x hx

/-- A thread finishes the operation it has completed. -/
theorem realInv_finish (hwf : ex.WellFormed) (h : RealInv ex s) {board : Board}
    (hworker : s.workers w = .completed opId) (hwake : ex.wake (ex.dependents opId) s.board = .ok board) :
    RealInv ex ((s.finish opId board).goTo w .idle) := by
  have hopId : (s.workers w).opId? = some opId := by rw [hworker]; rfl
  obtain ⟨htaken, hnot⟩ := (h.held opId).mp ⟨w, hopId⟩
  obtain ⟨next, hnext, hrows, hboard⟩ := wake_completed hwf h hworker
  obtain rfl : board = next := Except.ok.inj (hwake.symm.trans hnext)
  have hself := workers_goTo_self (s.finish opId board) w .idle
  have hother : ∀ w', w' ≠ w → ((s.finish opId board).goTo w .idle).workers w' = s.workers w' := fun w' hne =>
    workers_goTo_of_ne _ hne _
  have hcount := h.count
  have hrunning := h.running
  have hlt : s.finishedIds.length < s.takenIds.length := by
    have hsub : (opId :: s.finishedIds).Subperm s.takenIds := by
      refine (nodup_cons.mpr ⟨hnot, h.finishedNodup⟩).subperm ?_
      intro other hin
      rcases mem_cons.mp hin with rfl | hin
      · exact htaken
      · exact h.finishedMem other hin
    have hle := hsub.length_le
    simp only [length_cons] at hle
    omega
  refine ⟨hboard, h.takenNodup, h.takenMem, ?_, ?_, ?_, ?_, ?_, ?_, ?_, ?_, ?_⟩
  · exact nodup_append.mpr ⟨h.finishedNodup, nodup_singleton _, by
      rintro a ha b hb rfl
      obtain rfl : a = opId := by simpa using hb
      exact hnot ha⟩
  · intro other hin
    rcases mem_append.mp hin with hin | hin
    · exact h.finishedMem other hin
    · obtain rfl : other = opId := by simpa using hin
      exact htaken
  · simp only [RealRun.goTo, RealRun.finish, length_append, length_singleton]
    omega
  · simp only [RealRun.goTo, RealRun.finish]
    omega
  · have hcapacity := h.capacity
    simp only [RealRun.goTo, RealRun.finish]
    omega
  · intro other
    have hheld := h.held other
    simp only [RealRun.goTo, RealRun.finish, mem_append, mem_singleton, not_or] at hself hother ⊢
    constructor
    · rintro ⟨w', hw'⟩
      have hne : w' ≠ w := by
        rintro rfl
        rw [hself] at hw'
        cases hw'
      rw [hother w' hne] at hw'
      obtain ⟨hin, hout⟩ := hheld.mp ⟨w', hw'⟩
      refine ⟨hin, hout, ?_⟩
      rintro rfl
      exact hne (h.heldOnce w' w other hw' hopId)
    · rintro ⟨hin, hout, hne⟩
      obtain ⟨w', hw'⟩ := hheld.mpr ⟨hin, hout⟩
      refine ⟨w', ?_⟩
      rw [hother w']
      · exact hw'
      · rintro rfl
        rw [hopId] at hw'
        exact hne (Option.some.inj hw').symm
  · intro w₁ w₂ other h₁ h₂
    have hne : ∀ w', ((((s.finish opId board).goTo w .idle).workers w').opId? = some other) → w' ≠ w := by
      rintro w' hw' rfl
      rw [hself] at hw'
      cases hw'
    have hne₁ := hne w₁ h₁
    have hne₂ := hne w₂ h₂
    rw [hother w₁ hne₁] at h₁
    rw [hother w₂ hne₂] at h₂
    exact h.heldOnce w₁ w₂ other h₁ h₂
  · intro other hin
    show (board.rows other).completeNs.isSome = true
    rw [hrows]
    rcases mem_append.mp hin with hin | hin
    · exact h.completed other hin
    · obtain rfl : other = opId := by simpa using hin
      exact h.toFinish w other hworker
  · intro w' other hcompleted
    show (board.rows other).completeNs.isSome = true
    rw [hrows]
    by_cases heq : w' = w
    · rw [heq, hself] at hcompleted
      cases hcompleted
    · rw [hother w' heq] at hcompleted
      exact h.toFinish w' other hcompleted

/-- A thread that goes on without touching the board. -/
theorem realInv_goTo (h : RealInv ex s) (hkept : worker.opId? = (s.workers w).opId?)
    (hnot : ∀ opId, worker ≠ .completed opId) : RealInv ex (s.goTo w worker) := by
  have hopId := opId_goTo_of_eq s hkept
  refine ⟨h.board, h.takenNodup, h.takenMem, h.finishedNodup, h.finishedMem, h.count, h.running, h.capacity, ?_, ?_, h.completed, ?_⟩
  · intro opId
    simp only [hopId]
    exact h.held opId
  · intro w₁ w₂ opId h₁ h₂
    rw [hopId] at h₁ h₂
    exact h.heldOnce w₁ w₂ opId h₁ h₂
  · intro w' opId hcompleted
    by_cases heq : w' = w
    · rw [heq, workers_goTo_self] at hcompleted
      exact absurd hcompleted (hnot opId)
    · rw [workers_goTo_of_ne s heq] at hcompleted
      exact h.toFinish w' opId hcompleted

/-- Every step of every thread keeps the invariant. -/
theorem realInv_step (hwf : ex.WellFormed) (h : RealInv ex s) (hstep : RealStep ex w action s t) : RealInv ex t := by
  cases hstep with
  | take hworker hleft hclock hpending htime hfree => exact realInv_take h hworker hpending hfree
  | wait => exact ⟨h.board, h.takenNodup, h.takenMem, h.finishedNodup, h.finishedMem, h.count, h.running, h.capacity, h.held,
      h.heldOnce, h.completed, h.toFinish⟩
  | exit hworker hall => exact realInv_goTo h (by rw [hworker]; rfl) (by simp)
  | submit hworker hclock =>
    exact realInv_setRow h (by rw [hworker]; rfl) rfl (by simp)
  | @perform _ opId hworker outcome =>
    have h' : RealInv ex { s with performedIds := s.performedIds ++ [opId] } :=
      ⟨h.board, h.takenNodup, h.takenMem, h.finishedNodup, h.finishedMem, h.count, h.running, h.capacity, h.held, h.heldOnce,
        h.completed, h.toFinish⟩
    exact realInv_goTo h' (by show _ = (s.workers w).opId?; rw [hworker]; rfl) (by simp)
  | complete hworker hclock => exact realInv_setRow h (by rw [hworker]; rfl) rfl (by simp)
  | finish hworker hwake => exact realInv_finish hwf h hworker hwake

/-- Every step keeps that no operation has been performed twice, and that a thread only leaves at the end. -/
theorem realOnce_step (h : RealInv ex s) (honce : RealOnce ex s) (hstep : RealStep ex w action s t) : RealOnce ex t := by
  -- What holds of the threads that did not move.
  have hthreads : ∀ {s' : RealRun n} {worker : Worker}, s'.workers = s.workers →
      (∀ w' opId, w' ≠ w → ((∃ eligible, s.workers w' = .taken opId eligible) ∨ s.workers w' = .submitted opId) →
        opId ∉ s'.performedIds) →
      (∀ opId, ((∃ eligible, worker = .taken opId eligible) ∨ worker = .submitted opId) → opId ∉ s'.performedIds) →
      ∀ w' opId, ((∃ eligible, (s'.goTo w worker).workers w' = .taken opId eligible) ∨
        (s'.goTo w worker).workers w' = .submitted opId) → opId ∉ s'.performedIds := by
    intro s' worker hworkers hothers hself w' opId hw'
    by_cases heq : w' = w
    · rw [heq, workers_goTo_self] at hw'
      exact hself opId hw'
    · rw [workers_goTo_of_ne s' heq, hworkers] at hw'
      exact hothers w' opId heq hw'
  have hexited : ∀ {s' : RealRun n} {worker : Worker}, s'.workers = s.workers → s.finished ≤ s'.finished →
      (worker = .exited → ex.order.length ≤ s'.finished) →
      ∀ w', (s'.goTo w worker).workers w' = .exited → ex.order.length ≤ s'.finished := by
    intro s' worker hworkers hle hself w' hw'
    by_cases heq : w' = w
    · rw [heq, workers_goTo_self] at hw'
      exact hself hw'
    · rw [workers_goTo_of_ne s' heq, hworkers] at hw'
      exact (honce.exited w' hw').trans hle
  cases hstep with
  | @take _ clock entry rest hworker hleft hclock hpending htime hfree =>
    have hnew : entry.item ∉ s.takenIds := by
      have hentry : entry.item ∈ items s.board.pending := by
        rw [hpending]
        exact mem_cons_self
      simpa using ((h.board.pending _).mp hentry).2.1
    refine ⟨honce.performedNodup, fun opId hin => mem_append_left _ (honce.performedMem opId hin), ?_, ?_⟩
    · refine hthreads rfl (fun w' opId _ hw' => honce.toPerform w' opId hw') ?_
      rintro opId (⟨eligible, heq⟩ | heq)
      · cases heq
        exact fun hin => hnew (honce.performedMem _ hin)
      · cases heq
    · exact hexited rfl (le_refl _) (by simp)
  | wait => exact ⟨honce.performedNodup, honce.performedMem, honce.toPerform, honce.exited⟩
  | exit hworker hall =>
    refine ⟨honce.performedNodup, honce.performedMem, ?_, ?_⟩
    · exact hthreads rfl (fun w' opId _ hw' => honce.toPerform w' opId hw') (by simp)
    · exact hexited rfl (le_refl _) (fun _ => hall)
  | @submit _ clock opId eligible hworker hclock =>
    refine ⟨honce.performedNodup, honce.performedMem, ?_, ?_⟩
    · refine hthreads rfl (fun w' opId _ hw' => honce.toPerform w' opId hw') ?_
      rintro other (⟨_, heq⟩ | heq)
      · cases heq
      · cases heq
        exact honce.toPerform w opId (Or.inl ⟨eligible, hworker⟩)
    · exact hexited rfl (le_refl _) (by simp)
  | @perform _ opId hworker outcome =>
    have hnew : opId ∉ s.performedIds := honce.toPerform w opId (Or.inr hworker)
    have hopId : (s.workers w).opId? = some opId := by
      rw [hworker]
      rfl
    refine ⟨?_, ?_, ?_, ?_⟩
    · exact nodup_append.mpr ⟨honce.performedNodup, nodup_singleton _, by
        rintro a ha b hb rfl
        obtain rfl : a = opId := by simpa using hb
        exact hnew ha⟩
    · intro other hin
      rcases mem_append.mp hin with hin | hin
      · exact honce.performedMem other hin
      · obtain rfl : other = opId := by simpa using hin
        exact ((h.held other).mp ⟨w, hopId⟩).1
    · refine hthreads rfl (fun w' other hne hw' => ?_) (by simp)
      have hother : (s.workers w').opId? = some other := by
        rcases hw' with ⟨eligible, heq⟩ | heq
        · rw [heq]
          rfl
        · rw [heq]
          rfl
      simp only [mem_append, mem_singleton, not_or]
      refine ⟨honce.toPerform w' other hw', ?_⟩
      rintro rfl
      exact hne (h.heldOnce w' w other hother hopId)
    · exact hexited rfl (le_refl _) (by simp)
  | complete hworker hclock =>
    refine ⟨honce.performedNodup, honce.performedMem, ?_, ?_⟩
    · exact hthreads rfl (fun w' opId _ hw' => honce.toPerform w' opId hw') (by simp)
    · exact hexited rfl (le_refl _) (by simp)
  | @finish _ opId board hworker hwake =>
    refine ⟨honce.performedNodup, honce.performedMem, ?_, ?_⟩
    · exact hthreads rfl (fun w' opId _ hw' => honce.toPerform w' opId hw') (by simp)
    · have hle : s.finished ≤ (s.finish opId board).finished := Nat.le_succ _
      exact hexited rfl hle (by simp)

theorem startReal_ok (hwf : ex.WellFormed) (t0 : Int) : ∃ first, ex.startReal t0 = .ok first ∧ RealInv ex first ∧ RealOnce ex first := by
  obtain ⟨board, hboard, hrows, hinv⟩ := boardInv_start hwf
  refine ⟨{ board, running := 0, finished := 0, t0, clock := t0, workers := fun _ => .idle, takenIds := [], performedIds := [],
            finishedIds := [] }, ?_, ?_, ?_⟩
  · rw [Executor.startReal, hboard]
    rfl
  · exact ⟨by simpa using hinv, nodup_nil, by simp, nodup_nil, by simp, rfl, rfl, Nat.zero_le _, by simp [Worker.opId?],
      by simp [Worker.opId?], by simp, by simp⟩
  · exact ⟨nodup_nil, by simp, by simp, by simp⟩

/-- Every reachable state has both invariants. -/
theorem realInv_of_reach (hwf : ex.WellFormed) (h : RealInv ex s) (honce : RealOnce ex s) (hreach : ex.ReachesReal s t) :
    RealInv ex t ∧ RealOnce ex t := by
  induction hreach with
  | refl => exact ⟨h, honce⟩
  | tail _ hstep ih =>
    obtain ⟨w, action, hstep⟩ := hstep
    exact ⟨realInv_step hwf ih.1 hstep, realOnce_step ih.1 ih.2 hstep⟩

/-! ## What the invariants say -/

/-- Every operation is in exactly one place. -/
theorem existsUnique_place (h : RealInv ex s) (hmem : opId ∈ ex.order) : ∃! place, s.At opId place := by
  have hremaining := h.board.remaining opId
  have hzero : (ex.depsOf opId).countP (fun d => !decide (d ∈ s.finishedIds)) = 0 ↔ ∀ d ∈ ex.depsOf opId, d ∈ s.finishedIds := by
    rw [countP_eq_zero]
    simp
  have hwaiting : s.At opId .waiting ↔ ¬∀ d ∈ ex.depsOf opId, d ∈ s.finishedIds := by
    show 0 < s.board.remainingDeps opId ↔ _
    rw [hremaining, ← hzero]
    omega
  have hpending : s.At opId .pending ↔ opId ∉ s.takenIds ∧ ∀ d ∈ ex.depsOf opId, d ∈ s.finishedIds := by
    show opId ∈ items s.board.pending ↔ _
    rw [h.board.pending]
    simp [hmem]
  have hrunning : s.At opId .running ↔ opId ∈ s.takenIds ∧ opId ∉ s.finishedIds := h.held opId
  have hready : opId ∈ s.takenIds → ∀ d ∈ ex.depsOf opId, d ∈ s.finishedIds := by
    intro htaken d hd
    simpa using h.board.ready opId (by simpa using htaken) d hd
  have hfinished : s.At opId .finished ↔ opId ∈ s.finishedIds := Iff.rfl
  have hsub := h.finishedMem opId
  by_cases htaken : opId ∈ s.takenIds
  · have hdeps := hready htaken
    by_cases hdone : opId ∈ s.finishedIds
    · refine ⟨.finished, hdone, ?_⟩
      rintro (_ | _ | _ | _) hplace
      · exact absurd hdeps (hwaiting.mp hplace)
      · exact absurd htaken (hpending.mp hplace).1
      · exact absurd hdone (hrunning.mp hplace).2
      · rfl
    · refine ⟨.running, hrunning.mpr ⟨htaken, hdone⟩, ?_⟩
      rintro (_ | _ | _ | _) hplace
      · exact absurd hdeps (hwaiting.mp hplace)
      · exact absurd htaken (hpending.mp hplace).1
      · rfl
      · exact absurd hplace hdone
  · have hdone : opId ∉ s.finishedIds := fun hin => htaken (hsub hin)
    by_cases hdeps : ∀ d ∈ ex.depsOf opId, d ∈ s.finishedIds
    · refine ⟨.pending, hpending.mpr ⟨htaken, hdeps⟩, ?_⟩
      rintro (_ | _ | _ | _) hplace
      · exact absurd hdeps (hwaiting.mp hplace)
      · rfl
      · exact absurd (hrunning.mp hplace).1 htaken
      · exact absurd hplace hdone
    · refine ⟨.waiting, hwaiting.mpr hdeps, ?_⟩
      rintro (_ | _ | _ | _) hplace
      · rfl
      · exact absurd (hpending.mp hplace).2 hdeps
      · exact absurd (hrunning.mp hplace).1 htaken
      · exact absurd hplace hdone

/-- Once the counter has reached the number of operations, every operation has been finished. -/
theorem finished_of_count (h : RealInv ex s) (hall : ex.order.length ≤ s.finished) : ∀ opId ∈ ex.order, opId ∈ s.finishedIds := by
  have hsub : s.finishedIds.Subperm ex.order :=
    h.finishedNodup.subperm fun opId hin => h.takenMem opId (h.finishedMem opId hin)
  have hperm := hsub.perm_of_length_le (by rw [← h.count]; exact hall)
  intro opId hmem
  exact hperm.mem_iff.mpr hmem

/-- As long as some operation has not been finished, one is pending or a thread has one. -/
theorem pending_or_running (hwf : ex.WellFormed) (h : RealInv ex s) (hleft : ∃ opId ∈ ex.order, ¬s.At opId .finished) :
    ∃ opId ∈ ex.order, s.At opId .pending ∨ s.At opId .running := by
  obtain ⟨opId, hmem, hnot, hor⟩ := BoardAux.BoardInv.progress hwf h.board (by
    obtain ⟨opId, hmem, hleft⟩ := hleft
    exact ⟨opId, hmem, by simpa [RealRun.At] using hleft⟩)
  refine ⟨opId, hmem, ?_⟩
  rcases hor with hpending | htaken
  · exact Or.inl hpending
  · exact Or.inr ((h.held opId).mpr ⟨by simpa using htaken, by simpa using hnot⟩)

/-- A thread that holds an operation can go on with it. -/
theorem step_of_holds (hwf : ex.WellFormed) (h : RealInv ex s) (hworker : (s.workers w).opId? = some opId) :
    ∃ action t, action ≠ .wait ∧ RealStep ex w action s t := by
  cases hpoint : s.workers w with
  | idle | exited =>
    rw [hpoint] at hworker
    cases hworker
  | taken other eligible => exact ⟨.submit, _, by simp, .submit hpoint (le_refl _)⟩
  | submitted other => exact ⟨.perform, _, by simp, .perform hpoint ⟨.success, 0, []⟩⟩
  | performed other outcome => exact ⟨.complete, _, by simp, .complete hpoint (le_refl _)⟩
  | completed other =>
    obtain ⟨board, hwake, -⟩ := wake_completed hwf h hpoint
    exact ⟨.finish, _, by simp, .finish hpoint hwake⟩

end RealRunAux

end EbpfSyscall.Kvio
