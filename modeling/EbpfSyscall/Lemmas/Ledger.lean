import EbpfSyscall.Lemmas.RealRun

/-!
# Rows of a real run

The times in a row are set once: by the thread that submits the operation and by the thread that completes it. No later step of any
thread changes them.
-/

namespace EbpfSyscall.Kvio

open Checked Queue RealRunAux Function

namespace LedgerAux

variable {σ : Type} {ex : Executor σ} {n : Nat} {s t : RealRun n} {w : Fin n} {action : Action} {opId : Text}

theorem t0_step (hstep : RealStep ex w action s t) : t.t0 = s.t0 := by
  cases hstep <;> rfl

theorem t0_reach (hreach : ex.ReachesReal s t) : t.t0 = s.t0 := by
  induction hreach with
  | refl => rfl
  | tail _ hstep ih =>
    obtain ⟨w, action, hstep⟩ := hstep
    exact (t0_step hstep).trans ih

/-- The thread that takes an operation takes one that was not taken before. -/
theorem take_fresh (h : RealInv ex s) {entry : Entry Text} {rest : List (Entry Text)} (hpending : s.board.pending = entry :: rest) :
    entry.item ∉ s.takenIds := by
  have hentry : entry.item ∈ items s.board.pending := by
    rw [hpending]
    exact List.mem_cons_self
  simpa using ((h.board.pending _).mp hentry).2.1

/-- What a step does to the row of an operation. -/
theorem row_step (hwf : ex.WellFormed) (h : RealInv ex s) (hstep : RealStep ex w action s t) (opId : Text) :
    t.board.rows opId = s.board.rows opId ∨ (∃ e, s.workers w = .taken opId e) ∨
      ∃ outcome, s.workers w = .performed opId outcome ∧
        t.board.rows opId = { s.board.rows opId with completeNs := some (t.clock - s.t0), outcome := some outcome } := by
  cases hstep with
  | take | wait | exit | perform => exact Or.inl rfl
  | @submit _ clock other eligible hworker hclock =>
    by_cases heq : opId = other
    · exact Or.inr (Or.inl ⟨eligible, by rw [hworker, heq]⟩)
    · exact Or.inl (update_of_ne heq _ _)
  | @complete _ clock other outcome hworker hclock =>
    by_cases heq : opId = other
    · subst heq
      exact Or.inr (Or.inr ⟨outcome, hworker, update_self _ _ _⟩)
    · exact Or.inl (update_of_ne heq _ _)
  | finish hworker hwake =>
    obtain ⟨board, hboard, hrows, -⟩ := wake_completed hwf h hworker
    obtain rfl := Except.ok.inj (hboard.symm.trans hwake)
    exact Or.inl (congrFun hrows opId)

/-- Where a thread that holds the operation was before a step. -/
theorem worker_step (h : RealInv ex s) (hstep : RealStep ex w action s t) (htaken : opId ∈ s.takenIds) (w' : Fin n) :
    opId ∈ t.takenIds ∧ (∀ e, t.workers w' = .taken opId e → s.workers w' = .taken opId e) ∧
      (t.workers w' = .submitted opId → s.workers w' = .submitted opId ∨ ∃ e, s.workers w' = .taken opId e) ∧
      ∀ outcome, t.workers w' = .performed opId outcome →
        s.workers w' = .performed opId outcome ∨ s.workers w' = .submitted opId := by
  -- A thread that did not move is where it was; the one that moved is at the place the step leads to.
  have hkept : t.workers w' = s.workers w' → _ := fun hsame =>
    (⟨fun e he => hsame ▸ he, fun he => Or.inl (hsame ▸ he), fun outcome he => Or.inl (hsame ▸ he)⟩ :
      (∀ e, t.workers w' = .taken opId e → s.workers w' = .taken opId e) ∧
      (t.workers w' = .submitted opId → s.workers w' = .submitted opId ∨ ∃ e, s.workers w' = .taken opId e) ∧
      ∀ outcome, t.workers w' = .performed opId outcome →
        s.workers w' = .performed opId outcome ∨ s.workers w' = .submitted opId)
  cases hstep with
  | @take _ clock entry rest hworker hleft hclock hpending htime hfree =>
    refine ⟨List.mem_append_left _ htaken, ?_⟩
    by_cases heq : w' = w
    · have hfresh : entry.item ≠ opId := fun hsame => take_fresh h hpending (hsame ▸ htaken)
      rw [heq, workers_goTo_self]
      simp [hfresh]
    · exact hkept (workers_goTo_of_ne _ heq _)
  | wait => exact ⟨htaken, hkept rfl⟩
  | exit hworker hall | @complete _ clock other outcome hworker hclock | @finish _ other board hworker hwake =>
    refine ⟨htaken, ?_⟩
    by_cases heq : w' = w
    · rw [heq, workers_goTo_self]
      simp
    · exact hkept (workers_goTo_of_ne _ heq _)
  | @submit _ clock other eligible hworker hclock | @perform _ other hworker outcome =>
    refine ⟨htaken, ?_⟩
    by_cases heq : w' = w
    · rw [heq, workers_goTo_self, hworker]
      simp
    · exact hkept (workers_goTo_of_ne _ heq _)

/-- The operation has its submit time, and no thread is about to set it. -/
structure SubmitSet (opId : Text) (eligible submit : Int) (s : RealRun n) : Prop where
  eligible : (s.board.rows opId).eligibleNs = some eligible
  submit : (s.board.rows opId).submitNs = some submit
  taken : opId ∈ s.takenIds
  past : ∀ w e, s.workers w ≠ .taken opId e

/-- The operation has its completion time, and no thread is about to set it. -/
structure CompleteSet (opId : Text) (complete : Int) (s : RealRun n) : Prop where
  complete : (s.board.rows opId).completeNs = some complete
  taken : opId ∈ s.takenIds
  past : ∀ w, (∀ e, s.workers w ≠ .taken opId e) ∧ s.workers w ≠ .submitted opId ∧ ∀ outcome, s.workers w ≠ .performed opId outcome

theorem submitSet_step (hwf : ex.WellFormed) (h : RealInv ex s) (hstep : RealStep ex w action s t) {eligible submit : Int}
    (hset : SubmitSet opId eligible submit s) : SubmitSet opId eligible submit t := by
  have hpast : ∀ w' e, t.workers w' ≠ .taken opId e := fun w' e he =>
    hset.past w' e ((worker_step h hstep hset.taken w').2.1 e he)
  have htaken := (worker_step h hstep hset.taken w).1
  rcases row_step hwf h hstep opId with hsame | ⟨e, he⟩ | ⟨outcome, -, hrow⟩
  · exact ⟨hsame ▸ hset.eligible, hsame ▸ hset.submit, htaken, hpast⟩
  · exact absurd he (hset.past w e)
  · exact ⟨by rw [hrow]; exact hset.eligible, by rw [hrow]; exact hset.submit, htaken, hpast⟩

theorem completeSet_step (hwf : ex.WellFormed) (h : RealInv ex s) (hstep : RealStep ex w action s t) {complete : Int}
    (hset : CompleteSet opId complete s) : CompleteSet opId complete t := by
  have hpast : ∀ w', (∀ e, t.workers w' ≠ .taken opId e) ∧ t.workers w' ≠ .submitted opId ∧
      ∀ outcome, t.workers w' ≠ .performed opId outcome := by
    intro w'
    obtain ⟨hnotTaken, hnotSubmitted, hnotPerformed⟩ := hset.past w'
    obtain ⟨-, htaken, hsubmitted, hperformed⟩ := worker_step h hstep hset.taken w'
    refine ⟨fun e he => hnotTaken e (htaken e he), fun he => ?_, fun outcome he => ?_⟩
    · rcases hsubmitted he with hbefore | ⟨e, hbefore⟩
      · exact hnotSubmitted hbefore
      · exact hnotTaken e hbefore
    · rcases hperformed outcome he with hbefore | hbefore
      · exact hnotPerformed outcome hbefore
      · exact hnotSubmitted hbefore
  have htaken := (worker_step h hstep hset.taken w).1
  rcases row_step hwf h hstep opId with hsame | ⟨e, he⟩ | ⟨outcome, he, -⟩
  · exact ⟨hsame ▸ hset.complete, htaken, hpast⟩
  · exact absurd he ((hset.past w).1 e)
  · exact absurd he ((hset.past w).2.2 outcome)

/-- What every step keeps, a run keeps. -/
theorem reach_kept (hwf : ex.WellFormed) {P : RealRun n → Prop}
    (hstep : ∀ {s t w action}, RealInv ex s → RealStep ex w action s t → P s → P t) (h : RealInv ex s) (hs : P s)
    (hreach : ex.ReachesReal s t) : P t := by
  have hboth : RealInv ex t ∧ P t := by
    induction hreach with
    | refl => exact ⟨h, hs⟩
    | tail _ hlast ih =>
      obtain ⟨w, action, hlast⟩ := hlast
      exact ⟨realInv_step hwf ih.1 hlast, hstep ih.1 hlast ih.2⟩
  exact hboth.2

/-- The thread that submits an operation sets its times. -/
theorem submitSet_of_submit (h : RealInv ex s) {eligible : Int} (hworker : s.workers w = .taken opId eligible)
    (hstep : RealStep ex w .submit s t) : SubmitSet opId eligible (t.clock - s.t0) t := by
  have hheld : (s.workers w).opId? = some opId := by rw [hworker]; rfl
  cases hstep with
  | @submit _ clock other eligible' hworker' hclock =>
    obtain ⟨rfl, rfl⟩ : opId = other ∧ eligible = eligible' := by
      rw [hworker] at hworker'
      simpa using hworker'
    refine ⟨?_, ?_, ((h.held opId).mp ⟨w, hheld⟩).1, ?_⟩
    · show (update s.board.rows opId _ opId).eligibleNs = _
      rw [update_self]
    · show (update s.board.rows opId _ opId).submitNs = _
      rw [update_self]
      rfl
    · intro w' e he
      by_cases heq : w' = w
      · rw [heq, workers_goTo_self] at he
        cases he
      · rw [workers_goTo_of_ne _ heq] at he
        exact heq (h.heldOnce w' w opId (by rw [show s.workers w' = .taken opId e from he]; rfl) hheld)

/-- The thread that completes an operation sets its completion time. -/
theorem completeSet_of_complete (h : RealInv ex s) {outcome : Outcome} (hworker : s.workers w = .performed opId outcome)
    (hstep : RealStep ex w .complete s t) : CompleteSet opId (t.clock - s.t0) t := by
  have hheld : (s.workers w).opId? = some opId := by rw [hworker]; rfl
  cases hstep with
  | @complete _ clock other outcome' hworker' hclock =>
    obtain ⟨rfl, rfl⟩ : opId = other ∧ outcome = outcome' := by
      rw [hworker] at hworker'
      simpa using hworker'
    have hother : ∀ w' worker, worker.opId? = some opId → worker ≠ .completed opId →
        (((s.read clock).setRow opId { s.board.rows opId with completeNs := some (clock - s.t0), outcome := some outcome }).goTo w
          (.completed opId)).workers w' ≠ worker := by
      intro w' worker hopId hne he
      by_cases heq : w' = w
      · rw [heq, workers_goTo_self] at he
        exact hne he.symm
      · rw [workers_goTo_of_ne _ heq] at he
        exact heq (h.heldOnce w' w opId (by rw [show s.workers w' = worker from he]; exact hopId) hheld)
    refine ⟨?_, ((h.held opId).mp ⟨w, hheld⟩).1, fun w' => ⟨fun e => ?_, ?_, fun result => ?_⟩⟩
    · show (update s.board.rows opId _ opId).completeNs = _
      rw [update_self]
      rfl
    · exact hother w' _ rfl (by simp)
    · exact hother w' _ rfl (by simp)
    · exact hother w' _ rfl (by simp)

end LedgerAux

end EbpfSyscall.Kvio
