import EbpfSyscall.Lemmas.Board

/-!
# Runs of the simulated executor

One step of the machine submits the first pending operation, completes the first due one, moves the clock, or goes back to submitting.
Every step keeps the invariant that ties the queues, the counters and the rows together, and makes a bound smaller; so a run of enough
steps ends, and it ends with every operation submitted and completed once.
-/

namespace EbpfSyscall.Kvio

open Checked Queue BoardAux List Function Executor Simulation

variable {σ : Type}

/-- The ids of the operations in flight. -/
def Simulation.inFlight (s : Simulation σ) : List Text := (items s.completions).map Prod.fst

/-- The first pending operation can be submitted. -/
def Executor.CanSubmit (ex : Executor σ) (s : Simulation σ) : Prop :=
  ∃ entry ∈ s.board.pending.head?, s.running < ex.workers ∧ entry.time ≤ s.now

/-- The first operation in flight is due. -/
def Simulation.CanComplete (s : Simulation σ) : Prop := ∃ entry ∈ s.completions.head?, entry.time ≤ s.now

/-- The state after a submission. -/
def Executor.submitted (ex : Executor σ) (s : Simulation σ) (entry : Entry Text) (rest : List (Entry Text)) (outcome : Outcome)
    (backend : σ) : Simulation σ :=
  { s with
    board := { s.board with
      pending := rest
      seq := s.board.seq + 1
      rows := Function.update s.board.rows entry.item
        { s.board.rows entry.item with eligibleNs := some entry.time, submitNs := some s.now } }
    completions := push ⟨s.now + ex.service entry.item outcome, s.board.seq, (entry.item, outcome)⟩ s.completions
    running := s.running + 1
    backend
    performed := s.performed ++ [entry.item] }

/-- The rows after a completion. -/
def Simulation.completedRows (s : Simulation σ) (entry : Entry (Text × Outcome)) : Text → Row :=
  Function.update s.board.rows entry.item.1
    { s.board.rows entry.item.1 with completeNs := some entry.time, outcome := some entry.item.2 }

/-- What one step of the machine does. -/
inductive Step (ex : Executor σ) (s : Simulation σ) : Simulation σ → Prop where
  | submit {entry : Entry Text} {rest : List (Entry Text)} {outcome : Outcome} {backend : σ} (hphase : s.phase = .submitting)
      (hpending : s.board.pending = entry :: rest) (hfree : s.running < ex.workers) (htime : entry.time ≤ s.now)
      (hperform : ex.perform entry.item s.backend = .ok (outcome, backend)) :
      Step ex s (ex.submitted s entry rest outcome backend)
  | advance {time : Int} (hphase : s.phase = .submitting) (hblocked : ¬ex.CanSubmit s) (hnext : ex.nextTime s = some time) :
      Step ex s { s with now := max s.now time, phase := .completing }
  | complete {entry : Entry (Text × Outcome)} {rest : List (Entry (Text × Outcome))} {board : Board}
      (hphase : s.phase = .completing) (hcompletions : s.completions = entry :: rest) (htime : entry.time ≤ s.now)
      (hwake : ex.wake (ex.dependents entry.item.1) { s.board with rows := s.completedRows entry } = .ok board) :
      Step ex s { s with
        board, completions := rest, running := s.running - 1, finished := s.finished ++ [entry.item.1] }
  | resume (hphase : s.phase = .completing) (hnotDue : ¬s.CanComplete) (hleft : ¬(s.board.pending = [] ∧ s.completions = [])) :
      Step ex s { s with phase := .submitting }

namespace SimulatedAux

variable {ex : Executor σ} {s t : Simulation σ}

theorem canSubmit_iff {entry : Entry Text} {rest : List (Entry Text)} (h : s.board.pending = entry :: rest) :
    ex.CanSubmit s ↔ s.running < ex.workers ∧ entry.time ≤ s.now := by
  simp [CanSubmit, h]

theorem not_canSubmit_of_nil (h : s.board.pending = []) : ¬ex.CanSubmit s := by
  simp [CanSubmit, h]

theorem canComplete_iff {entry : Entry (Text × Outcome)} {rest : List (Entry (Text × Outcome))}
    (h : s.completions = entry :: rest) : s.CanComplete ↔ entry.time ≤ s.now := by
  simp [CanComplete, h]

/-- The machine does what `Step` says. -/
theorem step_of_eq_some (h : ex.step s = .ok (some t)) : Step ex s t := by
  have hadvance : s.phase = .submitting → ¬ex.CanSubmit s → ex.advance s = some t → Step ex s t := by
    intro hphase hblocked hadvance
    obtain ⟨time, hnext, rfl⟩ := Option.map_eq_some_iff.mp hadvance
    exact .advance hphase hblocked hnext
  have hresume : s.phase = .completing → ¬s.CanComplete → s.resume = some t → Step ex s t := by
    intro hphase hnotDue hresume
    unfold resume at hresume
    split at hresume
    · cases hresume
    · rename_i hleft
      cases hresume
      exact .resume hphase hnotDue hleft
  unfold step at h
  split at h
  · rename_i hphase
    split at h
    · rename_i hnil
      exact hadvance hphase (not_canSubmit_of_nil hnil) (Except.ok.inj h)
    · rename_i entry rest hpending
      split at h
      · rename_i hcan
        simp only [submit] at h
        cases hperform : ex.perform entry.item s.backend with
        | error e =>
          rw [hperform] at h
          cases h
        | ok result =>
          rw [hperform] at h
          cases h
          exact .submit hphase hpending hcan.1 hcan.2 hperform
      · rename_i hcan
        exact hadvance hphase (fun hsubmit => hcan ((canSubmit_iff hpending).mp hsubmit)) (Except.ok.inj h)
  · rename_i hphase
    split at h
    · rename_i hnil
      exact hresume hphase (by simp [CanComplete, hnil]) (Except.ok.inj h)
    · rename_i entry rest hcompletions
      split at h
      · rename_i htime
        simp only [complete] at h
        cases hwake : ex.wake (ex.dependents entry.item.1) { s.board with rows := s.completedRows entry } with
        | error e =>
          rw [← completedRows, hwake] at h
          cases h
        | ok board =>
          rw [← completedRows, hwake] at h
          cases h
          exact .complete hphase hcompletions htime hwake
      · rename_i htime
        exact hresume hphase (fun hdue => htime ((canComplete_iff hcompletions).mp hdue)) (Except.ok.inj h)

end SimulatedAux

/-! ## The invariant -/

/-- What ties the queues, the counters and the rows together. -/
structure SimInv (ex : Executor σ) (s : Simulation σ) : Prop where
  board : BoardInv ex s.board (fun opId => decide (opId ∈ s.performed)) (fun opId => decide (opId ∈ s.finished))
  performedNodup : s.performed.Nodup
  performedMem : ∀ opId ∈ s.performed, opId ∈ ex.order
  respects : Precedence.Respects ex.depsOf s.performed
  finishedNodup : s.finished.Nodup
  finishedMem : ∀ opId ∈ s.finished, opId ∈ s.performed
  completed : ∀ opId, opId ∈ s.finished ↔ (s.board.rows opId).completeNs.isSome = true
  running : s.running = s.completions.length
  capacity : s.running ≤ ex.workers
  ordered : Ordered s.completions
  inFlightNodup : s.inFlight.Nodup
  inFlight : ∀ opId, opId ∈ s.inFlight ↔ opId ∈ s.performed ∧ opId ∉ s.finished

/-- Every operation of the record can be performed. -/
def Executor.Performs (ex : Executor σ) : Prop := ∀ opId ∈ ex.order, ∀ backend, ∃ result, ex.perform opId backend = .ok result

namespace SimulatedAux

variable {ex : Executor σ} {s t : Simulation σ}

/-- The state at the first test of the outer loop. -/
theorem start_ok (hwf : ex.WellFormed) (backend : σ) :
    ∃ s, ex.start backend = .ok s ∧ SimInv ex s ∧ s.backend = backend ∧ s.now = 0 ∧ s.completions = [] ∧ s.performed = [] ∧
      s.finished = [] ∧ s.board.rows = ex.prepared.rows := by
  obtain ⟨board, hboard, hrows, hinv⟩ := boardInv_start hwf
  refine ⟨{ board, now := 0, completions := [], running := 0, backend, phase := .completing, performed := [], finished := [] },
    ?_, ?_, rfl, rfl, rfl, rfl, rfl, hrows⟩
  · rw [start, hboard]
    rfl
  · refine ⟨?_, nodup_nil, by simp, Precedence.respects_nil, nodup_nil, by simp, ?_, rfl, Nat.zero_le _,
      Pairwise.nil, nodup_nil, by simp [inFlight, items]⟩
    · simpa using hinv
    · intro opId
      simp [hrows, prepared]

theorem update_mem (l : List Text) (opId : Text) :
    (fun other => decide (other ∈ l ++ [opId])) = Function.update (fun other => decide (other ∈ l)) opId true := by
  funext other
  by_cases h : other = opId
  · simp [h]
  · simp [h]

theorem inFlight_submitted {entry : Entry Text} {rest : List (Entry Text)} {outcome : Outcome} {backend : σ} :
    (ex.submitted s entry rest outcome backend).inFlight.Perm (entry.item :: s.inFlight) :=
  (items_push_perm _ s.completions).map Prod.fst

theorem completedRows_self (s : Simulation σ) (entry : Entry (Text × Outcome)) :
    (s.completedRows entry entry.item.1).completeNs = some entry.time := by
  rw [completedRows, update_self]

/-- The dependents of an operation in flight can be woken, and what the board is after that. -/
theorem wake_completedRows_ok (hwf : ex.WellFormed) (h : SimInv ex s) {entry : Entry (Text × Outcome)} (hnot : entry.item.1 ∉ s.finished) :
    ∃ board, ex.wake (ex.dependents entry.item.1) { s.board with rows := s.completedRows entry } = .ok board ∧
      board.rows = s.completedRows entry ∧ BoardInv ex board (fun opId => decide (opId ∈ s.performed))
        (fun opId => decide (opId ∈ s.finished ++ [entry.item.1])) := by
  rw [update_mem]
  refine BoardAux.BoardInv.finish hwf h.board (by simpa using hnot) ?_ ?_
  · intro x hx
    have hne : x ≠ entry.item.1 := by
      rintro rfl
      exact hnot (by simpa using hx)
    rw [completedRows, update_of_ne hne]
  · intro x hx
    by_cases heq : x = entry.item.1
    · rw [heq, completedRows_self]
      rfl
    · rw [update_of_ne heq, decide_eq_true_eq] at hx
      rw [completedRows, update_of_ne heq]
      exact (h.completed x).mp hx

theorem wake_completedRows (hwf : ex.WellFormed) (h : SimInv ex s) {entry : Entry (Text × Outcome)} (hnot : entry.item.1 ∉ s.finished) {board : Board}
    (hwake : ex.wake (ex.dependents entry.item.1) { s.board with rows := s.completedRows entry } = .ok board) :
    board.rows = s.completedRows entry ∧ BoardInv ex board (fun opId => decide (opId ∈ s.performed))
      (fun opId => decide (opId ∈ s.finished ++ [entry.item.1])) := by
  obtain ⟨next, hnext, hrest⟩ := wake_completedRows_ok hwf h hnot
  obtain rfl : board = next := Except.ok.inj (hwake.symm.trans hnext)
  exact hrest

/-- Every step keeps the invariant. -/
theorem simInv_step (hwf : ex.WellFormed) (h : SimInv ex s) (hstep : Step ex s t) : SimInv ex t := by
  cases hstep with
  | advance | resume =>
    exact ⟨h.board, h.performedNodup, h.performedMem, h.respects, h.finishedNodup, h.finishedMem, h.completed, h.running,
      h.capacity, h.ordered, h.inFlightNodup, h.inFlight⟩
  | @submit entry rest outcome backend hphase hpending hfree htime hperform =>
    have hentry : entry.item ∈ items s.board.pending := by
      rw [hpending]
      exact mem_cons_self
    obtain ⟨hmem, hnew, hready⟩ := (h.board.pending _).mp hentry
    simp only [decide_eq_false_iff_not, decide_eq_true_eq] at hnew hready
    have hcomplete : ∀ opId, ((ex.submitted s entry rest outcome backend).board.rows opId).completeNs =
        (s.board.rows opId).completeNs := by
      intro opId
      by_cases heq : opId = entry.item
      · subst heq
        simp [submitted]
      · simp [submitted, update_of_ne heq]
    refine ⟨?_, ?_, ?_, ?_, h.finishedNodup, ?_, ?_, ?_, hfree, ordered_push h.ordered _, ?_, ?_⟩
    · have hboard : BoardInv ex (ex.submitted s entry rest outcome backend).board _ _ :=
        BoardAux.BoardInv.take h.board hpending rfl rfl (fun d _ => hcomplete d)
      rw [← update_mem] at hboard
      exact hboard
    · exact nodup_append.mpr ⟨h.performedNodup, nodup_singleton _, by
        intro a ha b hb
        rw [mem_singleton] at hb
        subst hb
        rintro rfl
        exact hnew ha⟩
    · intro opId hin
      rcases mem_append.mp hin with hin | hin
      · exact h.performedMem opId hin
      · rw [mem_singleton] at hin
        exact hin ▸ hmem
    · exact Precedence.respects_concat.mpr ⟨h.respects, fun d hd => h.finishedMem d (hready d hd)⟩
    · intro opId hin
      exact mem_append_left _ (h.finishedMem opId hin)
    · intro opId
      rw [hcomplete]
      exact h.completed opId
    · simp only [submitted, length_push, h.running]
    · rw [inFlight_submitted.nodup_iff, nodup_cons]
      exact ⟨fun hin => hnew ((h.inFlight _).mp hin).1, h.inFlightNodup⟩
    · intro opId
      rw [inFlight_submitted.mem_iff, mem_cons, h.inFlight]
      simp only [submitted, mem_append, mem_singleton]
      constructor
      · rintro (rfl | ⟨hin, hnot⟩)
        · exact ⟨Or.inr rfl, fun hin => hnew (h.finishedMem _ hin)⟩
        · exact ⟨Or.inl hin, hnot⟩
      · rintro ⟨hin | rfl, hnot⟩
        · exact Or.inr ⟨hin, hnot⟩
        · exact Or.inl rfl
  | @complete entry rest board hphase hcompletions htime hwake =>
    have hinFlight : s.inFlight = entry.item.1 :: (items rest).map Prod.fst := by
      rw [inFlight, hcompletions]
      rfl
    have hnodup := h.inFlightNodup
    rw [hinFlight, nodup_cons] at hnodup
    obtain ⟨hperformed, hnot⟩ := (h.inFlight entry.item.1).mp (by rw [hinFlight]; exact mem_cons_self)
    have hrows : ∀ x, x ≠ entry.item.1 → s.completedRows entry x = s.board.rows x := fun x hx => update_of_ne hx _ _
    have hself := completedRows_self s entry
    obtain ⟨hnextRows, hboard⟩ := wake_completedRows hwf h hnot hwake
    refine ⟨hboard, h.performedNodup, h.performedMem, h.respects, ?_, ?_, ?_, ?_, ?_, ?_, hnodup.2, ?_⟩
    · exact nodup_append.mpr ⟨h.finishedNodup, nodup_singleton _, by
        intro a ha b hb
        rw [mem_singleton] at hb
        subst hb
        rintro rfl
        exact hnot ha⟩
    · intro opId hin
      rcases mem_append.mp hin with hin | hin
      · exact h.finishedMem opId hin
      · rw [mem_singleton] at hin
        exact hin ▸ hperformed
    · intro opId
      rw [mem_append, mem_singleton, hnextRows]
      by_cases heq : opId = entry.item.1
      · rw [heq, hself]
        simp
      · rw [hrows opId heq, ← h.completed opId]
        simp [heq]
    · have hlength := h.running
      rw [hcompletions, length_cons] at hlength
      simp only [hlength]
      omega
    · exact le_trans (Nat.sub_le _ _) h.capacity
    · have hordered := h.ordered
      rw [hcompletions] at hordered
      exact hordered.tail
    · intro opId
      have hmem := h.inFlight opId
      rw [hinFlight, mem_cons] at hmem
      rw [mem_append, mem_singleton, not_or]
      constructor
      · intro hin
        obtain ⟨hp, hf⟩ := hmem.mp (Or.inr hin)
        refine ⟨hp, hf, ?_⟩
        rintro rfl
        exact hnodup.1 hin
      · rintro ⟨hp, hf, hne⟩
        exact (hmem.mpr ⟨hp, hf⟩).resolve_left hne

/-! ## Progress -/

/-- A step can always be made, or the run is at its end. -/
theorem step_ok (hwf : ex.WellFormed) (hperforms : ex.Performs) (h : SimInv ex s) : ∃ result, ex.step s = .ok result := by
  unfold step
  split
  · split
    · exact ⟨_, rfl⟩
    · rename_i entry rest hpending
      split
      · have hentry : entry.item ∈ items s.board.pending := by
          rw [hpending]
          exact mem_cons_self
        obtain ⟨result, hresult⟩ := hperforms entry.item ((h.board.pending _).mp hentry).1 s.backend
        rw [submit, hresult]
        exact ⟨_, rfl⟩
      · exact ⟨_, rfl⟩
  · split
    · exact ⟨_, rfl⟩
    · rename_i entry rest hcompletions
      split
      · obtain ⟨-, hnot⟩ := (h.inFlight entry.item.1).mp (by simp [inFlight, items, hcompletions])
        obtain ⟨next, hnext, -⟩ := wake_completedRows_ok hwf h hnot
        simp only [complete]
        rw [← completedRows, hnext]
        exact ⟨_, rfl⟩
      · exact ⟨_, rfl⟩

/-- At the end every operation has completed. -/
theorem finished_of_end (hwf : ex.WellFormed) (hworkers : 0 < ex.workers) (h : SimInv ex s) (hend : ex.step s = .ok none) :
    ∀ opId ∈ ex.order, opId ∈ s.finished := by
  have hempty : s.board.pending = [] ∧ s.completions = [] := by
    have hadvance : ex.advance s = none → s.board.pending = [] ∧ s.completions = [] := by
      intro hadvance
      rw [advance, Option.map_eq_none_iff, nextTime] at hadvance
      split at hadvance <;> cases hadvance
      rename_i hcompletions hfree
      refine ⟨?_, hcompletions⟩
      rw [if_pos (by rw [h.running, hcompletions]; exact hworkers)] at hfree
      exact hfree
    have hresume : s.resume = none → s.board.pending = [] ∧ s.completions = [] := by
      intro hresume
      unfold resume at hresume
      split at hresume
      · rename_i hempty
        exact hempty
      · cases hresume
    unfold step at hend
    split at hend
    · split at hend
      · exact hadvance (Except.ok.inj hend)
      · split at hend
        · rename_i entry rest hpending hcan
          unfold submit at hend
          cases hperform : ex.perform entry.item s.backend <;> rw [hperform] at hend <;> cases hend
        · exact hadvance (Except.ok.inj hend)
    · split at hend
      · exact hresume (Except.ok.inj hend)
      · split at hend
        · rename_i entry rest hcompletions hdue
          simp only [complete] at hend
          rw [← completedRows] at hend
          cases hwake : ex.wake (ex.dependents entry.item.1) { s.board with rows := s.completedRows entry } <;>
            rw [hwake] at hend <;> cases hend
        · exact hresume (Except.ok.inj hend)
  by_contra hnot
  push Not at hnot
  obtain ⟨opId, hmem, hleft, hor⟩ := BoardAux.BoardInv.progress hwf h.board (by
    obtain ⟨opId, hmem, hleft⟩ := hnot
    exact ⟨opId, hmem, by simpa using hleft⟩)
  rcases hor with hpending | htaken
  · rw [hempty.1] at hpending
    simp [items] at hpending
  · have hin := (h.inFlight opId).mpr ⟨by simpa using htaken, by simpa using hleft⟩
    simp [inFlight, hempty.2, items] at hin

/-! ## Termination -/

open Classical in
/-- How far a state is from its next submission or completion. -/
noncomputable def distance (ex : Executor σ) (s : Simulation σ) : Nat :=
  match s.phase with
  | .submitting => if ex.CanSubmit s then 0 else 2
  | .completing => if s.CanComplete then 0 else if ex.CanSubmit s then 1 else 3

/-- The submissions and completions that are left, and the distance to the next one. -/
noncomputable def bound (ex : Executor σ) (s : Simulation σ) : Nat :=
  4 * (2 * (ex.order.length - s.performed.length) + s.completions.length) + distance ex s

theorem distance_le (ex : Executor σ) (s : Simulation σ) : distance ex s ≤ 3 := by
  unfold distance
  split
  · split <;> omega
  · split
    · omega
    · split <;> omega

theorem performed_length (h : SimInv ex s) : s.performed.length ≤ ex.order.length :=
  (h.performedNodup.subperm h.performedMem).length_le

/-- After the clock has moved, a completion is due or the first pending operation can be submitted. -/
theorem due_of_advance {time : Int} (hnext : ex.nextTime s = some time) : (∃ entry ∈ s.completions.head?, entry.time ≤ time) ∨
      (s.running < ex.workers ∧ ∃ entry ∈ s.board.pending.head?, entry.time ≤ time) := by
  unfold nextTime at hnext
  split at hnext
  · cases hnext
  · rename_i completion rest hcompletions hnone
    cases hnext
    exact Or.inl ⟨completion, by simp [hcompletions], le_refl _⟩
  · rename_i entry rest hcompletions hsome
    cases hnext
    split at hsome
    · rename_i hfree
      exact Or.inr ⟨hfree, entry, by simp [hsome], le_refl _⟩
    · cases hsome
  · rename_i completion rest entry rest' hcompletions hsome
    cases hnext
    split at hsome
    · rename_i hfree
      rcases le_total completion.time entry.time with hle | hle
      · exact Or.inl ⟨completion, by simp [hcompletions], by omega⟩
      · exact Or.inr ⟨hfree, entry, by simp [hsome], by omega⟩
    · cases hsome

/-- Every step comes closer to the end. -/
theorem bound_lt (h' : SimInv ex t) (hstep : Step ex s t) : bound ex t < bound ex s := by
  have hlength := performed_length h'
  have hle := distance_le ex t
  unfold bound
  cases hstep with
  | @submit entry rest outcome backend hphase hpending hfree htime hperform =>
    simp only [submitted, length_append, length_singleton, length_push] at hlength hle ⊢
    omega
  | @complete entry rest board hphase hcompletions htime hwake =>
    simp only [hcompletions, length_cons] at hle ⊢
    omega
  | @advance time hphase hblocked hnext =>
    have hs : distance ex s = 2 := by
      unfold distance
      rw [hphase]
      simp only [hblocked, if_false]
    have ht : distance ex { s with now := max s.now time, phase := .completing } ≤ 1 := by
      unfold distance
      dsimp only
      rcases due_of_advance hnext with ⟨entry, hentry, hdue⟩ | ⟨hfree, entry, hentry, hdue⟩
      · rw [if_pos]
        · omega
        · exact ⟨entry, hentry, le_max_of_le_right hdue⟩
      · split
        · omega
        · rw [if_pos]
          exact ⟨entry, hentry, hfree, le_max_of_le_right hdue⟩
    dsimp only at ht ⊢
    omega
  | resume hphase hnotDue hleft =>
    dsimp only
    have hlt : distance ex { s with phase := .submitting } < distance ex s := by
      unfold distance
      rw [hphase]
      dsimp only
      rw [if_neg hnotDue]
      by_cases hcan : ex.CanSubmit s
      · rw [if_pos hcan, if_pos (show ex.CanSubmit { s with phase := .submitting } from hcan)]
        omega
      · rw [if_neg hcan, if_neg (show ¬ex.CanSubmit { s with phase := .submitting } from hcan)]
        omega
    omega

/-- A run of enough steps ends in a state that the steps lead to. -/
theorem loop_ends (hwf : ex.WellFormed) (hperforms : ex.Performs) {fuel : Nat} : ∀ {s : Simulation σ}, SimInv ex s → bound ex s < fuel →
      ∃ last, ex.loop fuel s = .ok (some last) ∧ Relation.ReflTransGen (Step ex) s last ∧ ex.step last = .ok none := by
  induction fuel with
  | zero =>
    intro s _ hlt
    omega
  | succ fuel ih =>
    intro s h hlt
    obtain ⟨result, hresult⟩ := step_ok hwf hperforms h
    cases result with
    | none =>
      refine ⟨s, ?_, .refl, hresult⟩
      rw [loop, hresult]
      rfl
    | some next =>
      have hstep := step_of_eq_some hresult
      have hnext := simInv_step hwf h hstep
      have hsmaller := bound_lt hnext hstep
      obtain ⟨last, hloop, hreach, hend⟩ := ih hnext (by omega)
      refine ⟨last, ?_, .head hstep hreach, hend⟩
      rw [loop, hresult]
      exact hloop

theorem simInv_of_reach (hwf : ex.WellFormed) (h : SimInv ex s) (hreach : Relation.ReflTransGen (Step ex) s t) : SimInv ex t := by
  induction hreach with
  | refl => exact h
  | tail _ hstep ih => exact simInv_step hwf ih hstep

/-- A run that has ended does not change with more steps. -/
theorem loop_mono {fuel more : Nat} (hle : fuel ≤ more) :
    ∀ {s last : Simulation σ}, ex.loop fuel s = .ok (some last) → ex.loop more s = .ok (some last) := by
  induction fuel generalizing more with
  | zero =>
    intro s last h
    cases h
  | succ fuel ih =>
    intro s last h
    obtain ⟨more, rfl⟩ : ∃ n, more = n + 1 := ⟨more - 1, by omega⟩
    rw [loop] at h ⊢
    obtain ⟨result, hresult, hrest⟩ := bind_eq_ok.mp h
    rw [hresult, ok_bind]
    cases result with
    | none => exact hrest
    | some next => exact ih (by omega) hrest

theorem runSimulated_mono {backend : σ} {fuel more : Nat} {last : Simulation σ} (hle : fuel ≤ more)
    (h : ex.runSimulated backend fuel = .ok (some last)) : ex.runSimulated backend more = .ok (some last) := by
  obtain ⟨first, hfirst, hloop⟩ := bind_eq_ok.mp h
  rw [runSimulated, hfirst, ok_bind]
  exact loop_mono hle hloop

end SimulatedAux

open SimulatedAux

/-- The steps that are enough for any run. -/
def Executor.enough (ex : Executor σ) : Nat := 8 * ex.tasks.length + 4

/-- A run with enough steps ends with every operation submitted and completed once, in an order that respects the dependencies. -/
theorem runSimulated_ends {ex : Executor σ} (hwf : ex.WellFormed) (hperforms : ex.Performs) (hworkers : 0 < ex.workers) (backend : σ)
    {fuel : Nat} (hfuel : ex.enough ≤ fuel) :
    ∃ first last, ex.start backend = .ok first ∧ ex.runSimulated backend fuel = .ok (some last) ∧
      Relation.ReflTransGen (Step ex) first last ∧ SimInv ex first ∧ SimInv ex last ∧ last.performed.Perm ex.order ∧
      last.finished.Perm ex.order := by
  obtain ⟨first, hstart, hinv, -, -, hcompletions, hperformed, -⟩ := start_ok hwf backend
  have hbound : bound ex first < fuel := by
    have hle := distance_le ex first
    unfold enough at hfuel
    unfold bound
    rw [hperformed, hcompletions, order, length_map]
    simp only [length_nil]
    omega
  obtain ⟨last, hloop, hreach, hend⟩ := loop_ends hwf hperforms hinv hbound
  have hlast := simInv_of_reach hwf hinv hreach
  have hfinished := finished_of_end hwf hworkers hlast hend
  refine ⟨first, last, hstart, ?_, hreach, hinv, hlast, ?_, ?_⟩
  · rw [runSimulated, hstart, ok_bind, hloop]
  · exact (perm_ext_iff_of_nodup hlast.performedNodup hwf.nodup).mpr fun opId =>
      ⟨hlast.performedMem opId, fun hmem => hlast.finishedMem opId (hfinished opId hmem)⟩
  · exact (perm_ext_iff_of_nodup hlast.finishedNodup hwf.nodup).mpr fun opId =>
      ⟨fun hin => hlast.performedMem opId (hlast.finishedMem opId hin), hfinished opId⟩

end EbpfSyscall.Kvio
