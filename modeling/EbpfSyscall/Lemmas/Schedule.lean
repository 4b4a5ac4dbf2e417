import EbpfSyscall.Lemmas.Simulated
import EbpfSyscall.Lib.Cells

/-!
# What a schedule decides

A run performs the operations one after the other on the target, so its outcomes and the state it leaves are those of performing them
in the order of the schedule. Where operations on one object are chained by their dependencies, every schedule has them in the order
of the record, and the outcomes do not depend on the schedule.
-/

namespace EbpfSyscall.Kvio

open Checked Queue BoardAux SimulatedAux List Function

variable {σ : Type}

/-- Performing the listed operations one after the other: the outcomes and the state they leave. -/
inductive Performed (ex : Executor σ) (backend : σ) : List Text → (Text → Option Outcome) → σ → Prop where
  | nil : Performed ex backend [] (fun _ => none) backend
  | concat {opIds : List Text} {outcomes : Text → Option Outcome} {before after : σ} {opId : Text} {outcome : Outcome}
      (h : Performed ex backend opIds outcomes before) (hperform : ex.perform opId before = .ok (outcome, after)) :
      Performed ex backend (opIds ++ [opId]) (Function.update outcomes opId (some outcome)) after

namespace ScheduleAux

variable {ex : Executor σ} {first s t : Simulation σ}

/-- The target is in the state that the operations performed so far lead to, and their outcomes are those in flight and in the
rows. -/
structure Follows (ex : Executor σ) (backend : σ) (s : Simulation σ) (outcomes : Text → Option Outcome) : Prop where
  performed : Performed ex backend s.performed outcomes s.backend
  inFlight : ∀ entry ∈ s.completions, outcomes entry.item.1 = some entry.item.2
  finished : ∀ opId ∈ s.finished, (s.board.rows opId).outcome = outcomes opId

theorem follows_step {backend : σ} {outcomes : Text → Option Outcome} (hwf : ex.WellFormed) (h : SimInv ex s)
    (hfollows : Follows ex backend s outcomes) (hstep : Step ex s t) : ∃ next, Follows ex backend t next := by
  cases hstep with
  | advance | resume => exact ⟨outcomes, hfollows.performed, hfollows.inFlight, hfollows.finished⟩
  | @submit entry rest outcome target hphase hpending hfree htime hperform =>
    have hentry : entry.item ∈ items s.board.pending := by
      rw [hpending]
      exact mem_cons_self
    have hnew : entry.item ∉ s.performed := by simpa using ((h.board.pending _).mp hentry).2.1
    refine ⟨update outcomes entry.item (some outcome), hfollows.performed.concat hperform, ?_, ?_⟩
    · intro other hother
      rcases mem_push.mp hother with rfl | hother
      · exact update_self _ _ _
      · have hin : other.item.1 ∈ s.inFlight := mem_map_of_mem (mem_map_of_mem hother)
        rw [update_of_ne]
        · exact hfollows.inFlight other hother
        · rintro heq
          exact hnew (heq ▸ ((h.inFlight _).mp hin).1)
    · intro opId hin
      have hne : opId ≠ entry.item := by
        rintro rfl
        exact hnew (h.finishedMem _ hin)
      rw [update_of_ne hne]
      simp only [Executor.submitted, update_of_ne hne]
      exact hfollows.finished opId hin
  | @complete entry rest board hphase hcompletions htime hwake =>
    have hboardRows : board.rows = s.completedRows entry := by
      obtain ⟨-, hnot⟩ := (h.inFlight entry.item.1).mp (by simp [Simulation.inFlight, items, hcompletions])
      exact (wake_completedRows hwf h hnot hwake).1
    refine ⟨outcomes, hfollows.performed, ?_, ?_⟩
    · intro other hother
      exact hfollows.inFlight other (by rw [hcompletions]; exact mem_cons_of_mem _ hother)
    · intro opId hin
      rw [hboardRows]
      by_cases heq : opId = entry.item.1
      · rw [heq, Simulation.completedRows, update_self]
        exact (hfollows.inFlight entry (by rw [hcompletions]; exact mem_cons_self)).symm
      · rw [Simulation.completedRows, update_of_ne heq]
        rcases mem_append.mp hin with hin | hin
        · exact hfollows.finished opId hin
        · exact absurd (mem_singleton.mp hin) heq

theorem follows_of_reach {backend : σ} (hwf : ex.WellFormed) (hstart : ex.start backend = .ok first)
    (hreach : Relation.ReflTransGen (Step ex) first s) : ∃ outcomes, Follows ex backend s outcomes := by
  obtain ⟨start, hstart', hinv, hbackend, -, hcompletions, hperformed, hfinished, -⟩ := start_ok hwf backend
  obtain rfl : first = start := Except.ok.inj (hstart.symm.trans hstart')
  induction hreach with
  | refl =>
    refine ⟨fun _ => none, ?_, by simp [hcompletions], by simp [hfinished]⟩
    rw [hperformed, hbackend]
    exact .nil
  | tail hreach hstep ih =>
    obtain ⟨outcomes, hfollows⟩ := ih
    exact follows_step hwf (simInv_of_reach hwf hinv hreach) hfollows hstep

end ScheduleAux

open ScheduleAux

/-- A run with enough steps performs every operation once, in an order that respects the dependencies; its outcomes and the state it
leaves are those of that order. -/
theorem runSimulated_performed {ex : Executor σ} (hwf : ex.WellFormed) (hperforms : ex.Performs) (hworkers : 0 < ex.workers)
    (backend : σ) {fuel : Nat} (hfuel : ex.enough ≤ fuel) :
    ∃ last outcomes, ex.runSimulated backend fuel = .ok (some last) ∧ last.performed.Perm ex.order ∧
      Precedence.Respects ex.depsOf last.performed ∧ Performed ex backend last.performed outcomes last.backend ∧
      ∀ opId ∈ ex.order, (last.board.rows opId).outcome = outcomes opId := by
  obtain ⟨first, last, hstart, hrun, hreach, -, hlast, hperformed, hfinished⟩ :=
    runSimulated_ends hwf hperforms hworkers backend hfuel
  obtain ⟨outcomes, hfollows⟩ := follows_of_reach hwf hstart hreach
  exact ⟨last, outcomes, hrun, hperformed, hlast.respects, hfollows.performed, fun opId hmem =>
    hfollows.finished opId (hfinished.mem_iff.mpr hmem)⟩

/-! ## Targets made of objects -/

/-- Performing an operation acts on the cell of its object. -/
def Executor.ActsOn {κ V : Type} [DecidableEq κ] (ex : Executor (κ → V)) (key : Text → κ) (act : Text → V → Outcome × V) : Prop :=
  ∀ opId ∈ ex.order, ∀ backend, ex.perform opId backend = .ok (Cells.step key act opId backend)

/-- The operations of the record on one object, in order, are each a dependency of the next. -/
def Executor.Chained {κ : Type} [DecidableEq κ] (ex : Executor σ) (key : Text → κ) : Prop :=
  ∀ k, (ex.order.filter (fun opId => key opId = k)).IsChain (fun a b => a ∈ ex.depsOf b)

namespace ScheduleAux

variable {κ V : Type} [DecidableEq κ] {key : Text → κ} {act : Text → V → Outcome × V}

theorem performed_cells {ex : Executor (κ → V)} (hacts : ex.ActsOn key act) {backend after : κ → V} {opIds : List Text}
    {outcomes : Text → Option Outcome} (h : Performed ex backend opIds outcomes after) (hmem : ∀ opId ∈ opIds, opId ∈ ex.order)
    (hnodup : opIds.Nodup) :
    after = Cells.run key act opIds backend ∧ ∀ opId, outcomes opId = Cells.result key act opId opIds backend := by
  induction h with
  | nil => exact ⟨rfl, fun _ => rfl⟩
  | @concat opIds outcomes before after opId outcome h hperform ih =>
    obtain ⟨hbefore, houtcomes⟩ := ih (fun other hother => hmem other (by simp [hother])) (nodup_append.mp hnodup).1
    have hnew : opId ∉ opIds := by
      intro hin
      exact (nodup_append.mp hnodup).2.2 opId hin opId (by simp) rfl
    rw [hacts opId (hmem opId (by simp)), Except.ok.injEq] at hperform
    rw [Cells.run_concat, ← hbefore, hperform]
    refine ⟨rfl, fun other => ?_⟩
    by_cases heq : other = opId
    · subst heq
      rw [update_self, Cells.result_concat_self hnew, ← hbefore, hperform]
    · rw [update_of_ne heq, houtcomes]
      by_cases hin : other ∈ opIds
      · rw [Cells.result_concat_of_mem hin]
      · rw [Cells.result_eq_none hin, Cells.result_eq_none (by simp [hin, heq])]

end ScheduleAux

/-- Where the operations on each object are chained, a run has the outcomes and leaves the state of performing the operations in the
order of the record. -/
theorem runSimulated_sequential {κ V : Type} [DecidableEq κ] {key : Text → κ} {act : Text → V → Outcome × V}
    {ex : Executor (κ → V)} (hwf : ex.WellFormed) (hacts : ex.ActsOn key act) (hchained : ex.Chained key) (hworkers : 0 < ex.workers)
    (backend : κ → V) {fuel : Nat} (hfuel : ex.enough ≤ fuel) :
    ∃ last, ex.runSimulated backend fuel = .ok (some last) ∧ last.backend = Cells.run key act ex.order backend ∧
      ∀ opId ∈ ex.order, (last.board.rows opId).outcome = Cells.result key act opId ex.order backend := by
  have hperforms : ex.Performs := fun opId hmem target => ⟨_, hacts opId hmem target⟩
  obtain ⟨last, outcomes, hrun, hperm, hrespects, hperformed, hrows⟩ :=
    runSimulated_performed hwf hperforms hworkers backend hfuel
  have hnodup : last.performed.Nodup := hperm.nodup_iff.mpr hwf.nodup
  obtain ⟨hbackend, houtcomes⟩ := performed_cells hacts hperformed (fun opId hin => hperm.mem_iff.mp hin) hnodup
  have hcells : ∀ k, last.performed.filter (fun opId => key opId = k) = ex.order.filter (fun opId => key opId = k) := by
    intro k
    exact hrespects.filter_eq_of_chain hnodup (hperm.symm.filter _) (hchained k)
  obtain ⟨hstate, hresults⟩ := Cells.run_congr act hcells backend
  refine ⟨last, hrun, hbackend.trans hstate, fun opId hmem => ?_⟩
  rw [hrows opId hmem, houtcomes, hresults]

end EbpfSyscall.Kvio
