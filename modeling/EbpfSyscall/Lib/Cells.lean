import Mathlib

/-!
# Actions on cells

A state of cells, and items that each act on one cell and return a result. Running a list of items, the result of an item and the
last value of a cell depend only on the items of that cell: two lists that agree cell by cell give the same results and the same
state, however the cells are interleaved.
-/

namespace Cells

open List

variable {ι κ V ρ : Type} [DecidableEq κ] {i : ι} {items : List ι}

/-- One item acts on its cell. -/
def step (key : ι → κ) (act : ι → V → ρ × V) (i : ι) (state : κ → V) : ρ × (κ → V) :=
  ((act i (state (key i))).1, Function.update state (key i) (act i (state (key i))).2)

/-- The state after a list of items. -/
def run (key : ι → κ) (act : ι → V → ρ × V) : List ι → (κ → V) → κ → V
  | [], state => state
  | i :: rest, state => run key act rest (step key act i state).2

/-- The result of an item in a list, at its first place. -/
def result [DecidableEq ι] (key : ι → κ) (act : ι → V → ρ × V) (i : ι) : List ι → (κ → V) → Option ρ
  | [], _ => none
  | j :: rest, state => if j = i then some (step key act i state).1 else result key act i rest (step key act j state).2

/-- The value of one cell after the items that act on it. -/
def cellRun (act : ι → V → ρ × V) : List ι → V → V
  | [], v => v
  | i :: rest, v => cellRun act rest (act i v).2

/-- The result of an item among those of its cell. -/
def cellResult [DecidableEq ι] (act : ι → V → ρ × V) (i : ι) : List ι → V → Option ρ
  | [], _ => none
  | j :: rest, v => if j = i then some (act i v).1 else cellResult act i rest (act j v).2

variable {key : ι → κ} {act : ι → V → ρ × V}

theorem step_same (i : ι) (state : κ → V) : (step key act i state).2 (key i) = (act i (state (key i))).2 :=
  Function.update_self _ _ _

theorem step_other {k : κ} (h : key i ≠ k) (state : κ → V) : (step key act i state).2 k = state k :=
  Function.update_of_ne (Ne.symm h) _ _

/-- A cell sees only its own items. -/
theorem run_apply (items : List ι) (state : κ → V) (k : κ) :
    run key act items state k = cellRun act (items.filter (fun i => key i = k)) (state k) := by
  induction items generalizing state with
  | nil => rfl
  | cons i rest ih =>
    rw [run, ih]
    by_cases h : key i = k
    · rw [filter_cons_of_pos (by simp [h]), cellRun, ← h, step_same]
    · rw [filter_cons_of_neg (by simp [h]), step_other h]

theorem run_concat (items : List ι) (i : ι) (state : κ → V) : run key act (items ++ [i]) state = (step key act i (run key act items state)).2 := by
  induction items generalizing state with
  | nil => rfl
  | cons j rest ih => rw [cons_append, run, ih, run]

variable [DecidableEq ι]

theorem result_eq (items : List ι) (state : κ → V) (i : ι) :
    result key act i items state = cellResult act i (items.filter (fun j => key j = key i)) (state (key i)) := by
  induction items generalizing state with
  | nil => rfl
  | cons j rest ih =>
    rw [result]
    by_cases heq : j = i
    · subst heq
      rw [if_pos rfl, filter_cons_of_pos (by simp), cellResult, if_pos rfl]
      rfl
    · rw [if_neg heq, ih]
      by_cases h : key j = key i
      · rw [filter_cons_of_pos (by simp [h]), cellResult, if_neg heq, ← h, step_same]
      · rw [filter_cons_of_neg (by simp [h]), step_other h]

/-- Two lists that agree cell by cell give the same state and the same results. -/
theorem run_congr (act : ι → V → ρ × V) {items' : List ι}
    (h : ∀ k, items.filter (fun i => key i = k) = items'.filter (fun i => key i = k)) (state : κ → V) :
    run key act items state = run key act items' state ∧
      ∀ i, result key act i items state = result key act i items' state := by
  refine ⟨funext fun k => ?_, fun i => ?_⟩
  · rw [run_apply, run_apply, h]
  · rw [result_eq, result_eq, h]

/-- The result of an item is that of its action on the state before it. -/
theorem result_split {before : List ι} (h : i ∉ before) (after : List ι) (state : κ → V) :
    result key act i (before ++ i :: after) state = some (act i (run key act before state (key i))).1 := by
  induction before generalizing state with
  | nil => simp [result, run, step]
  | cons j rest ih =>
    rw [mem_cons, not_or] at h
    rw [cons_append, result, if_neg (Ne.symm h.1), ih h.2, run]

/-- An item that is not run has no result. -/
theorem result_eq_none (h : i ∉ items) (state : κ → V) : result key act i items state = none := by
  induction items generalizing state with
  | nil => rfl
  | cons j rest ih =>
    rw [mem_cons, not_or] at h
    rw [result, if_neg (Ne.symm h.1), ih h.2]

/-- An item that is run has a result. -/
theorem exists_result (h : i ∈ items) (state : κ → V) : ∃ r, result key act i items state = some r := by
  induction items generalizing state with
  | nil => cases h
  | cons j rest ih =>
    rw [result]
    by_cases heq : j = i
    · exact ⟨_, if_pos heq⟩
    · rw [if_neg heq]
      exact ih ((mem_cons.mp h).resolve_left (Ne.symm heq)) _

/-- The result of an item that is run last. -/
theorem result_concat_self (h : i ∉ items) (state : κ → V) :
    result key act i (items ++ [i]) state = some (step key act i (run key act items state)).1 := by
  induction items generalizing state with
  | nil => simp [result, run]
  | cons j rest ih =>
    rw [mem_cons, not_or] at h
    rw [cons_append, result, if_neg (Ne.symm h.1), ih h.2, run]

/-- An item that is run later does not change the result of one that was run before. -/
theorem result_concat_of_mem {j : ι} (h : i ∈ items) (state : κ → V) : result key act i (items ++ [j]) state = result key act i items state := by
  induction items generalizing state with
  | nil => simp at h
  | cons k rest ih =>
    rw [cons_append, result, result]
    by_cases heq : k = i
    · rw [if_pos heq, if_pos heq]
    · rw [if_neg heq, if_neg heq, ih ((mem_cons.mp h).resolve_left (Ne.symm heq))]

end Cells
