import Mathlib

/-!
# Runs of a system of labelled steps

A system whose steps are named by what happens: the thread that moves, the answer of the kernel, the message that arrives. Given the
event, a step is a function, and an event that cannot happen in a state has no step. A run is a list of events. The rule for an
invariant takes a condition that the events of the run meet in the states in which they happen.
-/

namespace Runs

variable {σ ε : Type} {step : σ → ε → Option σ} {events : List ε} {s last : σ} {ok : σ → ε → Prop}

/-- The state after events. -/
def run (step : σ → ε → Option σ) : σ → List ε → Option σ
  | s, [] => some s
  | s, e :: events => (step s e).bind fun next => run step next events

/-- Every event meets the condition in the state in which it happens. -/
def Meets (step : σ → ε → Option σ) (ok : σ → ε → Prop) : σ → List ε → Prop
  | _, [] => True
  | s, e :: events => ok s e ∧ ∀ next ∈ step s e, Meets step ok next events

@[simp] theorem run_nil (s : σ) : run step s [] = some s := rfl

/-- A step that happens only under a condition. -/
theorem guard_eq_some {c : Prop} [Decidable c] {a b : σ} : (if c then some a else none) = some b ↔ c ∧ a = b := by
  rw [Option.ite_none_right_eq_some, Option.some.injEq]

theorem run_cons_eq_some {e : ε} : run step s (e :: events) = some last ↔ ∃ next, step s e = some next ∧ run step next events = some last :=
  Option.bind_eq_some_iff

theorem run_append {front rest : List ε} :
    run step s (front ++ rest) = some last ↔ ∃ mid, run step s front = some mid ∧ run step mid rest = some last := by
  induction front generalizing s with
  | nil => simp
  | cons e front ih =>
    rw [List.cons_append, run_cons_eq_some]
    constructor
    · rintro ⟨next, hnext, hrest⟩
      obtain ⟨mid, hmid, hlast⟩ := ih.mp hrest
      exact ⟨mid, run_cons_eq_some.mpr ⟨next, hnext, hmid⟩, hlast⟩
    · rintro ⟨mid, hmid, hlast⟩
      obtain ⟨next, hnext, hfront⟩ := run_cons_eq_some.mp hmid
      exact ⟨next, hnext, ih.mpr ⟨mid, hfront, hlast⟩⟩

theorem Meets.front {front rest : List ε} (h : Meets step ok s (front ++ rest)) : Meets step ok s front := by
  induction front generalizing s with
  | nil => trivial
  | cons e front ih => exact ⟨h.1, fun next hnext => ih (h.2 next hnext)⟩

theorem meets_of_forall (h : ∀ e ∈ events, ∀ s, ok s e) : Meets step ok s events := by
  induction events generalizing s with
  | nil => trivial
  | cons e events ih =>
    obtain ⟨he, hevents⟩ := List.forall_mem_cons.mp h
    exact ⟨he s, fun next _ => ih hevents⟩

/-- What holds at the start and is kept by every step that meets the condition holds after every run that meets it. -/
theorem invariant (I : σ → Prop) (hstep : ∀ s e next, I s → ok s e → step s e = some next → I next) (hstart : I s) (hmeets : Meets step ok s events) (hrun : run step s events = some last) : I last := by
  induction events generalizing s with
  | nil =>
    rw [run_nil, Option.some.injEq] at hrun
    exact hrun ▸ hstart
  | cons e events ih =>
    obtain ⟨next, hnext, hrest⟩ := run_cons_eq_some.mp hrun
    exact ih (hstep s e next hstart hmeets.1 hnext) (hmeets.2 next hnext) hrest

/-- What every step keeps holds after every run. -/
theorem invariant_of_step (I : σ → Prop) (hstep : ∀ s e next, I s → step s e = some next → I next)
    (hstart : I s) (hrun : run step s events = some last) : I last := by
  induction events generalizing s with
  | nil =>
    rw [run_nil, Option.some.injEq] at hrun
    exact hrun ▸ hstart
  | cons e events ih =>
    obtain ⟨next, hnext, hrest⟩ := run_cons_eq_some.mp hrun
    exact ih (hstep s e next hstart hnext) hrest

/-- A run whose last state passes a test has a last state. -/
theorem exists_of_any {o : Option σ} {p : σ → Bool} (h : o.any p = true) : ∃ s, o = some s ∧ p s = true := by
  cases o with
  | none => cases h
  | some s => exact ⟨s, rfl, h⟩

instance decidableMeets (step : σ → ε → Option σ) (ok : σ → ε → Prop) [∀ s e, Decidable (ok s e)] : ∀ s events, Decidable (Meets step ok s events)
  | _, [] => inferInstanceAs (Decidable True)
  | s, e :: events =>
    have : ∀ next, Decidable (Meets step ok next events) := fun next => decidableMeets step ok next events
    inferInstanceAs (Decidable (ok s e ∧ ∀ next ∈ step s e, Meets step ok next events))

/-! ## Logs -/

section Logs

variable {α : Type} {P : List α → α → Prop}

/-- Every entry of a log suits the entries before it. -/
def Logged (P : List α → α → Prop) (log : List α) : Prop := ∀ before entry after, log = before ++ entry :: after → P before entry

theorem logged_nil : Logged P [] := by
  intro before entry after h
  simp at h

theorem Logged.concat {log : List α} (h : Logged P log) {e : α} (he : P log e) : Logged P (log ++ [e]) := by
  intro before entry after heq
  rcases List.eq_nil_or_concat after with rfl | ⟨front, last, rfl⟩
  · obtain ⟨rfl, hlast⟩ := List.append_inj' heq rfl
    obtain rfl : e = entry := by simpa using hlast
    exact he
  · have hsplit : log ++ [e] = (before ++ entry :: front) ++ [last] := by simpa using heq
    obtain ⟨hfront, -⟩ := List.append_inj' hsplit rfl
    exact h before entry front hfront

end Logs

end Runs
