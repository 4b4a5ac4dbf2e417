import Mathlib

/-!
# Counting prerequisites down

Each item waits for a list of prerequisites, which may name one twice, and has a counter of those that are left. When a prerequisite
is done, the counters of its dependents go down once for each time they name it, and an item whose counter reaches zero is woken.
A counter that starts at the length of the list therefore reaches zero exactly once: when the last prerequisite is done.
-/

namespace Countdown

variable {ι : Type} [DecidableEq ι] [BEq ι] [LawfulBEq ι]

/-- The counters go down along a list of dependents; the items that reach zero, in order. -/
def countdown (left : ι → Int) : List ι → (ι → Int) × List ι
  | [] => (left, [])
  | i :: rest =>
    let next := countdown (Function.update left i (left i - 1)) rest
    (next.1, if left i - 1 = 0 then i :: next.2 else next.2)

/-- The items that wait for `d`, once for each time they name it; an item comes with its prerequisites. -/
def dependents (waits : List (ι × List ι)) (d : ι) : List ι :=
  waits.flatMap fun wait => (wait.2.filter (· = d)).map fun _ => wait.1

theorem countdown_cons (left : ι → Int) (i : ι) (rest : List ι) : countdown left (i :: rest) =
      ((countdown (Function.update left i (left i - 1)) rest).1,
        if left i - 1 = 0 then i :: (countdown (Function.update left i (left i - 1)) rest).2
        else (countdown (Function.update left i (left i - 1)) rest).2) := rfl

/-- Every counter goes down by the number of times its item is listed. -/
theorem countdown_left (left : ι → Int) (is : List ι) (i : ι) : (countdown left is).1 i = left i - is.count i := by
  induction is generalizing left with
  | nil => simp [countdown]
  | cons j rest ih =>
    rw [countdown_cons]
    dsimp only
    rw [ih, List.count_cons]
    by_cases h : j = i
    · subst h
      simp
      omega
    · simp [h, Function.update_of_ne (Ne.symm h)]

/-- An item is woken exactly when it is listed as often as its counter says, and only once. -/
theorem countdown_woken {left : ι → Int} {is : List ι} (h : ∀ i, (is.count i : Int) ≤ left i) :
    (∀ i, i ∈ (countdown left is).2 ↔ i ∈ is ∧ left i = is.count i) ∧ (countdown left is).2.Nodup := by
  induction is generalizing left with
  | nil => simp [countdown]
  | cons j rest ih =>
    have hrest : ∀ i, (rest.count i : Int) ≤ Function.update left j (left j - 1) i := by
      intro i
      have hi := h i
      rw [List.count_cons] at hi
      by_cases hij : j = i
      · subst hij
        rw [Function.update_self]
        simp at hi
        omega
      · rw [Function.update_of_ne (Ne.symm hij)]
        simpa [hij] using hi
    obtain ⟨hmem, hnodup⟩ := ih hrest
    have hj := h j
    rw [List.count_cons_self] at hj
    have hnot : left j - 1 = 0 → j ∉ (countdown (Function.update left j (left j - 1)) rest).2 := by
      intro hzero hin
      have hcount := (hmem j).mp hin
      rw [Function.update_self] at hcount
      have hpos := List.count_pos_iff.mpr hcount.1
      omega
    rw [countdown_cons]
    dsimp only
    constructor
    · intro i
      have hcount : (j :: rest).count i = rest.count i + if j = i then 1 else 0 := by simp [List.count_cons]
      by_cases hij : j = i
      · subst hij
        rw [List.count_cons_self]
        have hzero : j ∉ rest → rest.count j = 0 := List.count_eq_zero.mpr
        have hself := hmem j
        rw [Function.update_self] at hself
        split
        · rename_i hleft
          simp only [List.mem_cons, true_or, true_and, true_iff]
          omega
        · rename_i hleft
          rw [hself]
          simp only [List.mem_cons, true_or, true_and]
          constructor
          · rintro ⟨-, heq⟩
            omega
          · intro heq
            refine ⟨?_, by omega⟩
            by_contra hin
            have := hzero hin
            omega
      · have hother := hmem i
        rw [Function.update_of_ne (Ne.symm hij)] at hother
        have hlist : (i ∈ if left j - 1 = 0 then j :: (countdown (Function.update left j (left j - 1)) rest).2
            else (countdown (Function.update left j (left j - 1)) rest).2) ↔
            i ∈ (countdown (Function.update left j (left j - 1)) rest).2 := by
          split <;> simp [Ne.symm hij]
        rw [hlist, hother, hcount, if_neg hij, Nat.add_zero, List.mem_cons, or_iff_right (Ne.symm hij)]
    · split
      · rename_i hzero
        exact List.nodup_cons.mpr ⟨hnot hzero, hnodup⟩
      · exact hnodup

/-- An item that is not there is not among the dependents. -/
theorem count_dependents_of_notMem {waits : List (ι × List ι)} {i : ι} (h : i ∉ waits.map Prod.fst) (d : ι) : (dependents waits d).count i = 0 := by
  rw [List.count_eq_zero, dependents, List.mem_flatMap]
  rintro ⟨wait, hwait, hin⟩
  obtain ⟨_, -, rfl⟩ := List.mem_map.mp hin
  exact h (List.mem_map_of_mem hwait)

/-- An item is listed among the dependents of `d` as often as it names `d`. -/
theorem count_dependents {waits : List (ι × List ι)} (hnodup : (waits.map Prod.fst).Nodup) {i : ι} {deps : List ι}
    (h : (i, deps) ∈ waits) (d : ι) : (dependents waits d).count i = deps.count d := by
  induction waits with
  | nil => simp at h
  | cons wait rest ih =>
    rw [List.map_cons, List.nodup_cons] at hnodup
    rw [dependents, List.flatMap_cons, List.count_append, ← dependents]
    rcases List.mem_cons.mp h with rfl | hrest
    · rw [count_dependents_of_notMem hnodup.1, List.map_const', List.count_replicate_self, Nat.add_zero, List.count,
        List.countP_eq_length_filter]
      refine congrArg List.length (List.filter_congr fun x _ => ?_)
      rw [← beq_eq_decide]
    · have hne : wait.1 ≠ i := by
        rintro rfl
        exact hnodup.1 (List.mem_map.mpr ⟨_, hrest, rfl⟩)
      rw [ih hnodup.2 hrest, List.map_const', List.count_replicate, if_neg (by simpa using hne), Nat.zero_add]
end Countdown
