import EbpfSyscall.Heatmap.Stats
import EbpfSyscall.Lib.Checked

/-!
# The values that the statistics keep

A push onto a full history is meant to forget the oldest half of it. Since a summary has sorted what was there, the half that is drained is
that of the smallest values of then, and it is the oldest half exactly when none of its values is greater than a later one that was
sorted with it. The sum and the ends of a summary are right for whatever is kept.
-/

namespace EbpfSyscall.Heatmap

open List RunningStats

/-- What the history is meant to be: the most recent pushes in the order of their arrival, and how many of them the last summary has seen. -/
structure History where
  recent : List Nat
  seen : Nat
  deriving DecidableEq, Repr

/-- A push onto a full history forgets the oldest half. -/
def History.step (history : History) : StatsOp → History
  | .push value =>
    if maxEntries ≤ history.recent.length then
      ⟨history.recent.drop (maxEntries / 2) ++ [value], history.seen - maxEntries / 2⟩
    else ⟨history.recent ++ [value], history.seen⟩
  | .summary => ⟨history.recent, history.recent.length⟩

def History.after (ops : List StatsOp) : History := ops.foldl History.step ⟨[], 0⟩

/-- No value of the oldest half is greater than a later one that the last summary has seen, if the half is to be forgotten. -/
def History.InOrder (history : History) : StatsOp → Prop
  | .push _ => maxEntries ≤ history.recent.length →
    ∀ a ∈ history.recent.take (maxEntries / 2), ∀ b ∈ (history.recent.take history.seen).drop (maxEntries / 2), a ≤ b
  | .summary => True

/-- So at every call. -/
def History.AllInOrder (history : History) : List StatsOp → Prop
  | [] => True
  | op :: rest => history.InOrder op ∧ (history.step op).AllInOrder rest

namespace StatsAux

open Sorting

/-! ## Sums -/

theorem sumU64_from (values : List Nat) (start : Nat) (hstart : start < 2 ^ 64) :
    values.foldlM addU64 start = if start + values.sum < 2 ^ 64 then Except.ok (start + values.sum) else Except.error .overflow := by
  induction values generalizing start with
  | nil =>
    rw [sum_nil, Nat.add_zero, if_pos hstart]
    rfl
  | cons value rest ih =>
    rw [foldlM_cons, addU64, sum_cons, ← Nat.add_assoc]
    by_cases hnext : start + value < 2 ^ 64
    · rw [if_pos hnext]
      exact ih (start + value) hnext
    · rw [if_neg hnext, if_neg (by omega)]
      rfl

/-- The cached sum is that of the values, and values that are not dirty are sorted. -/
structure Summed (stats : RunningStats) : Prop where
  sum : stats.cachedSum = stats.values.sum
  sorted : stats.dirty = false → stats.values.Pairwise (· ≤ ·)

/-- The values that a push leaves before the new one. -/
def kept (values : List Nat) : List Nat := if maxEntries ≤ values.length then values.drop (maxEntries / 2) else values

theorem sum_kept_le (values : List Nat) : (kept values).sum ≤ values.sum := by
  unfold kept
  split
  · exact (drop_sublist _ values).sum_le_sum fun _ _ => Nat.zero_le _
  · exact le_refl _

/-- What a push does: it appends the value to what is kept, or the sum overflows. -/
theorem push_cases {stats : RunningStats} (h : Summed stats) (value : Nat) :
    (stats.push value = .error .overflow ∧ 2 ^ 64 ≤ stats.values.sum + value) ∨
      stats.push value = .ok ⟨kept stats.values ++ [value], (kept stats.values).sum + value, true⟩ := by
  -- the sum of what is drained, and the sum without it
  have hcompact : (stats.compact = .error .overflow ∧ 2 ^ 64 ≤ stats.values.sum) ∨
      stats.compact = .ok { stats with values := kept stats.values, cachedSum := (kept stats.values).sum } := by
    rw [compact, kept]
    by_cases hfull : maxEntries ≤ stats.values.length
    · have hsum : (stats.values.take (maxEntries / 2)).sum + (stats.values.drop (maxEntries / 2)).sum = stats.values.sum := by
        rw [← sum_append, take_append_drop]
      have hsub : subU64 stats.cachedSum (stats.values.take (maxEntries / 2)).sum = .ok (stats.values.drop (maxEntries / 2)).sum := by
        rw [subU64, h.sum, if_pos (by omega)]
        exact congrArg Except.ok (by omega)
      rw [if_pos hfull, if_pos hfull]
      dsimp only
      rw [sumU64, sumU64_from _ 0 (by decide), Nat.zero_add]
      split
      · simp only [bind, Except.bind, hsub]
        exact Or.inr rfl
      · exact Or.inl ⟨rfl, by omega⟩
    · rw [if_neg hfull, if_neg hfull, ← h.sum]
      exact Or.inr rfl
  have hkept := sum_kept_le stats.values
  rcases hcompact with ⟨hoverflow, hlarge⟩ | hok
  · rw [push, hoverflow]
    exact Or.inl ⟨rfl, by omega⟩
  · simp only [push, hok, bind, Except.bind, addU64]
    by_cases hsum : (kept stats.values).sum + value < 2 ^ 64
    · rw [if_pos hsum]
      exact Or.inr rfl
    · rw [if_neg hsum]
      exact Or.inl ⟨rfl, by omega⟩

theorem summary_fst (scaled : Nat → Nat → Nat) (stats : RunningStats) : (stats.summary scaled).1 = stats.sorted := by
  unfold summary
  dsimp only
  split <;> rfl

/-- A summary leaves the values sorted, and is the same when they are sorted already. -/
theorem values_sorted {stats : RunningStats} (h : Summed stats) : stats.sorted.values = sort stats.values := by
  unfold sorted
  split
  next hempty =>
    rw [length_eq_zero_iff.mp hempty]
    exact (sort_of_pairwise Pairwise.nil).symm
  next =>
    split
    next => rfl
    next hclean => exact (sort_of_pairwise (h.sorted (by simpa using hclean))).symm

theorem summed_sorted {stats : RunningStats} (h : Summed stats) : Summed stats.sorted := by
  refine ⟨?_, fun _ => by rw [values_sorted h]; exact pairwise_sort _⟩
  have hcached : stats.sorted.cachedSum = stats.cachedSum := by
    unfold sorted
    split
    · rfl
    · split <;> rfl
  rw [hcached, values_sorted h, h.sum]
  exact ((sort_perm stats.values).sum_eq).symm

variable {scaled : Nat → Nat → Nat} {half : Nat}

/-- The calls keep the sum right, and none of them fails but for an overflow. -/
theorem summed_perform {stats : RunningStats} (h : Summed stats) (op : StatsOp) :
    stats.perform scaled op = .error .overflow ∨ ∃ next, stats.perform scaled op = .ok next ∧ Summed next := by
  cases op with
  | push value =>
    rcases push_cases h value with ⟨hoverflow, _⟩ | hok
    · exact Or.inl hoverflow
    · exact Or.inr ⟨_, hok, by rw [sum_append, sum_singleton], nofun⟩
  | summary =>
    refine Or.inr ⟨_, rfl, ?_⟩
    rw [summary_fst]
    exact summed_sorted h

theorem run_concat (scaled : Nat → Nat → Nat) (ops : List StatsOp) (op : StatsOp) :
    RunningStats.run scaled (ops ++ [op]) = RunningStats.run scaled ops >>= fun stats => stats.perform scaled op := by
  rw [run, foldlM_append]
  simp only [foldlM_cons, foldlM_nil, bind_pure]
  rfl

theorem summed_run (scaled : Nat → Nat → Nat) (ops : List StatsOp) :
    RunningStats.run scaled ops = .error .overflow ∨ ∃ last, RunningStats.run scaled ops = .ok last ∧ Summed last := by
  induction ops using reverseRecOn with
  | nil => exact Or.inr ⟨_, rfl, rfl, fun _ => Pairwise.nil⟩
  | append_singleton ops op ih =>
    rw [run_concat]
    rcases ih with hoverflow | ⟨stats, hstats, hsummed⟩
    · rw [hoverflow]
      exact Or.inl rfl
    · rw [hstats]
      exact summed_perform hsummed op

theorem summed_of_run {ops : List StatsOp} {stats : RunningStats} (h : RunningStats.run scaled ops = .ok stats) : Summed stats := by
  rcases summed_run scaled ops with hoverflow | ⟨last, hlast, hsummed⟩
  · rw [hoverflow] at h
    nomatch h
  · obtain rfl := Except.ok.inj (hlast.symm.trans h)
    exact hsummed

/-- The ends of a summary. -/
theorem summary_ends (scaled : Nat → Nat → Nat) {stats : RunningStats} (h : Summed stats) (hne : stats.values ≠ []) :
    ((stats.summary scaled).2.min ∈ stats.values ∧ ∀ value ∈ stats.values, (stats.summary scaled).2.min ≤ value) ∧
      ((stats.summary scaled).2.max ∈ stats.values ∧ ∀ value ∈ stats.values, value ≤ (stats.summary scaled).2.max) := by
  have hpos : 0 < stats.values.length := length_pos_iff.mpr hne
  have hlength := length_sort stats.values
  have hmem : ∀ value, value ∈ sort stats.values ↔ value ∈ stats.values := fun _ => (sort_perm stats.values).mem_iff
  have hsorted := pairwise_iff_getElem.mp (pairwise_sort stats.values)
  have hmin : (stats.summary scaled).2.min = (sort stats.values)[0] := by
    simp only [summary, if_neg hpos.ne', values_sorted h, getElem?_eq_getElem (hlength.symm ▸ hpos), Option.getD_some]
  have hmax : (stats.summary scaled).2.max = (sort stats.values)[stats.values.length - 1] := by
    simp only [summary, if_neg hpos.ne', values_sorted h,
      getElem?_eq_getElem (show stats.values.length - 1 < (sort stats.values).length by omega), Option.getD_some]
  rw [hmin, hmax, ← hmem, ← hmem]
  refine ⟨⟨getElem_mem _, fun value hvalue => ?_⟩, getElem_mem _, fun value hvalue => ?_⟩
  · obtain ⟨i, hi, rfl⟩ := getElem_of_mem ((hmem value).mpr hvalue)
    rcases Nat.eq_zero_or_pos i with rfl | hlater
    · exact le_refl _
    · exact hsorted 0 i _ hi hlater
  · obtain ⟨i, hi, rfl⟩ := getElem_of_mem ((hmem value).mpr hvalue)
    rcases Nat.lt_or_ge i (stats.values.length - 1) with hearlier | hlast
    · exact hsorted i _ hi _ hearlier
    · obtain rfl : i = stats.values.length - 1 := by omega
      exact le_refl _

/-! ## What is kept -/

/-- The values are the recent pushes, and those that a summary has seen come first, sorted. -/
structure Keeps (stats : RunningStats) (history : History) : Prop where
  values : stats.values = sort (history.recent.take history.seen) ++ history.recent.drop history.seen
  seen : history.seen ≤ history.recent.length

variable {stats : RunningStats} {history : History}

theorem Keeps.perm (h : Keeps stats history) : stats.values.Perm history.recent := by
  have hperm := (sort_perm (history.recent.take history.seen)).append_right (history.recent.drop history.seen)
  rw [take_append_drop] at hperm
  rw [h.values]
  exact hperm

theorem keeps_new : Keeps .new ⟨[], 0⟩ := ⟨by simp [new, sort], le_refl 0⟩

theorem Keeps.summary (h : Keeps stats history) (hsummed : Summed stats) : Keeps stats.sorted (history.step .summary) := by
  refine ⟨?_, le_refl _⟩
  rw [values_sorted hsummed, History.step, take_length, drop_length, append_nil]
  exact eq_sort_of_perm ((sort_perm _).trans h.perm) (pairwise_sort _)

/-- The values that a summary has seen, as those of the oldest half and the others. -/
theorem take_seen (hseen : half ≤ history.seen) :
    history.recent.take history.seen = history.recent.take half ++ (history.recent.take history.seen).drop half := by
  have h := (take_append_drop half (history.recent.take history.seen)).symm
  rwa [take_take, Nat.min_eq_left hseen] at h

/-- What is left of a full history, when no more than half of it has been seen. -/
theorem Keeps.drop_of_le (h : Keeps stats history) (hseen : history.seen ≤ half) : stats.values.drop half = history.recent.drop half := by
  have hlength : (sort (history.recent.take history.seen)).length = history.seen := by
    rw [length_sort, length_take, Nat.min_eq_left h.seen]
  rw [h.values, drop_append, hlength, drop_eq_nil_of_le (by omega), nil_append, drop_drop]
  congr 1
  omega

/-- What is left of it otherwise. -/
theorem Keeps.drop_of_lt (h : Keeps stats history) (hseen : half < history.seen) :
    stats.values.drop half = (sort (history.recent.take history.seen)).drop half ++ history.recent.drop history.seen := by
  have hlength : (sort (history.recent.take history.seen)).length = history.seen := by
    rw [length_sort, length_take, Nat.min_eq_left h.seen]
  rw [h.values, drop_append, hlength, Nat.sub_eq_zero_of_le hseen.le, drop_zero]

/-- Dropping the first half of the values is forgetting the oldest half exactly when that half is not greater than what was sorted with
it. -/
theorem Keeps.drop_perm_iff (h : Keeps stats history) (hhalf : half ≤ history.recent.length) :
    (stats.values.drop half).Perm (history.recent.drop half) ↔
      ∀ a ∈ history.recent.take half, ∀ b ∈ (history.recent.take history.seen).drop half, a ≤ b := by
  rcases Nat.lt_or_ge half history.seen with hseen | hseen
  · have hlength : (history.recent.take half).length = half := by rw [length_take, Nat.min_eq_left hhalf]
    have hrest : history.recent.drop half = (history.recent.take history.seen).drop half ++ history.recent.drop history.seen := by
      have hwhole := congrArg (drop half) (take_append_drop history.seen history.recent)
      rw [drop_append, length_take, Nat.min_eq_left h.seen, Nat.sub_eq_zero_of_le hseen.le, drop_zero] at hwhole
      exact hwhole.symm
    have hiff := drop_sort_perm_iff (history.recent.take half) ((history.recent.take history.seen).drop half)
    rw [← take_seen hseen.le, hlength] at hiff
    rw [h.drop_of_lt hseen, hrest, perm_append_right_iff, hiff]
  · have hnone : (history.recent.take history.seen).drop half = [] := drop_eq_nil_of_le (by rw [length_take]; omega)
    rw [h.drop_of_le hseen, hnone]
    exact iff_of_true (Perm.refl _) fun _ _ _ => nofun

/-- Then the values are again those of the history. -/
theorem Keeps.drop_eq (h : Keeps stats history) (hhalf : half ≤ history.recent.length)
    (hle : ∀ a ∈ history.recent.take half, ∀ b ∈ (history.recent.take history.seen).drop half, a ≤ b) :
    stats.values.drop half =
      sort ((history.recent.drop half).take (history.seen - half)) ++ (history.recent.drop half).drop (history.seen - half) := by
  rcases Nat.lt_or_ge half history.seen with hseen | hseen
  · have hlength : (history.recent.take half).length = half := by rw [length_take, Nat.min_eq_left hhalf]
    rw [h.drop_of_lt hseen, take_seen hseen.le, sort_append_of_le hle, drop_left' (by rw [length_sort, hlength]), drop_take,
      drop_drop, Nat.add_sub_cancel' hseen.le]
  · rw [h.drop_of_le hseen, Nat.sub_eq_zero_of_le hseen, take_zero, sort_of_pairwise Pairwise.nil, nil_append,
      drop_zero]

theorem Keeps.append (h : Keeps stats history) (value sum : Nat) :
    Keeps ⟨stats.values ++ [value], sum, true⟩ ⟨history.recent ++ [value], history.seen⟩ := by
  refine ⟨?_, by rw [length_append]; exact Nat.le_add_right_of_le h.seen⟩
  dsimp only
  rw [h.values, take_append_of_le_length h.seen, drop_append_of_le_length h.seen, append_assoc]

/-- A push keeps the recent values exactly when they are in order, and then in the same way as before. -/
theorem Keeps.push (h : Keeps stats history) {value : Nat} {next : RunningStats} (hsummed : Summed stats) (hpush : stats.push value = .ok next) :
    (next.values.Perm (history.step (.push value)).recent ↔ history.InOrder (.push value)) ∧
      (history.InOrder (.push value) → Keeps next (history.step (.push value))) := by
  rcases push_cases hsummed value with ⟨hoverflow, _⟩ | hok
  · rw [hoverflow] at hpush
    nomatch hpush
  · obtain rfl := Except.ok.inj (hok.symm.trans hpush)
    have hlength : stats.values.length = history.recent.length := h.perm.length_eq
    rw [History.step, kept, hlength]
    by_cases hfull : maxEntries ≤ history.recent.length
    · have hhalf : maxEntries / 2 ≤ history.recent.length := (Nat.div_le_self _ _).trans hfull
      rw [if_pos hfull, if_pos hfull]
      dsimp only
      refine ⟨?_, fun hinOrder => ?_⟩
      · rw [perm_append_right_iff, h.drop_perm_iff hhalf]
        exact ⟨fun hle _ => hle, fun hinOrder => hinOrder hfull⟩
      · have hkeeps : Keeps ⟨stats.values.drop (maxEntries / 2), 0, true⟩
            ⟨history.recent.drop (maxEntries / 2), history.seen - maxEntries / 2⟩ :=
          ⟨h.drop_eq hhalf (hinOrder hfull), by rw [length_drop]; exact Nat.sub_le_sub_right h.seen _⟩
        exact hkeeps.append value _
    · rw [if_neg hfull, if_neg hfull]
      have hkeeps := h.append value (stats.values.sum + value)
      exact ⟨iff_of_true hkeeps.perm fun hfull' => absurd hfull' hfull, fun _ => hkeeps⟩

theorem Keeps.perform (h : Keeps stats history) {op : StatsOp} {next : RunningStats} (hsummed : Summed stats)
    (hop : stats.perform scaled op = .ok next) :
    (next.values.Perm (history.step op).recent ↔ history.InOrder op) ∧ (history.InOrder op → Keeps next (history.step op)) := by
  cases op with
  | push value => exact h.push hsummed hop
  | summary =>
    obtain rfl := Except.ok.inj hop
    rw [summary_fst]
    have hkeeps := h.summary hsummed
    exact ⟨iff_of_true hkeeps.perm trivial, fun _ => hkeeps⟩

theorem allInOrder_concat (ops : List StatsOp) (history : History) (op : StatsOp) :
    history.AllInOrder (ops ++ [op]) ↔ history.AllInOrder ops ∧ (ops.foldl History.step history).InOrder op := by
  induction ops generalizing history with
  | nil => exact and_comm
  | cons first rest ih => rw [cons_append, History.AllInOrder, ih, History.AllInOrder, foldl_cons, and_assoc]

theorem allInOrder_front (front rest : List StatsOp) {history : History} (h : history.AllInOrder (front ++ rest)) : history.AllInOrder front := by
  induction front generalizing history with
  | nil => trivial
  | cons op front ih => exact ⟨h.1, ih h.2⟩

theorem after_concat (ops : List StatsOp) (op : StatsOp) : History.after (ops ++ [op]) = (History.after ops).step op :=
  foldl_concat ..

/-- As long as all is in order, the values are those of the history. -/
theorem keeps_of_allInOrder (ops : List StatsOp) (horder : History.AllInOrder ⟨[], 0⟩ ops)
    {stats : RunningStats} (hrun : RunningStats.run scaled ops = .ok stats) : Keeps stats (History.after ops) := by
  induction ops using reverseRecOn generalizing stats with
  | nil =>
    obtain rfl := Except.ok.inj hrun
    exact keeps_new
  | append_singleton ops op ih =>
    obtain ⟨hbefore, hlast⟩ := (allInOrder_concat ops ⟨[], 0⟩ op).mp horder
    rw [run_concat] at hrun
    obtain ⟨middle, hmiddle, hop⟩ := Checked.bind_eq_ok.mp hrun
    rw [after_concat]
    exact ((ih hbefore hmiddle).perform (summed_of_run hmiddle) hop).2 hlast

/-- If the values are always the recent pushes, all is in order. -/
theorem allInOrder_of_perm (ops : List StatsOp) {last : RunningStats} (hrun : RunningStats.run scaled ops = .ok last)
    (hperm : ∀ front rest, ops = front ++ rest → ∀ stats, RunningStats.run scaled front = .ok stats →
      stats.values.Perm (History.after front).recent) : History.AllInOrder ⟨[], 0⟩ ops := by
  induction ops using reverseRecOn generalizing last with
  | nil => trivial
  | append_singleton ops op ih =>
    have hwhole := hperm (ops ++ [op]) [] (append_nil _).symm last hrun
    rw [run_concat] at hrun
    obtain ⟨middle, hmiddle, hop⟩ := Checked.bind_eq_ok.mp hrun
    have hbefore := ih hmiddle fun front rest hfront => hperm front (rest ++ [op]) (by rw [hfront, append_assoc])
    rw [after_concat] at hwhole
    have hkeeps := keeps_of_allInOrder ops hbefore hmiddle
    exact (allInOrder_concat ops ⟨[], 0⟩ op).mpr ⟨hbefore, (hkeeps.perform (summed_of_run hmiddle) hop).1.mp hwhole⟩

/-! ## Pushes onto a history that is not full -/

theorem foldlM_pushes (scaled : Nat → Nat → Nat) (values : List Nat) (stats : RunningStats) (hfits : stats.values.length + values.length ≤ maxEntries)
    (hsum : stats.cachedSum + values.sum < 2 ^ 64) :
    (values.map StatsOp.push).foldlM (RunningStats.perform scaled) stats =
      .ok ⟨stats.values ++ values, stats.cachedSum + values.sum, stats.dirty || !values.isEmpty⟩ := by
  induction values generalizing stats with
  | nil => simp [pure, Except.pure]
  | cons value rest ih =>
    rw [sum_cons] at hsum ⊢
    rw [length_cons] at hfits
    have hpush : stats.perform scaled (.push value) = .ok ⟨stats.values ++ [value], stats.cachedSum + value, true⟩ := by
      rw [perform, push, compact, if_neg (by omega)]
      simp only [pure, Except.pure, bind, Except.bind, addU64, if_pos (show stats.cachedSum + value < 2 ^ 64 by omega)]
    rw [map_cons, foldlM_cons, hpush]
    have hrest := ih ⟨stats.values ++ [value], stats.cachedSum + value, true⟩ (by rw [length_append, length_singleton]; omega)
      (by dsimp only; omega)
    rw [show ((Except.ok _ : Except ArithError RunningStats) >>= _) = _ from hrest]
    simp [Nat.add_assoc]

theorem foldl_pushes (values : List Nat) (history : History) (hfits : history.recent.length + values.length ≤ maxEntries) :
    (values.map StatsOp.push).foldl History.step history = ⟨history.recent ++ values, history.seen⟩ := by
  induction values generalizing history with
  | nil => simp
  | cons value rest ih =>
    rw [length_cons] at hfits
    rw [map_cons, foldl_cons, History.step, if_neg (by omega), ih _ (by rw [length_append, length_singleton]; omega),
      append_assoc]
    rfl

theorem sort_ones_zeros (n : Nat) : sort (List.replicate n 1 ++ List.replicate n 0) = List.replicate n 0 ++ List.replicate n 1 := by
  refine (eq_sort_of_perm perm_append_comm ?_).symm
  refine pairwise_append.mpr ⟨pairwise_replicate.mpr (Or.inr (le_refl 0)), pairwise_replicate.mpr (Or.inr (le_refl 1)), ?_⟩
  intro a ha b hb
  rw [eq_of_mem_replicate ha, eq_of_mem_replicate hb]
  exact Nat.zero_le 1

/-- Half of the history ones, then half of it zeros, a summary and one more push. -/
theorem run_ones_zeros (scaled : Nat → Nat → Nat) {n : Nat} (hn : maxEntries = n + n) (hpos : 0 < n) :
    ∃ stats, RunningStats.run scaled ((List.replicate n 1 ++ List.replicate n 0).map StatsOp.push ++ [.summary, .push 2]) = .ok stats ∧
      stats.values = List.replicate n 1 ++ [2] := by
  have hlength : (replicate n 1 ++ replicate n 0).length = n + n := by simp
  have hsum : (replicate n 1 ++ replicate n 0).sum = n := by simp
  have hbound : n < 2 ^ 63 := by
    unfold maxEntries at hn
    omega
  have hpushes := foldlM_pushes scaled (replicate n 1 ++ replicate n 0) .new
    (by rw [hlength, hn]; exact (Nat.zero_add _).le) (by rw [hsum]; dsimp only [new]; omega)
  have hne : (replicate n 1 ++ replicate n 0).isEmpty = false := by
    rw [isEmpty_eq_false_iff_exists_mem]
    exact ⟨1, mem_append_left _ (mem_replicate.mpr ⟨hpos.ne', rfl⟩)⟩
  rw [hsum, hne] at hpushes
  have hsummed : Summed ⟨replicate n 1 ++ replicate n 0, n, true⟩ := ⟨hsum.symm, nofun⟩
  have hsorted := values_sorted hsummed
  rw [sort_ones_zeros] at hsorted
  have hkept : kept (replicate n 0 ++ replicate n 1) = replicate n 1 := by
    rw [kept, if_pos (by rw [length_append, length_replicate, length_replicate, hn])]
    exact drop_left' (by rw [length_replicate]; omega)
  have hpush := (push_cases (summed_sorted hsummed) 2).resolve_left fun hoverflow => by
    have hlarge := hoverflow.2
    rw [hsorted, perm_append_comm.sum_eq, hsum] at hlarge
    omega
  rw [hsorted, hkept] at hpush
  refine ⟨⟨replicate n 1 ++ [2], (replicate n 1).sum + 2, true⟩, ?_, rfl⟩
  rw [run, foldlM_append, hpushes]
  have hstart : new.values ++ (replicate n 1 ++ replicate n 0) = replicate n 1 ++ replicate n 0 :=
    nil_append _
  rw [hstart, show new.cachedSum + n = n from Nat.zero_add n, show (new.dirty || !false) = true from rfl]
  simp only [bind, Except.bind, foldlM_cons, foldlM_nil, perform, summary_fst, hpush, pure, Except.pure]

theorem after_ones_zeros {n : Nat} (hn : maxEntries = n + n) :
    (History.after ((List.replicate n 1 ++ List.replicate n 0).map StatsOp.push ++ [.summary, .push 2])).recent =
      List.replicate n 0 ++ [2] := by
  have hlength : (replicate n 1 ++ replicate n 0).length = n + n := by simp
  have hfull : maxEntries ≤ ([] ++ (replicate n 1 ++ replicate n 0)).length := by rw [nil_append, hlength, hn]
  rw [History.after, foldl_append, foldl_pushes _ _ (by rw [hlength, hn]; exact (Nat.zero_add _).le), foldl_cons, foldl_cons,
    foldl_nil, History.step, History.step, if_pos hfull, nil_append,
    drop_left' (show (replicate n 1).length = maxEntries / 2 by rw [length_replicate]; omega)]

end StatsAux

open StatsAux

/-- The values have the right sum, the summary has their ends, and no subtraction goes below zero. They are the recent pushes at every call
exactly when, whenever a half is forgotten, no value of it is greater than a later one that the last summary has seen. -/
theorem retained_iff (scaled : Nat → Nat → Nat) (ops : List StatsOp) (hsums : RunningStats.run scaled ops ≠ .error .overflow) :
    ((∃ last, RunningStats.run scaled ops = .ok last) ∧
        ∀ front rest, ops = front ++ rest → ∀ stats, RunningStats.run scaled front = .ok stats →
          stats.values.Perm (History.after front).recent ∧ stats.cachedSum = stats.values.sum ∧
          (stats.values ≠ [] →
            ((stats.summary scaled).2.min ∈ stats.values ∧ ∀ value ∈ stats.values, (stats.summary scaled).2.min ≤ value) ∧
            ((stats.summary scaled).2.max ∈ stats.values ∧ ∀ value ∈ stats.values, value ≤ (stats.summary scaled).2.max))) ↔
      History.AllInOrder ⟨[], 0⟩ ops := by
  obtain ⟨last, hlast, _⟩ := (summed_run scaled ops).resolve_left hsums
  constructor
  · rintro ⟨_, hall⟩
    exact allInOrder_of_perm ops hlast fun front rest hfront stats hrun => (hall front rest hfront stats hrun).1
  · intro horder
    refine ⟨⟨last, hlast⟩, fun front rest hfront stats hrun => ?_⟩
    have hsummed := summed_of_run hrun
    have hfrontOrder : History.AllInOrder ⟨[], 0⟩ front := by
      subst hfront
      exact allInOrder_front front rest horder
    exact ⟨(keeps_of_allInOrder front hfrontOrder hrun).perm, hsummed.sum, summary_ends scaled hsummed⟩

/-- A push, a summary and a smaller push. -/
theorem retained_iff_short : ∃ last, RunningStats.run (fun n p => p * n / 100) [.push 1, .summary, .push 0] = .ok last ∧ last.values.Perm [1, 0] := by
  have h := (retained_iff (fun n p => p * n / 100) [.push 1, .summary, .push 0] (by decide +kernel)).mpr
    ⟨fun hfull => absurd hfull (by decide), trivial, fun hfull => absurd hfull (by decide), trivial⟩
  obtain ⟨⟨last, hlast⟩, hall⟩ := h
  exact ⟨last, hlast, (hall _ [] (List.append_nil _).symm last hlast).1⟩

/-- Half of the history ones, then half of it zeros, a summary and one more push: the zeros are forgotten, and not the older ones. -/
theorem retained_not : ∃ stats, RunningStats.run (fun n p => p * n / 100)
        ((List.replicate 50000 1 ++ List.replicate 50000 0).map StatsOp.push ++ [.summary, .push 2]) = .ok stats ∧
      stats.values = List.replicate 50000 1 ++ [2] ∧
      (History.after ((List.replicate 50000 1 ++ List.replicate 50000 0).map StatsOp.push ++ [.summary, .push 2])).recent =
        List.replicate 50000 0 ++ [2] := by
  obtain ⟨stats, hrun, hvalues⟩ := run_ones_zeros (fun n p => p * n / 100) (show maxEntries = 50000 + 50000 from rfl) (by decide)
  exact ⟨stats, hrun, hvalues, after_ones_zeros rfl⟩

end EbpfSyscall.Heatmap
