import EbpfSyscall.Theorems.Heatmap

/-!
# The difference that one sample takes

The dirty pages are batched into runs and every run is compared with the shadow and copied into it. Whatever the runs are, the result is
that of comparing the pages one by one: the runs are disjoint, so each word is compared with the shadow before the sample.
-/

namespace EbpfSyscall.Heatmap

open List

/-- The address is on one of the pages. -/
def OnPages (pages : List Nat) (addr : Nat) : Prop := ∃ page ∈ pages, page ≤ addr ∧ addr < page + pageSize

instance (pages : List Nat) (addr : Nat) : Decidable (OnPages pages addr) :=
  inferInstanceAs (Decidable (∃ page ∈ pages, page ≤ addr ∧ addr < page + pageSize))

namespace HeatmapAux

/-! ## Maximal runs -/

variable {run : Nat × Nat} {engine : DiffEngine} {region : Region}

theorem start_of_mem_batchLoop {rest : List Nat} {runStart runCount previous : Nat}
    (h : run ∈ batchLoop runStart runCount previous rest) : run.1 = runStart ∨ run.1 ∈ rest := by
  induction rest generalizing runStart runCount previous with
  | nil =>
    rw [batchLoop, mem_singleton] at h
    exact Or.inl (by rw [h])
  | cons page rest ih =>
    rw [batchLoop] at h
    split at h
    · exact (ih h).imp id (mem_cons_of_mem page)
    · rcases mem_cons.mp h with rfl | h
      · exact Or.inl rfl
      · rcases ih h with hstart | hrest
        · exact Or.inr (hstart ▸ mem_cons_self)
        · exact Or.inr (mem_cons_of_mem page hrest)

/-- Between the end of a run and the start of a later one there is a page that is in none. -/
theorem pairwise_batchLoop {start : Nat} (rest : List Nat) (runStart runCount previous : Nat)
    (hprevious : previous + pageSize = runStart + runCount * pageSize) (haligned : ∃ k, previous = start + k * pageSize)
    (hrest : ∀ page ∈ rest, ∃ k, page = start + k * pageSize) (hsorted : (previous :: rest).Pairwise (· < ·)) :
    (batchLoop runStart runCount previous rest).Pairwise fun a b => a.1 + a.2 * pageSize < b.1 := by
  induction rest generalizing runStart runCount previous with
  | nil => exact pairwise_singleton _ _
  | cons page rest ih =>
    obtain ⟨hpage, hrest⟩ := forall_mem_cons.mp hrest
    obtain ⟨hlater, hsorted⟩ := pairwise_cons.mp hsorted
    have hlt : previous < page := hlater page mem_cons_self
    rw [batchLoop]
    by_cases hnext : page = previous + pageSize
    · rw [if_pos hnext]
      refine ih runStart (runCount + 1) page ?_ hpage hrest hsorted
      rw [Nat.add_mul, Nat.one_mul]
      omega
    · rw [if_neg hnext, pairwise_cons]
      refine ⟨fun run hrun => ?_, ih page 1 page (by rw [Nat.one_mul]) hpage hrest hsorted⟩
      have hgap : runStart + runCount * pageSize < page := by
        obtain ⟨k, rfl⟩ := haligned
        obtain ⟨l, rfl⟩ := hpage
        simp only [pageSize] at *
        omega
      rcases start_of_mem_batchLoop hrun with hstart | hmem
      · exact lt_of_lt_of_eq hgap hstart.symm
      · exact lt_trans hgap (rel_of_pairwise_cons hsorted hmem)

theorem pairwise_batchDirtyRuns {start : Nat} {pages : List Nat} (hpages : ∀ page ∈ pages, ∃ k, page = start + k * pageSize)
    (hsorted : pages.Pairwise (· < ·)) : (batchDirtyRuns pages).Pairwise fun a b => a.1 + a.2 * pageSize < b.1 := by
  cases pages with
  | nil => exact Pairwise.nil
  | cons page rest =>
    obtain ⟨hpage, hrest⟩ := forall_mem_cons.mp hpages
    exact pairwise_batchLoop rest page 1 page (by rw [Nat.one_mul]) hpage hrest hsorted

/-- The addresses of the runs are those of their pages. -/
theorem covered_iff_onPages {runs : List (Nat × Nat)} (addr : Nat) : Covered runs addr ↔ OnPages (runs.flatMap pagesOf) addr := by
  simp only [Covered, OnPages, mem_flatMap, pagesOf, mem_map, mem_range]
  constructor
  · rintro ⟨run, hrun, hlow, hhigh⟩
    -- the page of the address is the one with its quotient
    have hdiv := Nat.div_add_mod (addr - run.1) pageSize
    have hmod := Nat.mod_lt (addr - run.1) (show 0 < pageSize by decide)
    rw [Nat.mul_comm] at hdiv
    have hcount : (addr - run.1) / pageSize < run.2 := Nat.div_lt_of_lt_mul (by rw [Nat.mul_comm]; omega)
    exact ⟨_, ⟨run, hrun, _, hcount, rfl⟩, by omega, by omega⟩
  · rintro ⟨_, ⟨run, hrun, i, hi, rfl⟩, hlow, hhigh⟩
    have hcount : (i + 1) * pageSize ≤ run.2 * pageSize := Nat.mul_le_mul_right _ hi
    rw [Nat.add_mul, Nat.one_mul] at hcount
    exact ⟨run, hrun, by omega, by omega⟩

/-! ## The comparison -/

/-- What the engine is after the runs, whatever their order. -/
structure Diffed (region : Region) (data : Nat → UInt8) (before : DiffEngine) (runs : List (Nat × Nat)) (words : Nat)
    (after : DiffEngine) : Prop where
  shadow : ∀ i, after.shadow i = if Covered runs (region.start + i) then data (region.start + i) else before.shadow i
  fineChanged : ∀ word, after.fineChanged word = true ↔
    ∃ i < wordSize, after.shadow (word * wordSize + i) ≠ before.shadow (word * wordSize + i)
  words : words = (List.range (region.size / wordSize)).countP after.fineChanged

theorem diffed_resetChanged (region : Region) (data : Nat → UInt8) (engine : DiffEngine) : Diffed region data engine [] 0 engine.resetChanged :=
  ⟨fun i => by simp [Covered, DiffEngine.resetChanged], fun word => by simp [DiffEngine.resetChanged],
    by simp [DiffEngine.resetChanged]⟩

/-- Counting a property of the places of a window is counting it in the window. -/
theorem countP_window (p : Nat → Bool) (first n total : Nat) (h : first + n ≤ total) :
    (List.range total).countP (fun w => decide (first ≤ w ∧ w < first + n) && p (w - first)) = (List.range n).countP p := by
  obtain ⟨rest, rfl⟩ := Nat.exists_eq_add_of_le h
  rw [range_add, range_add, countP_append, countP_append, countP_map, countP_map]
  have hbefore : (range first).countP (fun w => decide (first ≤ w ∧ w < first + n) && p (w - first)) = 0 := by
    rw [countP_eq_zero]
    intro w hw
    have hlt := mem_range.mp hw
    simp [hlt]
  have hafter : (range rest).countP ((fun w => decide (first ≤ w ∧ w < first + n) && p (w - first)) ∘ (first + n + ·)) = 0 := by
    rw [countP_eq_zero]
    intro w _
    simp
  rw [hbefore, hafter, Nat.zero_add, Nat.add_zero]
  refine countP_congr fun w hw => ?_
  have hlt := mem_range.mp hw
  simp [hlt]

theorem countP_or_of_disjoint (p q : Nat → Bool) (l : List Nat) (h : ∀ w, p w = true → q w = false) :
    l.countP (fun w => p w || q w) = l.countP p + l.countP q := by
  induction l with
  | nil => rfl
  | cons w l ih =>
    simp only [countP_cons, ih]
    cases hp : p w with
    | true => rw [h w hp]; simp; omega
    | false => simp; omega

/-- The word of the run, counted from its start, differs from the shadow. -/
def differs (engine : DiffEngine) (offset : Nat) (data : Nat → UInt8) (word : Nat) : Bool :=
  (List.range wordSize).any fun i => engine.shadow (offset + word * wordSize + i) ≠ data (word * wordSize + i)

theorem count_diffPages (hinside : Inside region run) (data : Nat → UInt8) : (engine.diffPages region run.1 data run.2).1 =
      (List.range (run.2 * pageSize / wordSize)).countP (differs engine (run.1 - region.start) data) := by
  have hbound : ¬region.size < run.1 - region.start + run.2 * pageSize := by
    obtain ⟨hlow, hhigh⟩ := hinside
    omega
  rw [DiffEngine.diffPages, if_neg hbound, countP_eq_length_filter]
  rfl

theorem fineChanged_diffPages (hinside : Inside region run) (data : Nat → UInt8) (word : Nat) :
    (engine.diffPages region run.1 data run.2).2.fineChanged word = (engine.fineChanged word ||
      (decide ((run.1 - region.start) / wordSize ≤ word ∧
          word < (run.1 - region.start) / wordSize + run.2 * pageSize / wordSize) &&
        differs engine (run.1 - region.start) data (word - (run.1 - region.start) / wordSize))) := by
  have hbound : ¬region.size < run.1 - region.start + run.2 * pageSize := by
    obtain ⟨hlow, hhigh⟩ := hinside
    omega
  rw [DiffEngine.diffPages, if_neg hbound]
  rfl

/-- One more run, after the others. -/
theorem diffed_diffPages {data : Nat → UInt8} {before : DiffEngine} {runs : List (Nat × Nat)} {words : Nat}
    (h : Diffed region data before runs words engine) {k : Nat} (hstart : run.1 = region.start + k * pageSize)
    (hcount : k + run.2 ≤ region.numPages) (hlater : ∀ other ∈ runs, other.1 + other.2 * pageSize < run.1) :
    Diffed region data before (runs ++ [run]) (words + (engine.diffPages region run.1 (fun i => data (run.1 + i)) run.2).1)
      (engine.diffPages region run.1 (fun i => data (run.1 + i)) run.2).2 := by
  have hsize : k * pageSize + run.2 * pageSize ≤ region.size := by
    rw [← Nat.add_mul]
    exact Nat.mul_le_mul_right _ hcount
  have hoffset : run.1 - region.start = k * pageSize := by omega
  have hinside : Inside region run := ⟨by omega, by omega⟩
  have hnotCovered : ∀ i, k * pageSize ≤ i → ¬Covered runs (region.start + i) := by
    rintro i hi ⟨other, hother, _, hhigh⟩
    have := hlater other hother
    omega
  have hshadow : ∀ i, (engine.diffPages region run.1 (fun i => data (run.1 + i)) run.2).2.shadow i =
      if k * pageSize ≤ i ∧ i < k * pageSize + run.2 * pageSize then data (region.start + i) else engine.shadow i := by
    intro i
    rw [shadow_diffPages hinside, hoffset]
    split
    · rw [hstart, Nat.add_assoc, Nat.add_sub_cancel' (by omega)]
    · rfl
  have hold : ∀ i, k * pageSize ≤ i → engine.shadow i = before.shadow i := by
    intro i hi
    rw [h.shadow, if_neg (hnotCovered i hi)]
  have hbytes : ∀ word, (k * pageSize / wordSize ≤ word ∧ word < k * pageSize / wordSize + run.2 * pageSize / wordSize) →
      ∀ i < wordSize, k * pageSize ≤ word * wordSize + i ∧ word * wordSize + i < k * pageSize + run.2 * pageSize := by
    intro word hword i hi
    simp only [pageSize, wordSize] at *
    omega
  have hothers : ∀ word, ¬(k * pageSize / wordSize ≤ word ∧ word < k * pageSize / wordSize + run.2 * pageSize / wordSize) →
      ∀ i < wordSize, ¬(k * pageSize ≤ word * wordSize + i ∧ word * wordSize + i < k * pageSize + run.2 * pageSize) := by
    intro word hword i hi
    simp only [pageSize, wordSize] at *
    omega
  -- no word of the run is marked yet, since its bytes are those of the shadow before
  have hunmarked : ∀ word, (k * pageSize / wordSize ≤ word ∧ word < k * pageSize / wordSize + run.2 * pageSize / wordSize) →
      engine.fineChanged word = false := by
    intro word hword
    rw [← Bool.not_eq_true, h.fineChanged]
    rintro ⟨i, hi, hne⟩
    exact hne (hold _ (hbytes word hword i hi).1)
  have hdiffers : ∀ word, (k * pageSize / wordSize ≤ word ∧ word < k * pageSize / wordSize + run.2 * pageSize / wordSize) →
      (differs engine (k * pageSize) (fun i => data (run.1 + i)) (word - k * pageSize / wordSize) = true ↔
        ∃ i < wordSize, data (region.start + (word * wordSize + i)) ≠ before.shadow (word * wordSize + i)) := by
    intro word hword
    have hplace : ∀ i, k * pageSize + (word - k * pageSize / wordSize) * wordSize + i = word * wordSize + i := by
      intro i
      simp only [pageSize, wordSize] at *
      omega
    simp only [differs, any_eq_true, mem_range, decide_eq_true_eq]
    refine exists_congr fun i => and_congr_right fun hi => ?_
    rw [hplace, hold _ (hbytes word hword i hi).1, ← hplace i, hstart, ne_comm]
    simp only [Nat.add_assoc]
  refine ⟨fun i => ?_, fun word => ?_, ?_⟩
  · rw [hshadow, h.shadow]
    have hcovered : Covered (runs ++ [run]) (region.start + i) ↔
        Covered runs (region.start + i) ∨ k * pageSize ≤ i ∧ i < k * pageSize + run.2 * pageSize := by
      simp only [Covered, mem_append, mem_singleton, or_and_right, exists_or, exists_eq_left, hstart]
      exact or_congr_right ⟨fun hin => by omega, fun hin => by omega⟩
    by_cases hrun : k * pageSize ≤ i ∧ i < k * pageSize + run.2 * pageSize
    · rw [if_pos hrun, if_pos (hcovered.mpr (Or.inr hrun))]
    · rw [if_neg hrun]
      exact if_congr (by rw [hcovered, or_iff_left hrun]) rfl rfl
  · rw [fineChanged_diffPages hinside, hoffset]
    by_cases hword : k * pageSize / wordSize ≤ word ∧ word < k * pageSize / wordSize + run.2 * pageSize / wordSize
    · rw [hunmarked word hword, Bool.false_or, decide_eq_true hword, Bool.true_and, hdiffers word hword]
      refine exists_congr fun i => and_congr_right fun hi => ?_
      rw [hshadow, if_pos (hbytes word hword i hi)]
    · rw [decide_eq_false hword, Bool.false_and, Bool.or_false, h.fineChanged]
      refine exists_congr fun i => and_congr_right fun hi => ?_
      rw [hshadow, if_neg (hothers word hword i hi)]
  · rw [count_diffPages hinside, h.words, funext (fineChanged_diffPages hinside _), hoffset, countP_or_of_disjoint, countP_window]
    · simp only [pageSize, wordSize] at *
      omega
    · intro word hmarked
      refine Bool.and_eq_false_imp.mpr fun hword => absurd hmarked ?_
      rw [hunmarked word (of_decide_eq_true hword)]
      exact Bool.false_ne_true

theorem diffed_diffRuns (region : Region) (data : Nat → UInt8) (engine : DiffEngine) (runs : List (Nat × Nat))
    (hinside : ∀ run ∈ runs, ∃ k, run.1 = region.start + k * pageSize ∧ k + run.2 ≤ region.numPages)
    (hgaps : runs.Pairwise fun a b => a.1 + a.2 * pageSize < b.1) :
    Diffed region data engine runs (engine.resetChanged.diffRuns region data runs).1 (engine.resetChanged.diffRuns region data runs).2 := by
  induction runs using reverseRecOn with
  | nil => exact diffed_resetChanged region data engine
  | append_singleton runs run ih =>
    obtain ⟨hgaps, _, hlater⟩ := pairwise_append.mp hgaps
    have hbefore := ih (fun other hother => hinside other (mem_append_left _ hother)) hgaps
    obtain ⟨k, hstart, hcount⟩ := hinside run (mem_append_right _ (mem_singleton_self run))
    rw [DiffEngine.diffRuns, foldl_concat]
    exact diffed_diffPages hbefore hstart hcount fun other hother => hlater other hother run (mem_singleton_self run)

end HeatmapAux

open HeatmapAux

/-- The runs of pages in increasing order are maximal and are made of the pages. After the sample the shadow has the data on these pages
and is as before elsewhere, a word is marked exactly when a byte of it in the shadow has changed, and the counts add up to the number
of marked words. -/
theorem diffRuns_batchDirtyRuns (region : Region) (pages : List Nat)
    (hpages : ∀ page ∈ pages, ∃ k < region.numPages, page = region.start + k * pageSize) (hsorted : pages.Pairwise (· < ·))
    (engine : DiffEngine) (data : Nat → UInt8) :
    let runs := batchDirtyRuns pages
    let sample := engine.resetChanged.diffRuns region data runs
    (runs.flatMap pagesOf = pages ∧ (∀ run ∈ runs, 1 ≤ run.2) ∧ runs.Pairwise fun a b => a.1 + a.2 * pageSize < b.1) ∧
      (∀ i, sample.2.shadow i = if OnPages pages (region.start + i) then data (region.start + i) else engine.shadow i) ∧
      (∀ word, sample.2.fineChanged word = true ↔ word < region.size / wordSize ∧
        ∃ i < wordSize, sample.2.shadow (word * wordSize + i) ≠ engine.shadow (word * wordSize + i)) ∧
      sample.1 = (List.range (region.size / wordSize)).countP sample.2.fineChanged := by
  obtain ⟨hexpand, hcounts⟩ := flatMap_batchDirtyRuns pages
  have hgaps := pairwise_batchDirtyRuns (fun page hpage => (hpages page hpage).imp fun _ hk => hk.2) hsorted
  have hinside : ∀ run ∈ batchDirtyRuns pages, ∃ k, run.1 = region.start + k * pageSize ∧ k + run.2 ≤ region.numPages := by
    intro run hrun
    have hmem : ∀ i < run.2, run.1 + i * pageSize ∈ pages := fun i hi => by
      rw [← hexpand]
      exact List.mem_flatMap.mpr ⟨run, hrun, List.mem_map.mpr ⟨i, List.mem_range.mpr hi, rfl⟩⟩
    -- the first page of the run gives its start, the last one its end
    have hcount := hcounts run hrun
    obtain ⟨k, _, hk⟩ := hpages _ (hmem 0 hcount)
    obtain ⟨l, hl, hlast⟩ := hpages _ (hmem (run.2 - 1) (by omega))
    rw [Nat.zero_mul, Nat.add_zero] at hk
    refine ⟨k, hk, ?_⟩
    simp only [pageSize] at *
    omega
  have hdiffed := diffed_diffRuns region data engine (batchDirtyRuns pages) hinside hgaps
  have hshadow : ∀ i, (engine.resetChanged.diffRuns region data (batchDirtyRuns pages)).2.shadow i =
      if OnPages pages (region.start + i) then data (region.start + i) else engine.shadow i := by
    intro i
    rw [hdiffed.shadow]
    exact if_congr (by rw [covered_iff_onPages, hexpand]) rfl rfl
  refine ⟨⟨hexpand, hcounts, hgaps⟩, hshadow, fun word => ?_, hdiffed.words⟩
  rw [hdiffed.fineChanged]
  refine ⟨fun hchanged => ⟨?_, hchanged⟩, And.right⟩
  -- a byte that has changed is on a page, so the word is in the region
  obtain ⟨i, hi, hne⟩ := hchanged
  have hon : OnPages pages (region.start + (word * wordSize + i)) := by
    by_contra hoff
    exact hne (by rw [hshadow, if_neg hoff])
  obtain ⟨page, hpage, hlow, hhigh⟩ := hon
  obtain ⟨k, hk, rfl⟩ := hpages page hpage
  simp only [Region.size, pageSize, wordSize] at *
  omega

/-- Two pages of three with a page between them, all bytes of the shadow 0 and all data 1. -/
theorem diffRuns_batchDirtyRuns_gap : let region : Region := ⟨0, 3, dvd_zero _, by decide⟩
    batchDirtyRuns [0, 8192] = [(0, 1), (8192, 1)] ∧
      ((DiffEngine.mk (fun _ => 0) fun _ => true).resetChanged.diffRuns region (fun _ => 1) [(0, 1), (8192, 1)]).2.shadow 4096 = 0 := by
  refine ⟨rfl, ?_⟩
  have h := (diffRuns_batchDirtyRuns ⟨0, 3, dvd_zero _, by decide⟩ [0, 8192] (by decide) (by decide) ⟨fun _ => 0, fun _ => true⟩
    fun _ => 1).2.1 4096
  rw [if_neg (by decide)] at h
  exact h

end EbpfSyscall.Heatmap
