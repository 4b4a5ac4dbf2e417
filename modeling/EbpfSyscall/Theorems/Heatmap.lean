import EbpfSyscall.Heatmap.Monitor

/-!
# What a sample of the heat map leaves

After a sample, a page whose memory differs from the shadow should have its soft-dirty bit set, so that the next sample reports it. A
write between the read of a page, or of the pagemap for a page that is not dirty, and the clear of the bits is lost. If no write
falls there and every read is complete, nothing is.
-/

namespace EbpfSyscall.Heatmap

open List Function

/-- Every page of the region whose memory differs from the shadow has its soft-dirty bit set. -/
def Reported (region : Region) (s : System) : Prop :=
  ∀ page < region.numPages, (∃ addr, region.start + page * pageSize ≤ addr ∧ addr < region.start + (page + 1) * pageSize ∧
    s.memory addr ≠ s.engine.shadow (addr - region.start)) → s.softDirty (region.start / pageSize + page) = true

/-- The address is in the region. -/
def Region.Holds (region : Region) (addr : Nat) : Prop := region.start ≤ addr ∧ addr < region.start + region.size

/-- The address is in one of the runs. -/
def Covered (runs : List (Nat × Nat)) (addr : Nat) : Prop := ∃ run ∈ runs, run.1 ≤ addr ∧ addr < run.1 + run.2 * pageSize

/-- The read is complete, or the monitor stops. -/
def ReadResult.Complete (size : Nat) : ReadResult → Prop
  | .bytes n => n = size
  | .gone => True
  | _ => False

/-- In the phase, a write to the address is seen by a later read of the monitor or changes nothing that it compares. -/
def WriteSeen (region : Region) (addr : Nat) (unchanged : Prop) : Phase → Prop
  | .snapshot offset => region.Holds addr → addr < region.start + offset * pageSize → unchanged
  | .reading runs => region.Holds addr → Covered runs addr ∨ unchanged
  | _ => True

/-- The read that comes next in the phase is complete, or the monitor stops. -/
def ReadComplete (region : Region) (result : ReadResult) : Phase → Prop
  | .snapshot offset => result.Complete (min (region.numPages - offset) chunkPages * pageSize)
  | .idle => result.Complete (region.numPages * 8)
  | .reading (run :: _) => result.Complete (run.2 * pageSize)
  | _ => True

/-- A write changes nothing that the monitor has read and will not read again before it clears the bits, and every read is complete. -/
def Harmless (region : Region) (s : System) : Event → Prop
  | .write addr byte => WriteSeen region addr (byte = s.memory addr) s.phase
  | .readChunk result | .readPagemap result | .readRun result => ReadComplete region result s.phase
  | .clear _ => True

instance (region : Region) (addr : Nat) : Decidable (region.Holds addr) := inferInstanceAs (Decidable (_ ∧ _))

instance (runs : List (Nat × Nat)) (addr : Nat) : Decidable (Covered runs addr) :=
  inferInstanceAs (Decidable (∃ run ∈ runs, run.1 ≤ addr ∧ addr < run.1 + run.2 * pageSize))

instance (size : Nat) : ∀ result : ReadResult, Decidable (result.Complete size)
  | .bytes n => inferInstanceAs (Decidable (n = size))
  | .gone => inferInstanceAs (Decidable True)
  | .eio | .failed => inferInstanceAs (Decidable False)

instance (region : Region) (addr : Nat) (unchanged : Prop) [Decidable unchanged] : ∀ phase, Decidable (WriteSeen region addr unchanged phase)
  | .snapshot offset => inferInstanceAs (Decidable (region.Holds addr → addr < region.start + offset * pageSize → unchanged))
  | .reading runs => inferInstanceAs (Decidable (region.Holds addr → Covered runs addr ∨ unchanged))
  | .idle | .stopped => inferInstanceAs (Decidable True)

instance (region : Region) (result : ReadResult) : ∀ phase, Decidable (ReadComplete region result phase)
  | .snapshot offset => inferInstanceAs (Decidable (result.Complete (min (region.numPages - offset) chunkPages * pageSize)))
  | .idle => inferInstanceAs (Decidable (result.Complete (region.numPages * 8)))
  | .reading (run :: _) => inferInstanceAs (Decidable (result.Complete (run.2 * pageSize)))
  | .reading [] | .stopped => inferInstanceAs (Decidable True)

instance (region : Region) (s : System) : ∀ e, Decidable (Harmless region s e)
  | .write addr byte => inferInstanceAs (Decidable (WriteSeen region addr (byte = s.memory addr) s.phase))
  | .readChunk result | .readPagemap result | .readRun result => inferInstanceAs (Decidable (ReadComplete region result s.phase))
  | .clear _ => inferInstanceAs (Decidable True)

namespace HeatmapAux

variable {region : Region} {s next : System} {result : ReadResult}

/-! ## Runs of pages -/

/-- The pages of a run. -/
def pagesOf (run : Nat × Nat) : List Nat := (List.range run.2).map fun i => run.1 + i * pageSize

theorem flatMap_batchLoop (rest : List Nat) (runStart runCount previous : Nat) (hcount : 1 ≤ runCount)
    (hprevious : previous = runStart + (runCount - 1) * pageSize) :
    (batchLoop runStart runCount previous rest).flatMap pagesOf = pagesOf (runStart, runCount) ++ rest ∧
      ∀ run ∈ batchLoop runStart runCount previous rest, 1 ≤ run.2 := by
  induction rest generalizing runStart runCount previous with
  | nil => exact ⟨by simp [batchLoop], by simpa [batchLoop] using hcount⟩
  | cons page rest ih =>
    rw [batchLoop]
    by_cases hnext : page = previous + pageSize
    · rw [if_pos hnext]
      have hpage : page = runStart + (runCount + 1 - 1) * pageSize := by
        obtain ⟨n, rfl⟩ := Nat.exists_eq_add_of_le hcount
        rw [hnext, hprevious, Nat.add_sub_cancel, Nat.add_sub_cancel_left, Nat.add_mul, Nat.one_mul]
        omega
      obtain ⟨hpages, hcounts⟩ := ih runStart (runCount + 1) page (by omega) hpage
      refine ⟨?_, hcounts⟩
      rw [hpages, pagesOf, pagesOf, range_succ, map_append, append_assoc, map_singleton, singleton_append]
      rw [hpage, Nat.add_sub_cancel]
    · rw [if_neg hnext]
      obtain ⟨hpages, hcounts⟩ := ih page 1 page (by omega) (by simp)
      refine ⟨?_, forall_mem_cons.mpr ⟨hcount, hcounts⟩⟩
      rw [flatMap_cons, hpages]
      simp [pagesOf]

/-- The runs are made of the pages, in order. -/
theorem flatMap_batchDirtyRuns (pages : List Nat) : (batchDirtyRuns pages).flatMap pagesOf = pages ∧ ∀ run ∈ batchDirtyRuns pages, 1 ≤ run.2 := by
  cases pages with
  | nil => exact ⟨rfl, nofun⟩
  | cons page rest =>
    obtain ⟨hpages, hcounts⟩ := flatMap_batchLoop rest page 1 page (le_refl 1) (by simp)
    exact ⟨by rw [batchDirtyRuns, hpages]; simp [pagesOf], hcounts⟩

theorem mem_getDirtyPages {start : Nat} {entries : List Bool} {page : Nat} :
    page ∈ getDirtyPages start entries ↔ ∃ i, entries[i]? = some true ∧ page = start + i * pageSize := by
  simp only [getDirtyPages, mem_filterMap, Prod.exists, mk_mem_zipIdx_iff_getElem?]
  constructor
  · rintro ⟨entry, i, hentry, hpage⟩
    cases entry with
    | true => exact ⟨i, hentry, by simpa [eq_comm] using hpage⟩
    | false => simp at hpage
  · rintro ⟨i, hentry, rfl⟩
    exact ⟨true, i, hentry, by simp⟩

theorem getElem?_pagemap (s : System) (i : Nat) : (s.pagemap region (region.numPages * 8))[i]? = some true ↔
    i < region.numPages ∧ s.softDirty (region.start / pageSize + i) = true := by
  rw [System.pagemap, Nat.mul_div_cancel _ (by decide), List.getElem?_map, Option.map_eq_some_iff]
  constructor
  · rintro ⟨j, hj, hdirty⟩
    obtain ⟨hlt, rfl⟩ := List.getElem?_eq_some_iff.mp hj
    rw [List.getElem_range] at hdirty
    exact ⟨by simpa using hlt, hdirty⟩
  · rintro ⟨hlt, hdirty⟩
    exact ⟨i, by simp [hlt], hdirty⟩

/-! ## The invariant -/

/-- The run is inside the region. -/
def Inside (region : Region) (run : Nat × Nat) : Prop :=
  region.start ≤ run.1 ∧ run.1 + run.2 * pageSize ≤ region.start + region.size

/-- The shadow has the byte of the memory. -/
def Same (region : Region) (s : System) (addr : Nat) : Prop := s.memory addr = s.engine.shadow (addr - region.start)

/-- What the shadow has in each phase. -/
def ShadowInv (region : Region) (s : System) : Prop :=
  match s.phase with
  | .snapshot offset => ∀ addr, region.Holds addr → addr < region.start + offset * pageSize → Same region s addr
  | .idle => ∀ addr, region.Holds addr → Same region s addr ∨ s.softDirty (addr / pageSize) = true
  | .reading runs => (∀ run ∈ runs, Inside region run) ∧ ∀ addr, region.Holds addr → Covered runs addr ∨ Same region s addr
  | .stopped => True

theorem inv_write (h : ShadowInv region s) {addr : Nat} {byte : UInt8} (hok : Harmless region s (.write addr byte)) :
    ShadowInv region (s.write addr byte) := by
  have hother : ∀ other, other ≠ addr → Same region s other → Same region (s.write addr byte) other := by
    intro other hne hsame
    show update s.memory addr byte other = _
    rw [update_of_ne hne]
    exact hsame
  have hunchanged : byte = s.memory addr → ∀ other, Same region s other → Same region (s.write addr byte) other := by
    intro hbyte other hsame
    show update s.memory addr byte other = _
    rw [hbyte, update_eq_self]
    exact hsame
  unfold ShadowInv at h ⊢
  unfold Harmless WriteSeen at hok
  have hphase : (s.write addr byte).phase = s.phase := rfl
  rw [hphase]
  cases hcase : s.phase with
  | snapshot offset =>
    rw [hcase] at h hok
    intro other hin hlt
    by_cases heq : other = addr
    · subst heq
      exact hunchanged (hok hin hlt) _ (h _ hin hlt)
    · exact hother other heq (h other hin hlt)
  | idle =>
    rw [hcase] at h
    intro other hin
    by_cases heq : other = addr
    · subst heq
      exact Or.inr (update_self _ _ _)
    · rcases h other hin with hsame | hdirty
      · exact Or.inl (hother other heq hsame)
      · refine Or.inr ?_
        show update s.softDirty (addr / pageSize) true (other / pageSize) = true
        by_cases hpage : other / pageSize = addr / pageSize
        · rw [hpage, update_self]
        · rw [update_of_ne hpage]
          exact hdirty
  | reading runs =>
    rw [hcase] at h hok
    refine ⟨h.1, fun other hin => ?_⟩
    by_cases heq : other = addr
    · subst heq
      rcases hok hin with hcovered | hbyte
      · exact Or.inl hcovered
      · exact (h.2 _ hin).imp id (hunchanged hbyte _)
    · exact (h.2 other hin).imp id (hother other heq)
  | stopped => trivial

theorem inv_readChunk (h : ShadowInv region s) {offset : Nat} (hphase : s.phase = .snapshot offset)
    (hcomplete : result.Complete (min (region.numPages - offset) chunkPages * pageSize))
    (hstep : s.readChunk region offset result = some next) : ShadowInv region next := by
  unfold ShadowInv at h
  rw [hphase] at h
  cases result with
  | bytes n =>
    obtain rfl : n = min (region.numPages - offset) chunkPages * pageSize := hcomplete
    simp only [System.readChunk, le_refl, if_true, Option.some.injEq] at hstep
    subst hstep
    intro addr hin hlt
    dsimp only [Same]
    by_cases hnew : offset * pageSize ≤ addr - region.start
    · -- The chunk reaches to the end of the new part, or of the region.
      have hbound : addr - region.start < offset * pageSize + min (region.numPages - offset) chunkPages * pageSize := by
        rw [← Nat.add_mul]
        have hsize : addr < region.start + region.numPages * pageSize := hin.2
        have hstart := hin.1
        rcases Nat.le_total (region.numPages - offset) chunkPages with hle | hle
        · have hmul : region.numPages * pageSize ≤ (offset + (region.numPages - offset)) * pageSize :=
            Nat.mul_le_mul_right _ (by omega)
          rw [Nat.min_eq_left hle]
          omega
        · rw [Nat.min_eq_right hle]
          omega
      have haddr : region.start + offset * pageSize + (addr - region.start - offset * pageSize) = addr := by
        have := hin.1
        omega
      rw [if_pos ⟨hnew, hbound⟩, readPages, if_pos (by omega), haddr]
    · rw [if_neg (fun hboth => hnew hboth.1)]
      have := hin.1
      exact h addr hin (by omega)
  | gone =>
    cases hstep
    trivial
  | eio => exact hcomplete.elim
  | failed => exact hcomplete.elim

theorem inv_readPagemap (h : ShadowInv region s) (hphase : s.phase = .idle)
    (hcomplete : result.Complete (region.numPages * 8)) (hstep : s.readPagemap region result = some next) : ShadowInv region next := by
  unfold ShadowInv at h
  rw [hphase] at h
  cases result with
  | bytes n =>
    obtain rfl : n = region.numPages * 8 := hcomplete
    simp only [System.readPagemap, le_refl, if_true, Option.some.injEq] at hstep
    subst hstep
    obtain ⟨hpages, hcounts⟩ := flatMap_batchDirtyRuns (getDirtyPages region.start (s.pagemap region (region.numPages * 8)))
    -- A page is in a run exactly when its bit is set.
    have hmem : ∀ page, (∃ run ∈ batchDirtyRuns (getDirtyPages region.start (s.pagemap region (region.numPages * 8))),
        page ∈ pagesOf run) ↔ ∃ i, (i < region.numPages ∧ s.softDirty (region.start / pageSize + i) = true) ∧
          page = region.start + i * pageSize := by
      intro page
      rw [← mem_flatMap, hpages, mem_getDirtyPages]
      simp only [getElem?_pagemap]
    refine ⟨fun run hrun => ?_, fun addr hin => ?_⟩
    · have hcount := hcounts run hrun
      obtain ⟨i, ⟨hi, -⟩, hfirst⟩ := (hmem run.1).mp ⟨run, hrun, mem_map.mpr ⟨0, mem_range.mpr hcount, by simp⟩⟩
      obtain ⟨j, ⟨hj, -⟩, hlast⟩ := (hmem (run.1 + (run.2 - 1) * pageSize)).mp
        ⟨run, hrun, mem_map.mpr ⟨run.2 - 1, by simp; omega, rfl⟩⟩
      obtain ⟨count, hcountEq⟩ := Nat.exists_eq_add_of_le hcount
      rw [hcountEq, Nat.add_sub_cancel_left] at hlast
      have hsize : (j + 1) * pageSize ≤ region.numPages * pageSize := Nat.mul_le_mul_right _ hj
      rw [Inside, Region.size, hcountEq]
      rw [Nat.add_mul, Nat.one_mul] at hsize ⊢
      omega
    · rcases h addr hin with hsame | hdirty
      · exact Or.inr hsame
      · obtain ⟨k, hk⟩ := region.aligned
        have hpos : 0 < pageSize := by decide
        have hdiv : region.start / pageSize = k := by rw [hk, Nat.mul_div_cancel_left _ hpos]
        have hle : k ≤ addr / pageSize := by
          rw [← hdiv]
          exact Nat.div_le_div_right hin.1
        have hlt : addr / pageSize < k + region.numPages := by
          rw [Nat.div_lt_iff_lt_mul hpos, Nat.add_mul, Nat.mul_comm k, ← hk]
          exact hin.2
        obtain ⟨run, hrun, hpage⟩ := (hmem (region.start + (addr / pageSize - k) * pageSize)).mpr
          ⟨addr / pageSize - k, ⟨by omega, by rw [hdiv, Nat.add_sub_cancel' hle]; exact hdirty⟩, rfl⟩
        obtain ⟨i, hi, heq⟩ := mem_map.mp hpage
        have hbase : region.start + (addr / pageSize - k) * pageSize = addr / pageSize * pageSize := by
          rw [hk, Nat.mul_comm pageSize k, ← Nat.add_mul, Nat.add_sub_cancel' hle]
        have hfloor := Nat.div_add_mod addr pageSize
        have hmod := Nat.mod_lt addr hpos
        have hcount : (i + 1) * pageSize ≤ run.2 * pageSize := Nat.mul_le_mul_right _ (by simpa using hi)
        rw [Nat.mul_comm] at hfloor
        rw [Nat.add_mul, Nat.one_mul] at hcount
        exact Or.inl ⟨run, hrun, by omega, by omega⟩
  | gone =>
    cases hstep
    trivial
  | eio => exact hcomplete.elim
  | failed => exact hcomplete.elim

/-- A run inside the region is copied into the shadow. -/
theorem shadow_diffPages {engine : DiffEngine} {run : Nat × Nat} (hinside : Inside region run) (data : Nat → UInt8) (i : Nat) :
    (engine.diffPages region run.1 data run.2).2.shadow i =
      if run.1 - region.start ≤ i ∧ i < run.1 - region.start + run.2 * pageSize then data (i - (run.1 - region.start))
      else engine.shadow i := by
  have hbound : ¬region.size < run.1 - region.start + run.2 * pageSize := by
    obtain ⟨hlow, hhigh⟩ := hinside
    omega
  rw [DiffEngine.diffPages, if_neg hbound]

theorem inv_readRun (h : ShadowInv region s) {run : Nat × Nat} {rest : List (Nat × Nat)} (hphase : s.phase = .reading (run :: rest)) (hcomplete : result.Complete (run.2 * pageSize)) (hstep : s.readRun region run rest result = some next) :
    ShadowInv region next := by
  unfold ShadowInv at h
  rw [hphase] at h
  obtain ⟨hinside, hrest⟩ := forall_mem_cons.mp h.1
  cases result with
  | bytes n =>
    obtain rfl : n = run.2 * pageSize := hcomplete
    simp only [System.readRun, le_refl, if_true, Option.some.injEq] at hstep
    subst hstep
    refine ⟨hrest, fun addr hin => ?_⟩
    have hlow := hinside.1
    have hstart := hin.1
    by_cases hrun : run.1 ≤ addr ∧ addr < run.1 + run.2 * pageSize
    · have haddr : run.1 + (addr - region.start - (run.1 - region.start)) = addr := by omega
      refine Or.inr ?_
      dsimp only [Same]
      rw [shadow_diffPages hinside, if_pos (by omega), readPages, if_pos (by omega), haddr]
    · rcases h.2 addr hin with ⟨other, hother, hcovers⟩ | hsame
      · rcases mem_cons.mp hother with rfl | hlater
        · exact absurd hcovers hrun
        · exact Or.inl ⟨other, hlater, hcovers⟩
      · refine Or.inr ?_
        dsimp only [Same]
        rw [shadow_diffPages hinside, if_neg (by omega)]
        exact hsame
  | gone =>
    cases hstep
    trivial
  | eio => exact hcomplete.elim
  | failed => exact hcomplete.elim

theorem inv_clear (hsame : ∀ addr, region.Holds addr → Same region s addr) (result : ClearResult) : ShadowInv region (s.clear result) := by
  cases result with
  | cleared => exact fun addr hin => Or.inl (hsame addr hin)
  | gone => trivial
  | failed => trivial

/-- A step that meets the condition keeps the invariant. -/
theorem inv_step (s : System) (e : Event) (next : System) (h : ShadowInv region s) (hok : Harmless region s e)
    (hstep : s.step region e = some next) : ShadowInv region next := by
  cases e with
  | write addr byte =>
    cases hstep
    exact inv_write h hok
  | readChunk result =>
    simp only [System.step] at hstep
    split at hstep
    · rename_i offset hphase
      split at hstep
      · exact inv_readChunk h hphase (by rwa [Harmless, hphase] at hok) hstep
      · cases hstep
    · cases hstep
  | readPagemap result =>
    simp only [System.step] at hstep
    split at hstep
    · rename_i hphase
      exact inv_readPagemap h hphase (by rwa [Harmless, hphase] at hok) hstep
    · cases hstep
  | readRun result =>
    simp only [System.step] at hstep
    split at hstep
    · rename_i run rest hphase
      exact inv_readRun h hphase (by rwa [Harmless, hphase] at hok) hstep
    · cases hstep
  | clear result =>
    simp only [System.step] at hstep
    unfold ShadowInv at h
    split at hstep
    · rename_i offset hphase
      rw [hphase] at h
      split at hstep
      · rename_i hall
        cases hstep
        refine inv_clear (fun addr hin => h addr hin ?_) result
        have hsize : addr < region.start + region.numPages * pageSize := hin.2
        have hmul : region.numPages * pageSize ≤ offset * pageSize := Nat.mul_le_mul_right _ hall
        omega
      · cases hstep
    · rename_i hphase
      rw [hphase] at h
      cases hstep
      refine inv_clear (fun addr hin => ?_) result
      rcases h.2 addr hin with ⟨run, hrun, -⟩ | hsame
      · cases hrun
      · exact hsame
    · cases hstep

end HeatmapAux

open HeatmapAux

/-- In every run, from any memory and any bits, in which no write changes what the monitor has read and will not read again before it
clears the bits, and in which every read is complete: between two samples every page that differs from the shadow has its soft-dirty
bit set. -/
theorem heatmap_reports (region : Region) (memory : Nat → UInt8) (softDirty : Nat → Bool) {events : List Event} {s : System}
    (hrun : (System.start memory softDirty).after region events = some s)
    (hmeets : Runs.Meets (System.step region) (Harmless region) (System.start memory softDirty) events) (hidle : s.phase = .idle) :
    Reported region s := by
  have hstart : ShadowInv region (System.start memory softDirty) := by
    intro addr hin hlt
    have := hin.1
    rw [Nat.zero_mul] at hlt
    omega
  have hinv := Runs.invariant (ShadowInv region) inv_step hstart hmeets hrun
  unfold ShadowInv at hinv
  rw [hidle] at hinv
  intro page hpage hdiffers
  obtain ⟨addr, hlow, hhigh, hne⟩ := hdiffers
  have hsize : (page + 1) * pageSize ≤ region.numPages * pageSize := Nat.mul_le_mul_right _ hpage
  rcases hinv addr ⟨by omega, by rw [Region.size]; omega⟩ with hsame | hdirty
  · exact absurd hsame hne
  · obtain ⟨k, hk⟩ := region.aligned
    have hpos : 0 < pageSize := by decide
    have hnumber : addr / pageSize = region.start / pageSize + page := by
      rw [hk, Nat.mul_div_cancel_left _ hpos, Nat.div_eq_iff hpos]
      rw [hk] at hlow hhigh
      rw [Nat.add_mul, Nat.one_mul] at hhigh
      rw [Nat.add_mul, Nat.mul_comm k]
      have : pageSize = 4096 := rfl
      omega
    rw [← hnumber]
    exact hdirty

/-! ## Two runs -/

/-- One page at address 0. -/
def onePage : Region := ⟨0, 1, ⟨0, rfl⟩, by decide⟩

/-- The snapshot, a write between two samples, and a sample. -/
def quietSample : List Event :=
  [.readChunk (.bytes 4096), .clear .cleared, .write 5 1, .readPagemap (.bytes 8), .readRun (.bytes 4096), .clear .cleared]

theorem heatmap_reports_quietSample : ∃ s, (System.start (fun _ => 0) (fun _ => true)).after onePage quietSample = some s ∧ Reported onePage s := by
  have hmeets : Runs.Meets (System.step onePage) (Harmless onePage) (System.start (fun _ => 0) (fun _ => true)) quietSample := by
    decide +kernel
  have hends : ((System.start (fun _ => 0) (fun _ => true)).after onePage quietSample).any (fun s => s.phase = .idle) = true := by
    decide +kernel
  obtain ⟨s, hs, hidle⟩ := Runs.exists_of_any hends
  exact ⟨s, hs, heatmap_reports onePage _ _ hs hmeets (of_decide_eq_true hidle)⟩

/-- A write after the pagemap was read and before the bits are cleared: the page differs from the shadow, and its bit is not set. -/
theorem heatmap_loses : ∃ s, (System.start (fun _ => 0) (fun _ => true)).after onePage
    [.readChunk (.bytes 4096), .clear .cleared, .readPagemap (.bytes 8), .write 5 1, .clear .cleared] = some s ∧
      s.phase = .idle ∧ ¬Reported onePage s := by
  refine ⟨_, rfl, rfl, fun hall => ?_⟩
  have hbit := hall 0 (by decide) ⟨5, by decide, by decide, by decide⟩
  exact absurd hbit (by decide)

end EbpfSyscall.Heatmap
