import EbpfSyscall.Heatmap.Heat
import EbpfSyscall.Lib.Lazily

/-!
# Lazy decay of heat

A heat map that lowered every block at every sample would show the same digits as the lazy one. The decay that is computed at once is the
decay sample by sample, since lowering several times and not below zero is lowering once by the product; and the saturations only
occur where everything has decayed.
-/

namespace EbpfSyscall.Heatmap

open Lazily List Option

/-- One sample of the eager heat map. -/
def fadeBy (rate heat : Int) : Int := max (heat - rate) 0

/-- The eager heat map: before an operation every block is lowered once for each sample that has passed, and a touch adds one point, up
to nine increments. -/
def eagerShown (rate inc : Int) (store : Eager Int) : List HeatOp → List (Int × Int)
  | [] => []
  | op :: rest =>
    let current := store.advance (fadeBy rate) op.sample
    let next := match op with
      | .touch idx _ => current.touch (fun heat => min (heat + 1) (9 * inc)) idx
      | .read _ _ => current
    let heat := next.values[op.idx]?.getD 0
    (heat, heat / inc) :: eagerShown rate inc next rest

namespace HeatAux

/-! ## The decay -/

/-- Lowering step by step and not below zero is lowering once. -/
theorem iterate_fadeBy {rate heat : Int} (hrate : 0 ≤ rate) (hheat : 0 ≤ heat) (n : Nat) : (fadeBy rate)^[n] heat = max (heat - rate * n) 0 := by
  induction n with
  | zero =>
    rw [Function.iterate_zero_apply]
    simpa using hheat
  | succ n ih =>
    rw [Function.iterate_succ_apply', ih, fadeBy, Nat.cast_succ, mul_add, mul_one]
    have hproduct : 0 ≤ rate * n := mul_nonneg hrate (Int.natCast_nonneg n)
    omega

/-- The map has a decay rate that does not raise heat, and heats that fit. -/
structure Fits (map : HeatMap) : Prop where
  decayRate : 0 ≤ map.decayRate
  heatInc : 1 ≤ map.heatInc
  heat : ∀ b ∈ map.blocks, 0 ≤ b.heat ∧ b.heat ≤ map.maxRaw
  maxRaw : map.maxRaw = saturatingI32 (maxHeat * map.heatInc)

theorem fits_new (numBlocks : Nat) (decayRate heatInc : Int) : Fits (HeatMap.new numBlocks decayRate heatInc) := by
  refine ⟨le_max_right _ _, le_max_right _ _, fun b hb => ?_, rfl⟩
  obtain rfl := eq_of_mem_replicate hb
  dsimp only [HeatMap.new, saturatingI32, maxHeat, i32Min, i32Max]
  omega

variable {map : HeatMap} {store : Eager Int} {next : HeatMap} {idx sample : Nat}

theorem Fits.maxRaw_bounds (h : Fits map) : 1 ≤ map.maxRaw ∧ map.maxRaw ≤ i32Max := by
  have hinc := h.heatInc
  rw [h.maxRaw]
  dsimp only [saturatingI32, maxHeat, i32Min, i32Max]
  omega

/-- The saturations do not show: where they make a difference, all heat has decayed. -/
theorem Fits.decayed (h : Fits map) {b : Block} (hb : b ∈ map.blocks) (sample : Nat) : ∃ left, map.decayed b sample = some left ∧
      max left 0 = max (b.heat - map.decayRate * ((sample - b.lastTouched : Nat) : Int)) 0 := by
  obtain ⟨hlow, hhigh⟩ := h.heat b hb
  have hrate := h.decayRate
  have hmax := h.maxRaw_bounds.2
  unfold HeatMap.decayed
  generalize sample - b.lastTouched = elapsed at *
  have hproduct : 0 ≤ map.decayRate * saturateElapsed elapsed := mul_nonneg hrate (by unfold saturateElapsed i32Max; omega)
  have hrange : i32Min ≤ b.heat - saturatingI32 (map.decayRate * saturateElapsed elapsed) ∧
      b.heat - saturatingI32 (map.decayRate * saturateElapsed elapsed) ≤ i32Max := by
    unfold saturatingI32 i32Min i32Max at *
    omega
  refine ⟨_, by rw [i32, if_pos hrange], ?_⟩
  by_cases hlong : (elapsed : Int) ≤ i32Max
  · have helapsed : saturateElapsed elapsed = elapsed := min_eq_left hlong
    rw [helapsed] at hproduct hrange ⊢
    unfold saturatingI32 i32Min i32Max at *
    omega
  · -- after so many samples nothing is left, unless nothing decays
    have helapsed : saturateElapsed elapsed = i32Max := min_eq_right (le_of_not_ge hlong)
    rw [helapsed]
    rcases eq_or_lt_of_le hrate with hzero | hpos
    · rw [← hzero, zero_mul, zero_mul]
      rfl
    · have hsaturated : i32Max ≤ map.decayRate * i32Max := le_mul_of_one_le_left (by decide) hpos
      have hexact : i32Max ≤ map.decayRate * elapsed :=
        le_trans hsaturated (mul_le_mul_of_nonneg_left (le_of_not_ge hlong) hrate)
      unfold saturatingI32 i32Min i32Max at *
      omega

/-! ## The operations -/

/-- The block as a cell of the lazy store. -/
def cell (b : Block) : Cell Int := ⟨b.heat, b.lastTouched⟩

theorem Fits.valueAt (h : Fits map) {b : Block} (hb : b ∈ map.blocks) (sample : Nat) :
    (cell b).valueAt (fadeBy map.decayRate) sample = max (b.heat - map.decayRate * ((sample - b.lastTouched : Nat) : Int)) 0 :=
  iterate_fadeBy h.decayRate (h.heat b hb).1 _

/-- What `get` computes is the value of the eager map. -/
theorem raw_of_follows (h : Fits map) (hfollows : Follows (fadeBy map.decayRate) (map.blocks.map cell) store) (idx : Nat) :
    map.raw idx store.now = some (store.values[idx]?.getD 0) := by
  rw [hfollows.getElem?, getElem?_map, HeatMap.raw]
  cases hidx : map.blocks[idx]? with
  | none => rfl
  | some b =>
    have hb := mem_of_getElem? hidx
    obtain ⟨left, hleft, hvalue⟩ := h.decayed hb store.now
    simp only [hleft, map_some, getD_some, hvalue, h.valueAt hb]

theorem values_le (h : Fits map) (hfollows : Follows (fadeBy map.decayRate) (map.blocks.map cell) store) (idx : Nat) :
    0 ≤ store.values[idx]?.getD 0 ∧ store.values[idx]?.getD 0 ≤ map.maxRaw := by
  rw [hfollows.getElem?, getElem?_map]
  cases hidx : map.blocks[idx]? with
  | none =>
    have := h.maxRaw_bounds
    exact ⟨le_refl 0, by simpa using by omega⟩
  | some b =>
    have hb := mem_of_getElem? hidx
    have hheat := h.heat b hb
    have hproduct : 0 ≤ map.decayRate * ((store.now - b.lastTouched : Nat) : Int) := mul_nonneg h.decayRate (Int.natCast_nonneg _)
    simp only [map_some, getD_some, h.valueAt hb]
    omega

/-- The block after a touch. -/
def touched (map : HeatMap) (b : Block) (sample : Nat) : Block :=
  ⟨min (max (b.heat - map.decayRate * ((sample - b.lastTouched : Nat) : Int)) 0 + 1) map.maxRaw, sample⟩

/-- What a touch does to a map whose heats fit. -/
theorem touch_cases (h : Fits map) (htouch : map.touch idx sample = some next) :
    (map.blocks[idx]? = none ∧ next = map) ∨ ∃ b, map.blocks[idx]? = some b ∧
      next = { map with blocks := map.blocks.set idx (touched map b sample) } := by
  rw [HeatMap.touch] at htouch
  cases hidx : map.blocks[idx]? with
  | none =>
    rw [hidx] at htouch
    exact Or.inl ⟨rfl, (some.inj htouch).symm⟩
  | some b =>
    obtain ⟨left, hleft, hvalue⟩ := h.decayed (mem_of_getElem? hidx) sample
    simp only [hidx, hleft, bind_eq_bind, bind_some, i32] at htouch
    split at htouch
    · refine Or.inr ⟨b, rfl, ?_⟩
      rw [touched, ← hvalue]
      exact (some.inj htouch).symm
    · exact absurd htouch (by simp)

theorem Fits.touch (h : Fits map) (htouch : map.touch idx sample = some next) : Fits next := by
  rcases touch_cases h htouch with ⟨_, rfl⟩ | ⟨b, hidx, rfl⟩
  · exact h
  · refine ⟨h.decayRate, h.heatInc, fun other hother => ?_, h.maxRaw⟩
    rcases mem_or_eq_of_mem_set hother with hmem | rfl
    · exact h.heat other hmem
    · have := h.maxRaw_bounds
      dsimp only [touched]
      omega

/-- A touch does not overflow unless the raw heat is the greatest `i32`. -/
theorem exists_touch (h : Fits map) (hmax : map.maxRaw < i32Max) (idx sample : Nat) : ∃ next, map.touch idx sample = some next := by
  rw [HeatMap.touch]
  cases hidx : map.blocks[idx]? with
  | none => exact ⟨map, rfl⟩
  | some b =>
    have hb := mem_of_getElem? hidx
    obtain ⟨left, hleft, hvalue⟩ := h.decayed hb sample
    have hheat := h.heat b hb
    have hproduct : 0 ≤ map.decayRate * ((sample - b.lastTouched : Nat) : Int) := mul_nonneg h.decayRate (Int.natCast_nonneg _)
    have hrange : i32Min ≤ max left 0 + 1 ∧ max left 0 + 1 ≤ i32Max := by
      unfold i32Min
      omega
    simp only [hleft, bind_eq_bind, bind_some, i32, if_pos hrange]
    exact ⟨_, rfl⟩

theorem follows_touch (h : Fits map) (hfollows : Follows (fadeBy map.decayRate) (map.blocks.map cell) store)
    (htouch : map.touch idx store.now = some next) :
    Follows (fadeBy map.decayRate) (next.blocks.map cell) (store.touch (fun heat => min (heat + 1) map.maxRaw) idx) := by
  rcases touch_cases h htouch with ⟨hidx, rfl⟩ | ⟨b, hidx, rfl⟩
  · exact hfollows.touch_none _ (by rw [getElem?_map, hidx]; rfl)
  · have hcell : (map.blocks.map cell)[idx]? = some (cell b) := by rw [getElem?_map, hidx]; rfl
    have htouched := hfollows.touch (fun heat => min (heat + 1) map.maxRaw) hcell
    rw [h.valueAt (mem_of_getElem? hidx)] at htouched
    rw [map_set]
    exact htouched

/-- The parameters stay as they are. -/
theorem parameters_touch (h : Fits map) (htouch : map.touch idx sample = some next) :
    next.decayRate = map.decayRate ∧ next.heatInc = map.heatInc ∧ next.maxRaw = map.maxRaw := by
  rcases touch_cases h htouch with ⟨_, rfl⟩ | ⟨b, _, rfl⟩
  · exact ⟨rfl, rfl, rfl⟩
  · exact ⟨rfl, rfl, rfl⟩

/-! ## Runs -/

/-- The greatest raw heat, when nine increments fit. -/
theorem Fits.maxRaw_eq (h : Fits map) (hmax : maxHeat * map.heatInc < i32Max) : map.maxRaw = 9 * map.heatInc := by
  have hinc := h.heatInc
  rw [h.maxRaw]
  unfold saturatingI32 maxHeat i32Min i32Max at *
  omega

theorem digit_le (h : Fits map) (hmax : maxHeat * map.heatInc < i32Max) {heat : Int} (hheat : heat ≤ map.maxRaw) : heat / map.heatInc ≤ maxHeat := by
  have hinc := h.heatInc
  rw [h.maxRaw_eq hmax] at hheat
  refine Int.le_of_lt_add_one (Int.ediv_lt_of_lt_mul hinc ?_)
  unfold maxHeat
  omega

/-- The operations after the first one, and what the first one shows when the map after it follows the eager one. -/
theorem shown_cons {op : HeatOp} {rest : List HeatOp} (hperform : map.perform op = some next) (hfits : Fits next)
    (hmax : maxHeat * next.heatInc < i32Max) {after : Eager Int}
    (hfollows : Follows (fadeBy next.decayRate) (next.blocks.map cell) after) (hnow : after.now = op.sample)
    {later : List (Int × Int)} (hrest : next.shown rest = some later) :
    map.shown (op :: rest) =
      some ((after.values[op.idx]?.getD 0, after.values[op.idx]?.getD 0 / next.heatInc) :: later) := by
  have hraw := raw_of_follows hfits hfollows op.idx
  have hdigit := digit_le hfits hmax (values_le hfits hfollows op.idx).2
  rw [hnow] at hraw
  simp only [HeatMap.shown, HeatMap.get, hperform, hraw, hrest, bind_eq_bind, bind_some, min_eq_left hdigit]

/-- From any state that fits, the lazy map shows what the eager one shows. -/
theorem shown_of_follows (ops : List HeatOp) (h : Fits map) (hmax : maxHeat * map.heatInc < i32Max) (hfollows : Follows (fadeBy map.decayRate) (map.blocks.map cell) store)
    (hlater : ∀ op ∈ ops, store.now ≤ op.sample) (hsorted : ops.Pairwise fun a b => a.sample ≤ b.sample) :
    map.shown ops = some (eagerShown map.decayRate map.heatInc store ops) := by
  induction ops generalizing map store with
  | nil => rfl
  | cons op rest ih =>
    obtain ⟨hfirst, hrestSorted⟩ := pairwise_cons.mp hsorted
    have hnow : (store.advance (fadeBy map.decayRate) op.sample).now = op.sample := now_advance (hlater op mem_cons_self)
    have hcurrent := hfollows.advance op.sample
    cases op with
    | touch idx sample =>
      dsimp only [HeatOp.sample] at hnow hcurrent
      obtain ⟨next, htouch⟩ := exists_touch h (by rw [h.maxRaw_eq hmax]; exact hmax) idx sample
      have hafter := follows_touch h hcurrent (by rw [hnow]; exact htouch)
      have hfits := h.touch htouch
      obtain ⟨hrate, hinc, _⟩ := parameters_touch h htouch
      rw [h.maxRaw_eq hmax] at hafter
      rw [← hrate] at hafter ⊢
      rw [← hinc] at hafter hmax ⊢
      have hrest := ih hfits hmax hafter (fun other hother => by rw [hrate]; exact hnow.le.trans (hfirst other hother)) hrestSorted
      have hperform : map.perform (.touch idx sample) = some next := htouch
      exact shown_cons hperform hfits hmax hafter (by rw [hrate]; exact hnow) hrest
    | read idx sample =>
      have hrest := ih h hmax hcurrent (fun other hother => hnow.le.trans (hfirst other hother)) hrestSorted
      exact shown_cons rfl h hmax hcurrent hnow hrest

end HeatAux

open HeatAux

/-- With nondecreasing sample numbers, the lazy heat map computes the raw heats and shows the digits of the map that lowers every block at
every sample, and no operation overflows. -/
theorem shown_new_eq_eagerShown (numBlocks : Nat) (decayRate heatInc : Int) (hinc : maxHeat * heatInc < i32Max) (ops : List HeatOp)
    (hsorted : ops.Pairwise fun a b => a.sample ≤ b.sample) :
    (HeatMap.new numBlocks decayRate heatInc).shown ops =
      some (eagerShown (max decayRate 0) (max heatInc 1) ⟨List.replicate numBlocks 0, 0⟩ ops) := by
  refine shown_of_follows ops (fits_new numBlocks decayRate heatInc) ?_ ?_ (fun op _ => Nat.zero_le op.sample) hsorted
  · dsimp only [HeatMap.new]
    unfold maxHeat i32Max at *
    omega
  · have hstart := follows_start (fadeBy (max decayRate 0)) (List.replicate numBlocks (0 : Int))
    rw [List.map_replicate] at hstart
    dsimp only [HeatMap.new]
    rw [List.map_replicate]
    exact hstart

/-- Two touches, and a look more than `i32::MAX` samples later. -/
theorem shown_new_eq_eagerShown_far : (HeatMap.new 1 1 1).shown [.touch 0 0, .touch 0 0, .read 0 (2 ^ 40)] =
      some (eagerShown 1 1 ⟨[0], 0⟩ [.touch 0 0, .touch 0 0, .read 0 (2 ^ 40)]) :=
  shown_new_eq_eagerShown 1 1 1 (by decide) _ (by decide)

end EbpfSyscall.Heatmap
