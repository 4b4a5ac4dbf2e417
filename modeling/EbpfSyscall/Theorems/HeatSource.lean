import EbpfSyscall.Lib.Checked
import EbpfSyscall.Theorems.HeatMap
import EbpfSyscall.Theorems.FreqMap

/-!
# Hot blocks and ranges

`count_hot` and `max_range` are second readings of what `get` shows. Both agree with it for the frequencies. For heat the range agrees, but a
block whose raw heat is short of one increment is counted as hot while its digit is zero.
-/

namespace EbpfSyscall.Heatmap

open List Option

/-- The touches of a heat map one after the other, as blocks and samples. -/
def HeatMap.touchAll (map : HeatMap) (touches : List (Nat × Nat)) : Option HeatMap :=
  touches.foldlM (fun map touch => map.touch touch.1 touch.2) map

/-- The touches of a frequency map one after the other. -/
def FreqMap.touchAll (map : FreqMap) (touches : List (Nat × Nat)) : Option FreqMap :=
  touches.foldlM (fun map touch => map.touch touch.1 touch.2) map

/-- `count_hot` is the number of blocks whose digit is not zero, and `max_range` is the greatest digit of the range, or zero. -/
def Agrees (get : Nat → Option Int) (numBlocks : Nat) (countHot : Option Nat) (maxRange : Nat → Nat → Option Int) : Prop :=
  ∃ digits : List Int, (List.range numBlocks).map get = digits.map some ∧ countHot = some (digits.countP fun digit => digit ≠ 0) ∧
    ∀ start stop, maxRange start stop = some (((digits.take stop).drop start).foldl max 0)

namespace SourceAux

/-! ## The scan of a range -/

theorem foldl_max_of_le {digits : List Int} {greatest : Int} (h : ∀ digit ∈ digits, digit ≤ greatest) : digits.foldl max greatest = greatest := by
  induction digits with
  | nil => rfl
  | cons digit digits ih =>
    rw [foldl_cons, max_eq_left (h digit mem_cons_self)]
    exact ih fun other hother => h other (mem_cons_of_mem digit hother)

variable {get : Nat → Option Int} {digit : Nat → Int} {map : HeatMap}

/-- The way out of the loop is taken where no later digit is greater. -/
theorem maxRangeLoop_eq (indices : List Nat) (hget : ∀ idx ∈ indices, get idx = some (digit idx)) (hdigit : ∀ idx, digit idx ≤ maxHeat) (maxH : Int) :
    maxRangeLoop get indices maxH = some ((indices.map digit).foldl max maxH) := by
  induction indices generalizing maxH with
  | nil => rfl
  | cons idx rest ih =>
    obtain ⟨hfirst, hrest⟩ := forall_mem_cons.mp hget
    simp only [maxRangeLoop, hfirst, bind_eq_bind, bind_some, map_cons, foldl_cons]
    by_cases hgreater : maxH < digit idx
    · rw [if_pos hgreater, max_eq_right hgreater.le]
      by_cases hmax : digit idx = maxHeat
      · rw [if_pos hmax, hmax, foldl_max_of_le]
        intro other hother
        obtain ⟨later, _, rfl⟩ := mem_map.mp hother
        exact hdigit later
      · rw [if_neg hmax]
        exact ih hrest _
    · rw [if_neg hgreater, max_eq_left (le_of_not_gt hgreater)]
      exact ih hrest _

theorem map_range'_eq (digit : Nat → Int) (numBlocks start stop : Nat) :
    (List.range' start (min stop numBlocks - start)).map digit = ((((List.range numBlocks).map digit).take stop).drop start) := by
  refine ext_getElem? fun i => ?_
  rw [getElem?_map, getElem?_drop, getElem?_take]
  by_cases hi : i < min stop numBlocks - start
  · rw [if_pos (by omega), getElem?_range' hi, getElem?_map, getElem?_range (by omega)]
    simp
  · rw [getElem?_eq_none (by simpa using Nat.le_of_not_lt hi)]
    split
    · rw [getElem?_eq_none (by rw [length_map, length_range]; omega)]
      rfl
    · rfl

theorem maxRange_eq {numBlocks : Nat} (hget : ∀ idx < numBlocks, get idx = some (digit idx))
    (hdigit : ∀ idx, digit idx ≤ maxHeat) (start stop : Nat) :
    maxRange get numBlocks start stop = some (((((List.range numBlocks).map digit).take stop).drop start).foldl max 0) := by
  rw [maxRange, maxRangeLoop_eq _ _ hdigit, map_range'_eq]
  intro idx hidx
  have := mem_range'_1.mp hidx
  exact hget idx (by omega)

/-! ## Counting -/

theorem mapM_eq_map {α β : Type} {f : α → Option β} {g : α → β} (l : List α) (h : ∀ a ∈ l, f a = some (g a)) : l.mapM f = some (l.map g) :=
  Checked.mapM_eq_some.mpr (forall₂_map_right_iff.mpr (forall₂_same.mpr h))

/-- A property that implies another holds as often as it exactly when the two are the same. -/
theorem countP_eq_iff {α : Type} {p q : α → Bool} (l : List α) (h : ∀ a ∈ l, p a = true → q a = true) :
    l.countP q = l.countP p ↔ ∀ a ∈ l, q a = true → p a = true := by
  induction l with
  | nil => simp
  | cons a l ih =>
    obtain ⟨ha, hl⟩ := forall_mem_cons.mp h
    have hle : l.countP p ≤ l.countP q := countP_mono_left hl
    rw [countP_cons, countP_cons, forall_mem_cons, ← ih hl]
    cases hp : p a with
    | true => simp [ha hp]
    | false =>
      cases hq : q a with
      | true =>
        simp
        omega
      | false => simp

/-- When every block has a digit, the source agrees with them as soon as the count does. -/
theorem agrees_iff {numBlocks : Nat} (count : Nat) (hget : ∀ idx < numBlocks, get idx = some (digit idx)) (hdigit : ∀ idx, digit idx ≤ maxHeat) :
    Agrees get numBlocks (some count) (maxRange get numBlocks) ↔
      count = ((List.range numBlocks).map digit).countP fun digit => digit ≠ 0 := by
  have hdigits : (range numBlocks).map get = ((range numBlocks).map digit).map some := by
    rw [List.map_map]
    exact map_congr_left fun idx hidx => hget idx (mem_range.mp hidx)
  constructor
  · rintro ⟨digits, hmap, hcount, _⟩
    obtain rfl : (range numBlocks).map digit = digits :=
      map_injective_iff.mpr (some_injective Int) (hdigits.symm.trans hmap)
    exact some.inj hcount
  · rintro rfl
    exact ⟨_, hdigits, rfl, maxRange_eq hget hdigit⟩

theorem map_range_getElem? {α β : Type} (l : List α) (f : Option α → β) :
    (List.range l.length).map (fun i => f l[i]?) = l.map fun a => f (some a) := by
  refine ext_getElem (by simp) fun i hi _ => ?_
  rw [length_map, length_range] at hi
  simp [hi]

/-! ## Heat -/

/-- The heat that is left of a block, below zero if more has decayed than there was. -/
def leftOf (rate : Int) (sample : Nat) (b : Block) : Int := b.heat - rate * ((sample - b.lastTouched : Nat) : Int)

/-- The digit of a block. -/
def digitOf (map : HeatMap) (sample : Nat) : Option Block → Int
  | some b => min (max (leftOf map.decayRate sample b) 0 / map.heatInc) maxHeat
  | none => 0

theorem digitOf_le (map : HeatMap) (sample : Nat) (b : Option Block) : digitOf map sample b ≤ maxHeat := by
  cases b with
  | none => exact show (0 : Int) ≤ maxHeat by decide
  | some b => exact min_le_right _ _

open HeatAux in
theorem get_heatMap (h : Fits map) (idx sample : Nat) : map.get idx sample = some (digitOf map sample map.blocks[idx]?) := by
  rw [HeatMap.get, HeatMap.raw]
  cases hidx : map.blocks[idx]? with
  | none => simp [digitOf, maxHeat]
  | some b =>
    obtain ⟨left, hleft, hvalue⟩ := h.decayed (mem_of_getElem? hidx) sample
    simp only [hleft, map_some, bind_eq_bind, bind_some, hvalue]
    rfl

open HeatAux in
theorem countHot_heatMap (h : Fits map) (sample : Nat) :
    map.countHot sample = some (map.blocks.countP fun b => 0 < leftOf map.decayRate sample b) := by
  have hdecayed : ∀ b ∈ map.blocks, map.decayed b sample = some ((map.decayed b sample).getD 0) := fun b hb => by
    obtain ⟨left, hleft, _⟩ := h.decayed hb sample
    rw [hleft]
    rfl
  rw [HeatMap.countHot, mapM_eq_map _ hdecayed, bind_eq_bind, bind_some, countP_map]
  refine congrArg some (countP_congr fun b hb => ?_)
  obtain ⟨left, hleft, hvalue⟩ := h.decayed hb sample
  rw [Function.comp_apply, hleft, getD_some, decide_eq_true_eq, decide_eq_true_eq, leftOf]
  omega

/-- A block shows a digit when one increment of heat is left. -/
theorem digitOf_ne_zero (hinc : 1 ≤ map.heatInc) (sample : Nat) (b : Block) :
    digitOf map sample (some b) ≠ 0 ↔ map.heatInc ≤ leftOf map.decayRate sample b := by
  have hraw : 0 ≤ max (leftOf map.decayRate sample b) 0 / map.heatInc := Int.ediv_nonneg (le_max_right _ _) (by omega)
  have hdigit : 1 ≤ max (leftOf map.decayRate sample b) 0 / map.heatInc ↔ map.heatInc ≤ max (leftOf map.decayRate sample b) 0 := by
    rw [Int.le_ediv_iff_mul_le hinc, one_mul]
  rw [digitOf]
  unfold maxHeat
  omega

open HeatAux in
theorem fits_touchAll (touches : List (Nat × Nat)) {last : HeatMap} (h : Fits map) (hrun : map.touchAll touches = some last) :
    Fits last ∧ last.decayRate = map.decayRate ∧ last.heatInc = map.heatInc ∧ last.blocks.length = map.blocks.length := by
  induction touches generalizing map with
  | nil =>
    obtain rfl := some.inj hrun
    exact ⟨h, rfl, rfl, rfl⟩
  | cons touch rest ih =>
    rw [HeatMap.touchAll, foldlM_cons] at hrun
    obtain ⟨next, htouch, hrest⟩ := bind_eq_some_iff.mp hrun
    obtain ⟨hfits, hrate, hinc, hlength⟩ := ih (h.touch htouch) hrest
    obtain ⟨hnextRate, hnextInc, _⟩ := parameters_touch h htouch
    have hnextLength : next.blocks.length = map.blocks.length := by
      rcases touch_cases h htouch with ⟨_, rfl⟩ | ⟨b, _, rfl⟩
      · rfl
      · exact length_set ..
    exact ⟨hfits, hrate.trans hnextRate, hinc.trans hnextInc, hlength.trans hnextLength⟩

open HeatAux in
/-- The heat map agrees exactly when no block has some heat left, but less than an increment. -/
theorem agrees_heatMap (h : Fits map) (sample : Nat) : Agrees (map.get · sample) map.blocks.length (map.countHot sample) (map.maxRange · · sample) ↔
      ∀ b ∈ map.blocks, 0 < leftOf map.decayRate sample b → map.heatInc ≤ leftOf map.decayRate sample b := by
  have hshown : ∀ b ∈ map.blocks, decide (digitOf map sample (some b) ≠ 0) = true → decide (0 < leftOf map.decayRate sample b) = true := by
    intro b _ hdigit
    have hinc := h.heatInc
    have hleft := (digitOf_ne_zero hinc sample b).mp (of_decide_eq_true hdigit)
    exact decide_eq_true (by omega)
  have hcount := countP_eq_iff map.blocks hshown
  simp only [decide_eq_true_eq, digitOf_ne_zero h.heatInc] at hcount
  rw [countHot_heatMap h, ← hcount]
  have hagrees := agrees_iff (map.blocks.countP fun b => 0 < leftOf map.decayRate sample b)
    (fun idx (_ : idx < map.blocks.length) => get_heatMap h idx sample) fun idx => digitOf_le map sample map.blocks[idx]?
  rw [map_range_getElem?, countP_map] at hagrees
  simp only [Function.comp_def, digitOf_ne_zero h.heatInc] at hagrees
  exact hagrees

/-! ## Frequency -/

open FreqAux in
theorem allFit_touchAll (touches : List (Nat × Nat)) {map last : FreqMap} (h : AllFit map) (hrun : map.touchAll touches = some last) :
    AllFit last ∧ last.blocks.length = map.blocks.length := by
  induction touches generalizing map with
  | nil =>
    obtain rfl := some.inj hrun
    exact ⟨h, rfl⟩
  | cons touch rest ih =>
    rw [FreqMap.touchAll, foldlM_cons] at hrun
    obtain ⟨next, htouch, hrest⟩ := bind_eq_some_iff.mp hrun
    have hnext : AllFit next ∧ next.blocks.length = map.blocks.length := by
      cases hidx : map.blocks[touch.1]? with
      | none =>
        rw [FreqMap.touch, hidx] at htouch
        obtain rfl := some.inj htouch
        exact ⟨h, rfl⟩
      | some b =>
        by_cases hzero : map.window = 0
        · -- the division by the window
          simp [FreqMap.touch, hidx, hzero] at htouch
        · obtain ⟨other, hother, hfit, _, _⟩ := h.touch (Nat.one_le_iff_ne_zero.mpr hzero) touch.1 touch.2
          have htouched := touch_eq h (Nat.one_le_iff_ne_zero.mpr hzero) touch.1 touch.2
          obtain rfl := some.inj (hother.symm.trans htouch)
          refine ⟨hfit, ?_⟩
          rw [hidx] at htouched
          rw [some.inj (hother.symm.trans htouched)]
          exact length_set ..
    obtain ⟨hfit, hlength⟩ := ih hnext.1 hrest
    exact ⟨hfit, hlength.trans hnext.2⟩

open FreqAux in
theorem agrees_freqMap {map : FreqMap} (h : AllFit map) (sample : Nat) :
    Agrees (map.get · sample) map.blocks.length (map.countHot sample) (map.maxRange · · sample) := by
  have hget : ∀ idx < map.blocks.length, map.get idx sample = some (level (map.blocks[idx]?.elim 0
      fun b => left map.window map.decayRate b.freqBp (sample - b.lastSample))) := fun idx _ => by
    rw [FreqMap.get, frequency_eq h]
    cases map.blocks[idx]? <;> rfl
  have hcount : map.countHot sample =
      some (map.blocks.countP fun b => 0 < left map.window map.decayRate b.freqBp (sample - b.lastSample)) := by
    rw [FreqMap.countHot, mapM_eq_map _ fun b hb => decay_eq h.window (h.blocks b hb) _ _]
    simp only [bind_eq_bind, bind_some, countP_map, Function.comp_def]
  rw [hcount]
  refine (agrees_iff _ hget fun idx => (level_bounds _).2.1).mpr ?_
  rw [map_range_getElem? map.blocks fun b => level (b.elim 0 fun b => left map.window map.decayRate b.freqBp (sample - b.lastSample)),
    countP_map]
  refine countP_congr fun b _ => ?_
  simp only [Function.comp_apply, elim_some, decide_eq_true_eq, (level_bounds _).2.2]
  exact Nat.pos_iff_ne_zero

end SourceAux

open SourceAux

/-- After touches that do not overflow, the counts and the ranges of both sources agree with what `get` shows, at every sample, exactly when
no block of the heat map has heat left that is less than an increment. -/
theorem sources_agree_iff (numBlocks : Nat) (decayRate heatInc : Int) (window freqRate : Nat) (hwindow : window < 2 ^ 32)
    (heatTouches freqTouches : List (Nat × Nat)) {heat : HeatMap} {freq : FreqMap}
    (hheat : (HeatMap.new numBlocks decayRate heatInc).touchAll heatTouches = some heat)
    (hfreq : (FreqMap.new numBlocks window freqRate).touchAll freqTouches = some freq) (sample : Nat) :
    (Agrees (heat.get · sample) numBlocks (heat.countHot sample) (heat.maxRange · · sample) ∧
        Agrees (freq.get · sample) numBlocks (freq.countHot sample) (freq.maxRange · · sample)) ↔
      ∀ b ∈ heat.blocks, 0 < b.heat - max decayRate 0 * ((sample - b.lastTouched : Nat) : Int) →
        max heatInc 1 ≤ b.heat - max decayRate 0 * ((sample - b.lastTouched : Nat) : Int) := by
  obtain ⟨hfits, hrate, hinc, hlength⟩ := fits_touchAll heatTouches (HeatAux.fits_new numBlocks decayRate heatInc) hheat
  obtain ⟨hallFit, hfreqLength⟩ := allFit_touchAll freqTouches (FreqAux.allFit_new numBlocks freqRate hwindow) hfreq
  have hheatAgrees := agrees_heatMap hfits sample
  have hfreqAgrees := agrees_freqMap hallFit sample
  rw [show heat.blocks.length = numBlocks from hlength.trans List.length_replicate, hrate, hinc] at hheatAgrees
  rw [show freq.blocks.length = numBlocks from hfreqLength.trans List.length_replicate] at hfreqAgrees
  rw [and_iff_left hfreqAgrees]
  exact hheatAgrees

/-- One touch with an increment of two: the block is counted as hot, and its digit is zero. -/
theorem sources_agree_not : (HeatMap.new 1 0 2).touchAll [(0, 0)] = some ⟨[⟨1, 0⟩], 0, 2, 18⟩ ∧
      HeatMap.countHot ⟨[⟨1, 0⟩], 0, 2, 18⟩ 0 = some 1 ∧ HeatMap.get ⟨[⟨1, 0⟩], 0, 2, 18⟩ 0 0 = some 0 := by
  decide

/-- With an increment of one the sources agree after a touch. -/
theorem sources_agree_one :
    Agrees (HeatMap.get ⟨[⟨1, 0⟩], 0, 1, 9⟩ · 0) 1 (HeatMap.countHot ⟨[⟨1, 0⟩], 0, 1, 9⟩ 0) (HeatMap.maxRange ⟨[⟨1, 0⟩], 0, 1, 9⟩ · · 0) :=
  ((sources_agree_iff 1 0 1 2 1 (by decide) [(0, 0)] [] (by decide) rfl 0).mpr (by decide)).1

end EbpfSyscall.Heatmap
