import EbpfSyscall.Heatmap.Heat
import EbpfSyscall.Lib.Lazily

/-!
# The moving sum of frequencies

`FreqMap` decays a frequency in a loop over the samples that have passed, with a way out when they are as many as the window. No operation
of it overflows, since the loop is only entered when the window is greater than the decay rate, and a window above ten thousand leaves
all frequencies at zero. The way out takes a frequency to zero that the moving sum does not take there.
-/

namespace EbpfSyscall.Heatmap

open Lazily List Function Option

/-- The operations one after the other. -/
def FreqMap.performAll (map : FreqMap) (ops : List HeatOp) : Option FreqMap := ops.foldlM FreqMap.perform map

namespace FreqAux

variable {window decayRate val : Nat} {map : FreqMap}

/-! ## The decay -/

/-- One round of the loop in `decay`. -/
def fade (window decayRate val : Nat) : Nat := val - (val / window * decayRate + val % window * decayRate / window)

/-- What `decay` computes. -/
def left (window decayRate freqBp elapsed : Nat) : Nat :=
  if elapsed = 0 ∨ decayRate = 0 then freqBp
  else if window ≤ elapsed * decayRate then 0
  else (fade window decayRate)^[elapsed] freqBp

/-- A frequency that a map with this window can have. -/
def Fits (window freqBp : Nat) : Prop := freqBp ≤ 10000 ∧ (10000 / window = 0 → freqBp = 0)

theorem fade_le (val : Nat) : fade window decayRate val ≤ val := Nat.sub_le _ _

theorem fits_fade (h : Fits window val) : Fits window (fade window decayRate val) :=
  ⟨(fade_le val).trans h.1, fun hzero => Nat.le_zero.mp ((fade_le val).trans (h.2 hzero).le)⟩

theorem fits_zero : Fits window 0 := ⟨Nat.zero_le _, fun _ => rfl⟩

theorem iterate_fade_zero (n : Nat) : (fade window decayRate)^[n] 0 = 0 :=
  iterate_fixed (by simp [fade]) n

/-- The products of one round fit: either the frequency is zero, or the window is at most ten thousand and the rate less than it. -/
theorem round_lt (h : Fits window val) (hrate : decayRate < window) :
    val / window * decayRate ≤ val ∧ val % window * decayRate ≤ 10000 * 10000 ∧ val % window * decayRate / window ≤ val := by
  have hpos : 0 < window := by omega
  have hwhole : val / window * decayRate ≤ val := le_trans (Nat.mul_le_mul_left _ hrate.le) (Nat.div_mul_le_self val window)
  have hpart : val % window * decayRate ≤ val * window := Nat.mul_le_mul (Nat.mod_le val window) hrate.le
  refine ⟨hwhole, ?_, Nat.div_le_of_le_mul (hpart.trans (Nat.mul_comm val window).le)⟩
  by_cases hlarge : 10000 < window
  · rw [h.2 (Nat.div_eq_of_lt hlarge), Nat.zero_mod, Nat.zero_mul]
    exact Nat.zero_le _
  · exact hpart.trans (Nat.mul_le_mul h.1 (by omega))

theorem decayLoop_eq (hrate : decayRate < window) (n : Nat) (h : Fits window val) :
    decayLoop window decayRate n val = some ((fade window decayRate)^[n] val) := by
  induction n generalizing val with
  | zero => rfl
  | succ n ih =>
    obtain ⟨hwhole, hpart, hquotient⟩ := round_lt h hrate
    have hval := h.1
    have hwhole32 : u32 (val / window * decayRate) = some (val / window * decayRate) := if_pos (by omega)
    have hpart32 : u32 (val % window * decayRate) = some (val % window * decayRate) := if_pos (by omega)
    have hstep32 : u32 (val / window * decayRate + val % window * decayRate / window) =
        some (val / window * decayRate + val % window * decayRate / window) := if_pos (by omega)
    simp only [decayLoop, hwhole32, hpart32, hstep32, bind_eq_bind, bind_some]
    rw [iterate_succ_apply]
    split
    next hgone =>
      rw [fade, Nat.sub_eq_zero_of_le hgone, iterate_fade_zero]
    next =>
      split
      next hzero => rw [fade, hzero, iterate_fade_zero]
      next => exact ih (fits_fade h)

/-- No operation of `decay` overflows. -/
theorem decay_eq (hwindow : window < 2 ^ 32) {freqBp : Nat} (h : Fits window freqBp) (elapsed decayRate : Nat) :
    decay freqBp elapsed window decayRate = some (left window decayRate freqBp elapsed) := by
  rw [decay, left]
  by_cases hzero : elapsed = 0 ∨ decayRate = 0
  · rw [if_pos hzero, if_pos hzero]
  · rw [if_neg hzero, if_neg hzero]
    by_cases hlong : window ≤ elapsed * decayRate
    · rw [if_pos hlong, if_pos (le_min hlong (by omega))]
    · rw [if_neg hlong, if_neg fun hmin => hlong (hmin.trans (min_le_left _ _))]
      have hrate : decayRate ≤ elapsed * decayRate := Nat.le_mul_of_pos_left _ (by omega)
      exact decayLoop_eq (by omega) elapsed h

theorem iterate_fade_antitone (val : Nat) {shorter longer : Nat} (h : shorter ≤ longer) :
    (fade window decayRate)^[longer] val ≤ (fade window decayRate)^[shorter] val := by
  induction longer, h using Nat.le_induction with
  | base => exact le_refl _
  | succ n _ ih =>
    rw [iterate_succ_apply']
    exact (fade_le _).trans ih

/-- The longer the time, the less is left. -/
theorem left_antitone (window decayRate freqBp : Nat) {shorter longer : Nat} (h : shorter ≤ longer) :
    left window decayRate freqBp longer ≤ left window decayRate freqBp shorter := by
  unfold left
  by_cases hrate : decayRate = 0
  · rw [if_pos (Or.inr hrate), if_pos (Or.inr hrate)]
  · by_cases hlonger : longer = 0
    · rw [Nat.le_zero.mp (h.trans hlonger.le), hlonger]
    · rw [if_neg (show ¬(longer = 0 ∨ decayRate = 0) by omega)]
      by_cases hlong : window ≤ longer * decayRate
      · rw [if_pos hlong]
        exact Nat.zero_le _
      · have hproduct : shorter * decayRate ≤ longer * decayRate := Nat.mul_le_mul_right _ h
        rw [if_neg hlong, if_neg (show ¬window ≤ shorter * decayRate by omega)]
        split
        next hshorter =>
          obtain rfl : shorter = 0 := by omega
          exact iterate_fade_antitone freqBp h
        next => exact iterate_fade_antitone freqBp h

theorem left_zero (freqBp : Nat) : left window decayRate freqBp 0 = freqBp := by
  rw [left, if_pos (Or.inl rfl)]

theorem left_le (window decayRate freqBp elapsed : Nat) : left window decayRate freqBp elapsed ≤ freqBp := by
  have h := left_antitone window decayRate freqBp (Nat.zero_le elapsed)
  rwa [left_zero] at h

/-! ## The operations -/

/-- Every frequency of the map fits its window. -/
structure AllFit (map : FreqMap) : Prop where
  window : map.window < 2 ^ 32
  blocks : ∀ b ∈ map.blocks, Fits map.window b.freqBp

theorem allFit_new (numBlocks decayRate : Nat) (hwindow : window < 2 ^ 32) : AllFit (FreqMap.new numBlocks window decayRate) := by
  refine ⟨hwindow, fun b hb => ?_⟩
  obtain rfl := eq_of_mem_replicate hb
  exact fits_zero

/-- The block after a touch. -/
def touched (map : FreqMap) (b : FreqBlock) (sample : Nat) : FreqBlock :=
  ⟨min (left map.window map.decayRate b.freqBp (sample - b.lastSample) + 10000 / map.window) 10000, sample⟩

/-- What a touch does. -/
theorem touch_eq (h : AllFit map) (hpos : 1 ≤ map.window) (idx sample : Nat) : map.touch idx sample = some (match map.blocks[idx]? with
      | some b => { map with blocks := map.blocks.set idx (touched map b sample) }
      | none => map) := by
  rw [FreqMap.touch]
  cases hidx : map.blocks[idx]? with
  | none => rfl
  | some b =>
    have hfit := h.blocks b (mem_of_getElem? hidx)
    have hleft := left_le map.window map.decayRate b.freqBp (sample - b.lastSample)
    have hadd : 10000 / map.window ≤ 10000 := Nat.div_le_self _ _
    have hbound := hfit.1
    simp only [decay_eq h.window hfit, bind_eq_bind, bind_some, if_neg (show ¬map.window = 0 by omega)]
    have hcap : (if 10000 < min (left map.window map.decayRate b.freqBp (sample - b.lastSample) + 10000 / map.window) (2 ^ 32 - 1)
        then 10000 else min (left map.window map.decayRate b.freqBp (sample - b.lastSample) + 10000 / map.window) (2 ^ 32 - 1)) =
        min (left map.window map.decayRate b.freqBp (sample - b.lastSample) + 10000 / map.window) 10000 := by
      split <;> omega
    rw [hcap]
    rfl

theorem fits_touched {b : FreqBlock} (h : Fits map.window b.freqBp) (sample : Nat) : Fits map.window (touched map b sample).freqBp := by
  refine ⟨min_le_right _ _, fun hzero => ?_⟩
  have hleft := left_le map.window map.decayRate b.freqBp (sample - b.lastSample)
  rw [h.2 hzero] at hleft
  dsimp only [touched]
  rw [h.2 hzero]
  omega

theorem AllFit.touch (h : AllFit map) (hpos : 1 ≤ map.window) (idx sample : Nat) :
    ∃ next, map.touch idx sample = some next ∧ AllFit next ∧ next.window = map.window ∧ next.decayRate = map.decayRate := by
  refine ⟨_, touch_eq h hpos idx sample, ?_⟩
  cases hidx : map.blocks[idx]? with
  | none => exact ⟨h, rfl, rfl⟩
  | some b =>
    refine ⟨⟨h.window, fun other hother => ?_⟩, rfl, rfl⟩
    rcases mem_or_eq_of_mem_set hother with hmem | rfl
    · exact h.blocks other hmem
    · exact fits_touched (h.blocks b (mem_of_getElem? hidx)) sample

theorem AllFit.performAll (ops : List HeatOp) (h : AllFit map) (hpos : 1 ≤ map.window) :
    ∃ last, map.performAll ops = some last ∧ AllFit last ∧ last.window = map.window ∧ last.decayRate = map.decayRate := by
  induction ops generalizing map with
  | nil => exact ⟨map, rfl, h, rfl, rfl⟩
  | cons op rest ih =>
    have hone : ∃ next, map.perform op = some next ∧ AllFit next ∧ next.window = map.window ∧ next.decayRate = map.decayRate := by
      cases op with
      | touch idx sample => exact h.touch hpos idx sample
      | read idx sample => exact ⟨map, rfl, h, rfl, rfl⟩
    obtain ⟨next, hperform, hfit, hwindow, hrate⟩ := hone
    obtain ⟨last, hlast, hfits, hlastWindow, hlastRate⟩ := ih hfit (by rw [hwindow]; exact hpos)
    refine ⟨last, ?_, hfits, hlastWindow.trans hwindow, hlastRate.trans hrate⟩
    rw [FreqMap.performAll, foldlM_cons, hperform]
    exact hlast

theorem frequency_eq (h : AllFit map) (idx sample : Nat) : map.frequency idx sample = some (match map.blocks[idx]? with
      | some b => left map.window map.decayRate b.freqBp (sample - b.lastSample)
      | none => 0) := by
  rw [FreqMap.frequency]
  cases hidx : map.blocks[idx]? with
  | none => rfl
  | some b => exact decay_eq h.window (h.blocks b (mem_of_getElem? hidx)) _ _

theorem level_bounds (decayed : Nat) : 0 ≤ level decayed ∧ level decayed ≤ maxHeat ∧ (level decayed ≠ 0 ↔ decayed ≠ 0) := by
  unfold level maxHeat
  split <;> omega

end FreqAux

open FreqAux

/-- From any touches and reads with any sample numbers: no operation overflows, frequencies are at most ten thousand, decay does not raise a
frequency and leaves no more after more samples, and the digit is from 0 to 9 and is 0 exactly for the frequency zero. -/
theorem performAll_new_bounded (numBlocks window decayRate : Nat) (hpos : 1 ≤ window) (hwindow : window < 2 ^ 32) (ops : List HeatOp) :
    ∃ map, (FreqMap.new numBlocks window decayRate).performAll ops = some map ∧
      (∀ b ∈ map.blocks, b.freqBp ≤ 10000 ∧ ∀ shorter longer, shorter ≤ longer →
        ∃ more less, decay b.freqBp shorter map.window map.decayRate = some more ∧
          decay b.freqBp longer map.window map.decayRate = some less ∧ more ≤ b.freqBp ∧ less ≤ more) ∧
      ∀ idx sample, ∃ frequency digit, map.frequency idx sample = some frequency ∧ map.get idx sample = some digit ∧
        0 ≤ digit ∧ digit ≤ 9 ∧ (digit ≠ 0 ↔ frequency ≠ 0) := by
  obtain ⟨map, hmap, hfit, _, _⟩ := (allFit_new numBlocks decayRate hwindow).performAll ops hpos
  refine ⟨map, hmap, fun b hb => ⟨(hfit.blocks b hb).1, fun shorter longer hle => ?_⟩, fun idx sample => ?_⟩
  · have hdecay := decay_eq hfit.window (hfit.blocks b hb)
    exact ⟨_, _, hdecay shorter _, hdecay longer _, left_le _ _ _ _, left_antitone _ _ _ hle⟩
  · obtain ⟨frequency, hfrequency⟩ : ∃ frequency, map.frequency idx sample = some frequency := ⟨_, frequency_eq hfit idx sample⟩
    have hget : map.get idx sample = some (level frequency) := by
      rw [FreqMap.get, hfrequency]
      rfl
    exact ⟨frequency, level frequency, hfrequency, hget, level_bounds frequency⟩

/-- A decay rate of `u32::MAX`, two touches of a window of two samples, the second with an earlier sample number. -/
theorem performAll_new_bounded_backwards :
    ∃ map, (FreqMap.new 1 2 (2 ^ 32 - 1)).performAll [.touch 0 5, .touch 0 3] = some map ∧ ∀ b ∈ map.blocks, b.freqBp ≤ 10000 := by
  obtain ⟨map, hmap, hblocks, _⟩ := performAll_new_bounded 1 2 (2 ^ 32 - 1) (by decide) (by decide) [.touch 0 5, .touch 0 3]
  exact ⟨map, hmap, fun b hb => (hblocks b hb).1⟩

/-! ## The moving sum -/

/-- A touch of the moving sum adds ten thousand divided by the window, up to ten thousand. -/
def eagerPerform (window : Nat) (store : Eager Nat) : HeatOp → Eager Nat
  | .touch idx _ => store.touch (fun val => min (val + 10000 / window) 10000) idx
  | .read _ _ => store

/-- The moving sum that the frequencies are documented to be: before an operation every block loses its value divided by the window, once
for each sample that has passed. -/
def eagerFrequencies (window : Nat) (store : Eager Nat) : List HeatOp → List Nat
  | [] => []
  | op :: rest =>
    let next := eagerPerform window (store.advance (fun val => val - val / window) op.sample) op
    next.values[op.idx]?.getD 0 :: eagerFrequencies window next rest

/-- The sample of the last touch of each block, after an operation. -/
def lastAfter (last : Nat → Option Nat) : HeatOp → Nat → Option Nat
  | .touch idx sample => Function.update last idx (some sample)
  | .read _ _ => last

/-- Every touch or read of a block that has been touched comes fewer than `window` samples after its last touch. -/
def Recent (window numBlocks : Nat) (last : Nat → Option Nat) : List HeatOp → Prop
  | [] => True
  | op :: rest => (op.idx < numBlocks → ∀ stamp, last op.idx = some stamp → op.sample < stamp + window) ∧
    Recent window numBlocks (lastAfter last op) rest

namespace FreqAux

variable {window idx : Nat} {b : FreqBlock}

/-- With a rate of one, a round takes the quotient by the window. -/
theorem fade_one (hpos : 1 ≤ window) : fade window 1 = fun val => val - val / window := by
  funext val
  rw [fade, Nat.mul_one, Nat.mul_one, Nat.div_eq_of_lt (Nat.mod_lt val hpos), Nat.add_zero]

/-- A round leaves something, unless the window is one. -/
theorem iterate_fade_pos (hwindow : 2 ≤ window) {val : Nat} (hval : 0 < val) (n : Nat) : 0 < (fade window 1)^[n] val := by
  induction n with
  | zero => exact hval
  | succ n ih =>
    have hquotient := Nat.div_lt_self ih hwindow
    have hround : ∀ val, fade window 1 val = val - val / window := congrFun (fade_one (by omega))
    rw [iterate_succ_apply', hround]
    omega

theorem iterate_fade_window_one {n : Nat} (hn : n ≠ 0) (val : Nat) : (fade 1 1)^[n] val = 0 := by
  obtain ⟨m, rfl⟩ := Nat.exists_eq_succ_of_ne_zero hn
  rw [iterate_succ_apply]
  have hzero : fade 1 1 val = 0 := by simp [fade]
  rw [hzero, iterate_fade_zero]

/-- Short of the way out, the decay is that of the moving sum. -/
theorem left_eq_iterate {freqBp elapsed : Nat} (h : elapsed < window ∨ window = 1 ∨ freqBp = 0) (hpos : 1 ≤ window) :
    left window 1 freqBp elapsed = (fade window 1)^[elapsed] freqBp := by
  rw [left, Nat.mul_one]
  by_cases hzero : elapsed = 0
  · rw [if_pos (Or.inl hzero), hzero, iterate_zero_apply]
  · rw [if_neg (by omega)]
    by_cases hlong : window ≤ elapsed
    · rw [if_pos hlong]
      rcases h with h | rfl | rfl
      · omega
      · rw [iterate_fade_window_one hzero]
      · rw [iterate_fade_zero]
    · rw [if_neg hlong]

/-- On the way out, it is less. -/
theorem left_of_long {freqBp elapsed : Nat} (h : ¬(elapsed < window ∨ window = 1 ∨ freqBp = 0)) (hpos : 1 ≤ window) :
    left window 1 freqBp elapsed = 0 ∧ 0 < (fade window 1)^[elapsed] freqBp := by
  refine ⟨?_, iterate_fade_pos (by omega) (by omega) elapsed⟩
  rw [left, Nat.mul_one, if_neg (by omega), if_pos (by omega)]

/-- The block as a cell of the lazy store. -/
def cell (b : FreqBlock) : Cell Nat := ⟨b.freqBp, b.lastSample⟩

/-- The map with the moving sum and the samples of the last touches. -/
structure Tracks (map : FreqMap) (store : Eager Nat) (last : Nat → Option Nat) : Prop where
  fit : AllFit map
  pos : 1 ≤ map.window
  rate : map.decayRate = 1
  follows : Follows (fade map.window 1) (map.blocks.map cell) store
  untouched : ∀ idx b, map.blocks[idx]? = some b → last idx = none → b.freqBp = 0
  touched : ∀ idx b stamp, map.blocks[idx]? = some b → last idx = some stamp →
    b.lastSample = stamp ∧ (map.window ≤ 10000 → 0 < b.freqBp)

variable {map : FreqMap} {store : Eager Nat} {last : Nat → Option Nat}

theorem Tracks.advance (h : Tracks map store last) (sample : Nat) : Tracks map (store.advance (fade map.window 1) sample) last :=
  { h with follows := h.follows.advance sample }

/-- The way out is not taken for the block, or makes no difference. -/
def Exact (map : FreqMap) (sample : Nat) (b : FreqBlock) : Prop :=
  sample - b.lastSample < map.window ∨ map.window = 1 ∨ b.freqBp = 0

/-- In terms of the last touches. -/
theorem Tracks.exact_iff (h : Tracks map store last) (hidx : map.blocks[idx]? = some b) (sample : Nat) :
    Exact map sample b ↔ map.window = 1 ∨ 10000 < map.window ∨ ∀ stamp, last idx = some stamp → sample < stamp + map.window := by
  have hpos := h.pos
  have hlarge : 10000 < map.window → b.freqBp = 0 := fun hlarge =>
    (h.fit.blocks b (mem_of_getElem? hidx)).2 (Nat.div_eq_of_lt hlarge)
  cases hlast : last idx with
  | none =>
    have hzero := h.untouched idx b hidx hlast
    exact ⟨fun _ => Or.inr (Or.inr nofun), fun _ => Or.inr (Or.inr hzero)⟩
  | some stamp =>
    obtain ⟨rfl, hfreq⟩ := h.touched idx b stamp hidx hlast
    simp only [some.injEq, forall_eq', Exact]
    constructor
    · rintro (hshort | hone | hzero)
      · exact Or.inr (Or.inr (by omega))
      · exact Or.inl hone
      · exact Or.inr (Or.inl (by by_contra hle; have := hfreq (by omega); omega))
    · rintro (hone | hlarger | hshort)
      · exact Or.inr (Or.inl hone)
      · exact Or.inr (Or.inr (hlarge hlarger))
      · exact Or.inl (by omega)

theorem Tracks.valueAt (h : Tracks map store last) (hidx : map.blocks[idx]? = some b) :
    store.values[idx]?.getD 0 = (fade map.window 1)^[store.now - b.lastSample] b.freqBp := by
  rw [h.follows.getElem?, getElem?_map, hidx]
  rfl

theorem Tracks.values_none (h : Tracks map store last) (hidx : map.blocks[idx]? = none) : store.values[idx]?.getD 0 = 0 := by
  rw [h.follows.getElem?, getElem?_map, hidx]
  rfl

/-- Where the way out makes no difference, the frequency is the moving sum. -/
theorem Tracks.frequency (h : Tracks map store last) (hexact : ∀ b, map.blocks[idx]? = some b → Exact map store.now b) :
    map.frequency idx store.now = some (store.values[idx]?.getD 0) := by
  rw [frequency_eq h.fit]
  cases hidx : map.blocks[idx]? with
  | none => rw [h.values_none hidx]
  | some b => rw [h.valueAt hidx, ← left_eq_iterate (hexact b hidx) h.pos, h.rate]

/-- A touch of a block for which the way out makes no difference. -/
theorem Tracks.touch (h : Tracks map store last) (hidx : map.blocks[idx]? = some b) (hexact : Exact map store.now b) :
    Tracks { map with blocks := map.blocks.set idx (FreqAux.touched map b store.now) }
      (store.touch (fun val => min (val + 10000 / map.window) 10000) idx) (update last idx (some store.now)) := by
  have hlt : idx < map.blocks.length := (List.getElem?_eq_some_iff.mp hidx).1
  have hfit := h.fit.blocks b (mem_of_getElem? hidx)
  have hcell : (map.blocks.map cell)[idx]? = some (cell b) := by rw [getElem?_map, hidx]; rfl
  have hvalue : (cell b).valueAt (fade map.window 1) store.now = left map.window map.decayRate b.freqBp (store.now - b.lastSample) := by
    rw [h.rate, left_eq_iterate hexact h.pos]
    rfl
  refine ⟨⟨h.fit.window, fun other hother => ?_⟩, h.pos, h.rate, ?_, ?_, ?_⟩
  · rcases mem_or_eq_of_mem_set hother with hmem | rfl
    · exact h.fit.blocks other hmem
    · exact fits_touched hfit store.now
  · have htouched := h.follows.touch (fun val => min (val + 10000 / map.window) 10000) hcell
    rw [hvalue] at htouched
    rw [map_set]
    exact htouched
  · intro other b' hother hlast
    have hne : other ≠ idx := by
      rintro rfl
      rw [update_self] at hlast
      exact some_ne_none _ hlast
    rw [getElem?_set_ne hne.symm] at hother
    rw [update_of_ne hne] at hlast
    exact h.untouched other b' hother hlast
  · intro other b' stamp hother hlast
    by_cases hne : other = idx
    · subst hne
      rw [getElem?_set_self hlt] at hother
      rw [update_self] at hlast
      obtain rfl := some.inj hother
      refine ⟨some.inj hlast, fun hwindow => ?_⟩
      have hadd : 0 < 10000 / map.window := Nat.div_pos hwindow h.pos
      dsimp only [FreqAux.touched]
      omega
    · rw [getElem?_set_ne (Ne.symm hne)] at hother
      rw [update_of_ne hne] at hlast
      exact h.touched other b' stamp hother hlast

/-- A touch of a block that is not there. -/
theorem Tracks.touch_none (h : Tracks map store last) (hidx : map.blocks[idx]? = none) (stamp : Nat) :
    Tracks map (store.touch (fun val => min (val + 10000 / map.window) 10000) idx) (Function.update last idx (some stamp)) := by
  have hne : ∀ other b, map.blocks[other]? = some b → other ≠ idx := by
    rintro other b hother rfl
    rw [hidx] at hother
    exact some_ne_none _ hother.symm
  refine ⟨h.fit, h.pos, h.rate, h.follows.touch_none _ (by rw [getElem?_map, hidx]; rfl), ?_, ?_⟩
  · intro other b hother hlast
    rw [update_of_ne (hne other b hother)] at hlast
    exact h.untouched other b hother hlast
  · intro other b stamp' hother hlast
    rw [update_of_ne (hne other b hother)] at hlast
    exact h.touched other b stamp' hother hlast

/-- An operation for which the way out makes no difference. -/
theorem Tracks.perform (h : Tracks map store last) {op : HeatOp} (hnow : store.now = op.sample)
    (hexact : ∀ b, map.blocks[op.idx]? = some b → Exact map op.sample b) :
    ∃ next, map.perform op = some next ∧ next.window = map.window ∧ next.blocks.length = map.blocks.length ∧
      Tracks next (eagerPerform map.window store op) (lastAfter last op) ∧
      next.frequency op.idx op.sample = some ((eagerPerform map.window store op).values[op.idx]?.getD 0) := by
  rw [← hnow] at hexact ⊢
  cases op with
  | read idx sample => exact ⟨map, rfl, rfl, rfl, h, h.frequency hexact⟩
  | touch idx sample =>
    obtain rfl : store.now = sample := hnow
    have htouch := touch_eq h.fit h.pos idx store.now
    cases hidx : map.blocks[idx]? with
    | none =>
      rw [hidx] at htouch
      have hnext := h.touch_none hidx store.now
      exact ⟨map, htouch, rfl, rfl, hnext, hnext.frequency hexact⟩
    | some b =>
      rw [hidx] at htouch
      have hnext := h.touch hidx (hexact b hidx)
      refine ⟨_, htouch, rfl, List.length_set .., hnext, hnext.frequency ?_⟩
      -- the block has just been touched
      intro touchedBlock hblock
      have hlt : idx < map.blocks.length := (List.getElem?_eq_some_iff.mp hidx).1
      rw [HeatOp.idx, List.getElem?_set_self hlt] at hblock
      obtain rfl := Option.some.inj hblock
      have hzero : (store.touch (fun val => min (val + 10000 / map.window) 10000) idx).now - (FreqAux.touched map b store.now).lastSample = 0 :=
        Nat.sub_self store.now
      exact Or.inl (by rw [hzero]; exact h.pos)

/-- An operation for which the way out makes a difference. -/
theorem Tracks.perform_inexact (h : Tracks map store last) {op : HeatOp} (hnow : store.now = op.sample)
    (hidx : map.blocks[op.idx]? = some b) (hinexact : ¬Exact map op.sample b) :
    ∃ next frequency, map.perform op = some next ∧ next.frequency op.idx op.sample = some frequency ∧
      frequency ≠ (eagerPerform map.window store op).values[op.idx]?.getD 0 := by
  obtain ⟨hgone, hleft⟩ := left_of_long hinexact h.pos
  have hvalue := h.valueAt hidx
  rw [← hnow] at hgone hleft ⊢
  cases op with
  | read idx sample =>
    refine ⟨map, 0, rfl, ?_, ?_⟩
    · rw [frequency_eq h.fit, hidx, h.rate]
      exact congrArg some hgone
    · rw [eagerPerform, hvalue]
      exact hleft.ne
  | touch idx sample =>
    obtain rfl : store.now = sample := hnow
    have hlt : idx < map.blocks.length := (List.getElem?_eq_some_iff.mp hidx).1
    have htouch := touch_eq h.fit h.pos idx store.now
    rw [show map.blocks[idx]? = some b from hidx] at htouch
    obtain ⟨next, hnext, hnextFit, _, _⟩ := h.fit.touch h.pos idx store.now
    obtain rfl := Option.some.inj (htouch.symm.trans hnext)
    refine ⟨_, _, htouch, frequency_eq hnextFit _ _, ?_⟩
    have hwindow : 2 ≤ map.window := by
      have hpos := h.pos
      unfold Exact at hinexact
      omega
    have hadd : 10000 / map.window ≤ 5000 := Nat.div_le_div_left hwindow (by decide)
    have hcell : store.values[idx]? = some ((fade map.window 1)^[store.now - b.lastSample] b.freqBp) := by
      rw [h.follows.getElem?, List.getElem?_map, show map.blocks[idx]? = some b from hidx]
      rfl
    simp only [HeatOp.idx, List.getElem?_set_self hlt, eagerPerform, Eager.touch, List.getElem?_modify_eq, hcell, FreqAux.touched,
      h.rate, hgone, Nat.sub_self, left_zero, Option.map_eq_map, Option.map_some, Option.getD_some]
    have hless : min (0 + 10000 / map.window) 10000 <
        min ((fade map.window 1)^[store.now - b.lastSample] b.freqBp + 10000 / map.window) 10000 :=
      lt_min ((min_le_left _ _).trans_lt (by omega)) ((min_le_left _ _).trans_lt (by omega))
    exact hless.ne

theorem frequencies_iff (ops : List HeatOp) (h : Tracks map store last) (hlater : ∀ op ∈ ops, store.now ≤ op.sample)
    (hsorted : ops.Pairwise fun a b => a.sample ≤ b.sample) :
    map.frequencies ops = some (eagerFrequencies map.window store ops) ↔
      map.window = 1 ∨ 10000 < map.window ∨ Recent map.window map.blocks.length last ops := by
  induction ops generalizing map store last with
  | nil => exact ⟨fun _ => Or.inr (Or.inr trivial), fun _ => rfl⟩
  | cons op rest ih =>
    obtain ⟨hfirst, hrestSorted⟩ := List.pairwise_cons.mp hsorted
    have hnow : (store.advance (fade map.window 1) op.sample).now = op.sample := now_advance (hlater op List.mem_cons_self)
    have hcurrent := h.advance op.sample
    rw [FreqMap.frequencies, eagerFrequencies, ← fade_one h.pos]
    by_cases hexact : ∀ b, map.blocks[op.idx]? = some b → Exact map op.sample b
    · obtain ⟨next, hperform, hwindow, hlength, hnext, hfrequency⟩ := hcurrent.perform hnow hexact
      have hnextNow : (eagerPerform map.window (store.advance (fade map.window 1) op.sample) op).now = op.sample := by
        cases op <;> exact hnow
      have hrest := ih hnext (fun other hother => hnextNow.le.trans (hfirst other hother)) hrestSorted
      rw [hwindow, hlength] at hrest
      have hheads : map.window = 1 ∨ 10000 < map.window ∨
          (op.idx < map.blocks.length → ∀ stamp, last op.idx = some stamp → op.sample < stamp + map.window) := by
        by_cases hlt : op.idx < map.blocks.length
        · have hblock := List.getElem?_eq_getElem hlt
          exact ((hcurrent.exact_iff hblock op.sample).mp (hexact _ hblock)).imp id (Or.imp id fun hstamp _ => hstamp)
        · exact Or.inr (Or.inr fun hlt' => absurd hlt' hlt)
      simp only [hperform, hfrequency, Option.bind_eq_bind, Option.bind_some, Recent]
      have hcons : ((next.frequencies rest).bind fun later =>
            some ((eagerPerform map.window (store.advance (fade map.window 1) op.sample) op).values[op.idx]?.getD 0 :: later)) =
          some ((eagerPerform map.window (store.advance (fade map.window 1) op.sample) op).values[op.idx]?.getD 0 ::
            eagerFrequencies map.window (eagerPerform map.window (store.advance (fade map.window 1) op.sample) op) rest) ↔
          next.frequencies rest =
            some (eagerFrequencies map.window (eagerPerform map.window (store.advance (fade map.window 1) op.sample) op) rest) := by
        cases next.frequencies rest <;> simp
      rw [hcons, hrest]
      tauto
    · obtain ⟨b, hidx, hinexact⟩ : ∃ b, map.blocks[op.idx]? = some b ∧ ¬Exact map op.sample b := by
        by_contra hnone
        exact hexact fun b hb => by_contra fun hnot => hnone ⟨b, hb, hnot⟩
      obtain ⟨next, frequency, hperform, hfrequency, hne⟩ := hcurrent.perform_inexact hnow hidx hinexact
      have hlt : op.idx < map.blocks.length := (List.getElem?_eq_some_iff.mp hidx).1
      have hcondition := mt (hcurrent.exact_iff hidx op.sample).mpr hinexact
      refine iff_of_false ?_ ?_
      · simp only [hperform, hfrequency, Option.bind_eq_bind, Option.bind_some]
        cases next.frequencies rest with
        | none => simp
        | some later =>
          intro heq
          exact hne (List.cons.inj (Option.some.inj heq)).1
      · rintro (hone | hlarge | hrecent)
        · exact hcondition (Or.inl hone)
        · exact hcondition (Or.inr (Or.inl hlarge))
        · exact hcondition (Or.inr (Or.inr (hrecent.1 hlt)))

end FreqAux

end EbpfSyscall.Heatmap
