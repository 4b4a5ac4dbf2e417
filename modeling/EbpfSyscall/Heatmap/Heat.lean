import Mathlib

/-!
# The heat sources of mmap-heatmap

`HeatMap` and `FreqMap` keep a value for each block with the sample at which it was last touched, and compute at a touch or when a block is
shown how much of the value is left. Operations on `i32` and `u32` that may overflow return `none` when they do; the saturating ones
are written as such. Sample numbers are natural numbers, so `saturating_sub` on them is the subtraction.
-/

namespace EbpfSyscall.Heatmap

/-- `MAX_HEAT`. -/
def maxHeat : Int := 9

/-- `i32::MIN`. -/
def i32Min : Int := -2147483648

/-- `i32::MAX`. -/
def i32Max : Int := 2147483647

/-- The result of an operation on `i32`, if it does not overflow. -/
def i32 (x : Int) : Option Int := if i32Min ≤ x ∧ x ≤ i32Max then some x else none

/-- The result of a saturating operation on `i32`. -/
def saturatingI32 (x : Int) : Int := max i32Min (min i32Max x)

/-- The result of an operation on `u32`, if it does not overflow. -/
def u32 (x : Nat) : Option Nat := if x < 2 ^ 32 then some x else none

/-! ## What both sources do with `get` -/

/-- The loop of `max_range`, which ends at a block that has `MAX_HEAT`. -/
def maxRangeLoop (get : Nat → Option Int) : List Nat → Int → Option Int
  | [], maxH => some maxH
  | idx :: rest, maxH => do
    let h ← get idx
    if maxH < h then
      if h = maxHeat then some h else maxRangeLoop get rest h
    else maxRangeLoop get rest maxH

/-- `max_range` over a source with so many blocks. -/
def maxRange (get : Nat → Option Int) (numBlocks start stop : Nat) : Option Int :=
  maxRangeLoop get (List.range' start (min stop numBlocks - start)) 0

/-- A touch, or a look at the value of a block. -/
inductive HeatOp where
  | touch (idx sample : Nat)
  | read (idx sample : Nat)
  deriving DecidableEq, Repr

def HeatOp.idx : HeatOp → Nat
  | .touch idx _ | .read idx _ => idx

def HeatOp.sample : HeatOp → Nat
  | .touch _ sample | .read _ sample => sample

/-! ## Heat -/

/-- `Block`. -/
structure Block where
  heat : Int
  lastTouched : Nat
  deriving DecidableEq, Repr

/-- `HeatMap`. -/
structure HeatMap where
  blocks : List Block
  decayRate : Int
  heatInc : Int
  maxRaw : Int
  deriving DecidableEq, Repr

/-- `saturate_elapsed`. -/
def saturateElapsed (elapsed : Nat) : Int := min (elapsed : Int) i32Max

/-- `HeatMap::new`. -/
def HeatMap.new (numBlocks : Nat) (decayRate heatInc : Int) : HeatMap where
  blocks := List.replicate numBlocks ⟨0, 0⟩
  decayRate := max decayRate 0
  heatInc := max heatInc 1
  maxRaw := saturatingI32 (maxHeat * max heatInc 1)

/-- The stored heat of a block without what has decayed; below zero if more has decayed than there was. -/
def HeatMap.decayed (map : HeatMap) (b : Block) (sample : Nat) : Option Int :=
  i32 (b.heat - saturatingI32 (map.decayRate * saturateElapsed (sample - b.lastTouched)))

/-- `HeatMap::touch`. -/
def HeatMap.touch (map : HeatMap) (idx sample : Nat) : Option HeatMap :=
  match map.blocks[idx]? with
  | some b => do
    let left ← map.decayed b sample
    let heat ← i32 (max left 0 + 1)
    some { map with blocks := map.blocks.set idx ⟨min heat map.maxRaw, sample⟩ }
  | none => some map

/-- The raw heat of a block, as `get` computes it. -/
def HeatMap.raw (map : HeatMap) (idx sample : Nat) : Option Int :=
  match map.blocks[idx]? with
  | some b => (map.decayed b sample).map fun left => max left 0
  | none => some 0

/-- `HeatMap::get`. The raw heat is not below zero, so the division of `i32` is that of integers. -/
def HeatMap.get (map : HeatMap) (idx sample : Nat) : Option Int := do
  let raw ← map.raw idx sample
  some (min (raw / map.heatInc) maxHeat)

/-- `HeatMap::max_range`. -/
def HeatMap.maxRange (map : HeatMap) (start stop sample : Nat) : Option Int :=
  Heatmap.maxRange (fun idx => map.get idx sample) map.blocks.length start stop

/-- `HeatMap::count_hot`. -/
def HeatMap.countHot (map : HeatMap) (sample : Nat) : Option Nat := do
  let left ← map.blocks.mapM fun b => map.decayed b sample
  some (left.countP fun raw => 0 < raw)

/-- A touch changes the map, a look at a block does not. -/
def HeatMap.perform (map : HeatMap) : HeatOp → Option HeatMap
  | .touch idx sample => map.touch idx sample
  | .read _ _ => some map

/-- What the operations compute in turn: the raw heat of the block after the operation, and the digit that is shown for it. -/
def HeatMap.shown (map : HeatMap) : List HeatOp → Option (List (Int × Int))
  | [] => some []
  | op :: rest => do
    let next ← map.perform op
    let raw ← next.raw op.idx op.sample
    let digit ← next.get op.idx op.sample
    let later ← next.shown rest
    some ((raw, digit) :: later)

/-! ## Frequency -/

/-- `FreqBlock`. -/
structure FreqBlock where
  freqBp : Nat
  lastSample : Nat
  deriving DecidableEq, Repr

/-- `FreqMap`. -/
structure FreqMap where
  blocks : List FreqBlock
  window : Nat
  decayRate : Nat
  deriving DecidableEq, Repr

/-- `FreqMap::new`. -/
def FreqMap.new (numBlocks window decayRate : Nat) : FreqMap := ⟨List.replicate numBlocks ⟨0, 0⟩, window, decayRate⟩

/-- The loop of `decay`. -/
def decayLoop (window decayRate : Nat) : Nat → Nat → Option Nat
  | 0, val => some val
  | elapsed + 1, val => do
    let whole ← u32 (val / window * decayRate)
    let part ← u32 (val % window * decayRate)
    let step ← u32 (whole + part / window)
    if val ≤ step then some 0
    else if val - step = 0 then some 0
    else decayLoop window decayRate elapsed (val - step)

/-- `FreqMap::decay`. -/
def decay (freqBp elapsed window decayRate : Nat) : Option Nat :=
  if elapsed = 0 ∨ decayRate = 0 then some freqBp
  else if window ≤ min (elapsed * decayRate) (2 ^ 64 - 1) then some 0
  else decayLoop window decayRate elapsed freqBp

/-- `FreqMap::touch`. A window of zero is a division by zero. -/
def FreqMap.touch (map : FreqMap) (idx sample : Nat) : Option FreqMap :=
  match map.blocks[idx]? with
  | some b => do
    let left ← decay b.freqBp (sample - b.lastSample) map.window map.decayRate
    if map.window = 0 then none
    else
      let freqBp := min (left + 10000 / map.window) (2 ^ 32 - 1)
      some { map with blocks := map.blocks.set idx ⟨if 10000 < freqBp then 10000 else freqBp, sample⟩ }
  | none => some map

/-- The frequency of a block, as `get` computes it. -/
def FreqMap.frequency (map : FreqMap) (idx sample : Nat) : Option Nat :=
  match map.blocks[idx]? with
  | some b => decay b.freqBp (sample - b.lastSample) map.window map.decayRate
  | none => some 0

/-- The digit for a frequency. -/
def level (decayed : Nat) : Int := if decayed = 0 then 0 else min ((decayed * 8 / 10000 + 1 : Nat) : Int) maxHeat

/-- `FreqMap::get`. -/
def FreqMap.get (map : FreqMap) (idx sample : Nat) : Option Int := do
  let decayed ← map.frequency idx sample
  some (level decayed)

/-- `FreqMap::max_range`. -/
def FreqMap.maxRange (map : FreqMap) (start stop sample : Nat) : Option Int :=
  Heatmap.maxRange (fun idx => map.get idx sample) map.blocks.length start stop

/-- `FreqMap::count_hot`. -/
def FreqMap.countHot (map : FreqMap) (sample : Nat) : Option Nat := do
  let left ← map.blocks.mapM fun b => decay b.freqBp (sample - b.lastSample) map.window map.decayRate
  some (left.countP fun decayed => 0 < decayed)

/-- A touch changes the map, a look at a block does not. -/
def FreqMap.perform (map : FreqMap) : HeatOp → Option FreqMap
  | .touch idx sample => map.touch idx sample
  | .read _ _ => some map

/-- What the operations compute in turn: the frequency of the block after the operation. -/
def FreqMap.frequencies (map : FreqMap) : List HeatOp → Option (List Nat)
  | [] => some []
  | op :: rest => do
    let next ← map.perform op
    let frequency ← next.frequency op.idx op.sample
    let later ← next.frequencies rest
    some (frequency :: later)

end EbpfSyscall.Heatmap
