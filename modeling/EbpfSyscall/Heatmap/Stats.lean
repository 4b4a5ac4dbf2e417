import EbpfSyscall.Lib.Sorting

/-!
# The running statistics of mmap-heatmap

`RunningStats` keeps a history of values. A summary sorts the history in place, and a push onto a full history first drains the first half
of it. Sums of `u64` fail when they overflow, and a difference when it would be below zero.
-/

namespace EbpfSyscall.Heatmap

/-- How an operation on `u64` fails. -/
inductive ArithError where
  | overflow
  | underflow
  deriving DecidableEq, Repr

def addU64 (a b : Nat) : Except ArithError Nat := if a + b < 2 ^ 64 then .ok (a + b) else .error .overflow

def subU64 (a b : Nat) : Except ArithError Nat := if b ≤ a then .ok (a - b) else .error .underflow

/-- `iter().sum()`. -/
def sumU64 (values : List Nat) : Except ArithError Nat := values.foldlM addU64 0

/-- `MAX_ENTRIES`. -/
def maxEntries : Nat := 100000

/-- `RunningStats`. -/
structure RunningStats where
  values : List Nat
  cachedSum : Nat
  dirty : Bool
  deriving DecidableEq, Repr

/-- `StatsSummary`. -/
structure StatsSummary where
  min : Nat
  p50 : Nat
  p95 : Nat
  p99 : Nat
  max : Nat
  avg : Nat
  deriving DecidableEq, Repr

/-- `RunningStats::new`. -/
def RunningStats.new : RunningStats := ⟨[], 0, false⟩

/-- What a push does first when the history is full. -/
def RunningStats.compact (stats : RunningStats) : Except ArithError RunningStats :=
  if maxEntries ≤ stats.values.length then do
    let half := maxEntries / 2
    let drainedSum ← sumU64 (stats.values.take half)
    let cachedSum ← subU64 stats.cachedSum drainedSum
    pure { stats with cachedSum := cachedSum, values := stats.values.drop half }
  else pure stats

/-- `RunningStats::push`. -/
def RunningStats.push (stats : RunningStats) (value : Nat) : Except ArithError RunningStats := do
  let stats ← stats.compact
  let cachedSum ← addU64 stats.cachedSum value
  pure ⟨stats.values ++ [value], cachedSum, true⟩

/-- `percentile_idx`; `scaled n p` is the product `p / 100.0 * n` of `f64` as an integer. -/
def percentileIdx (scaled : Nat → Nat → Nat) (n p : Nat) : Nat := Min.min (scaled n p) (n - 1)

/-- What a summary does to the history. -/
def RunningStats.sorted (stats : RunningStats) : RunningStats :=
  if stats.values.length = 0 then stats
  else if stats.dirty then { stats with values := Sorting.sort stats.values, dirty := false }
  else stats

/-- `RunningStats::summary`. -/
def RunningStats.summary (scaled : Nat → Nat → Nat) (stats : RunningStats) : RunningStats × StatsSummary :=
  let n := stats.values.length
  let stats := stats.sorted
  let entry (i : Nat) : Nat := stats.values[i]?.getD 0
  if n = 0 then (stats, ⟨0, 0, 0, 0, 0, 0⟩)
  else (stats, ⟨entry 0, entry (percentileIdx scaled n 50), entry (percentileIdx scaled n 95), entry (percentileIdx scaled n 99), entry (n - 1),
    stats.cachedSum / n⟩)

/-- A call. -/
inductive StatsOp where
  | push (value : Nat)
  | summary
  deriving DecidableEq, Repr

def RunningStats.perform (scaled : Nat → Nat → Nat) (stats : RunningStats) : StatsOp → Except ArithError RunningStats
  | .push value => stats.push value
  | .summary => pure (stats.summary scaled).1

/-- The calls one after the other, from the start. -/
def RunningStats.run (scaled : Nat → Nat → Nat) (ops : List StatsOp) : Except ArithError RunningStats :=
  ops.foldlM (RunningStats.perform scaled) .new

end EbpfSyscall.Heatmap
