import EbpfSyscall.Lib.Assoc
import EbpfSyscall.Lib.Sorting

/-!
# Lanes and durations

Two helpers of `examples/lmcache/kvio2perfetto.py`: `assign_lanes`, which puts the spans of a track on lanes, and `pair_completions`, which finds
the duration of a command among the completions of its device. Times are of any linear order with a difference, as the code asks no more of them.
-/

namespace EbpfSyscall.Perfetto

variable {τ ι : Type} [LinearOrder τ]

/-! ## `assign_lanes` -/

/-- `(begin, end, item)`. -/
structure Span (τ ι : Type) where
  beginTs : τ
  endTs : τ
  item : ι
  deriving DecidableEq, Repr

/-- `sorted(spans, key=lambda s: (s[0], s[1]))`. -/
def sortedSpans (spans : List (Span τ ι)) : List (Span τ ι) :=
  Sorting.sortBy (fun span => toLex (span.beginTs, span.endTs)) spans

/-- `lane_free` and `out`. -/
structure LaneState (τ ι : Type) where
  laneFree : List τ
  out : List (Nat × ι)

/-- One span: it goes on the first lane that is free before it begins, or on a new one. -/
def laneStep (s : LaneState τ ι) (span : Span τ ι) : LaneState τ ι :=
  match s.laneFree.findIdx? fun freeAt => freeAt < span.beginTs with
  | some i => ⟨s.laneFree.set i span.endTs, s.out ++ [(i, span.item)]⟩
  | none => ⟨s.laneFree ++ [span.endTs], s.out ++ [(s.laneFree.length, span.item)]⟩

/-- `assign_lanes`. -/
def assignLanes (spans : List (Span τ ι)) : List (Nat × ι) × Nat :=
  let s := (sortedSpans spans).foldl laneStep ⟨[], []⟩
  (s.out, s.laneFree.length)

/-! ## `pair_completions` -/

/-- `sorted(range(len(cmds_ts)), key=lambda i: cmds_ts[i])`, every index with its time. -/
def sortedCmds (cmdsTs : List τ) : List (τ × Nat) := Sorting.sortBy Prod.fst cmdsTs.zipIdx

/-- `sorted(cmps_ts)`. -/
def sortedCmps (cmpsTs : List τ) : List τ := Sorting.sortBy id cmpsTs

/-- The `while` loop: the commands up to a time go from `cmd_ix` to the stack `unpaired`, whose top comes first. -/
def pushReady (cts : τ) : List (τ × Nat) → List (τ × Nat) → List (τ × Nat) × List (τ × Nat)
  | [], unpaired => ([], unpaired)
  | cmd :: later, unpaired => if cmd.1 ≤ cts then pushReady cts later (cmd :: unpaired) else (cmd :: later, unpaired)

/-- The rest of `cmd_ix`, `unpaired` and `out`. -/
structure PairState (τ : Type) where
  later : List (τ × Nat)
  unpaired : List (τ × Nat)
  out : Assoc Nat τ

/-- One completion: it goes to the command on top of the stack. -/
def pairStep [Sub τ] (s : PairState τ) (cts : τ) : PairState τ :=
  match pushReady cts s.later s.unpaired with
  | (later, []) => ⟨later, [], s.out⟩
  | (later, cmd :: unpaired) => ⟨later, unpaired, s.out.set cmd.2 (cts - cmd.1)⟩

/-- `pair_completions`. -/
def pairCompletions [Sub τ] (cmdsTs cmpsTs : List τ) : Assoc Nat τ :=
  ((sortedCmps cmpsTs).foldl pairStep ⟨sortedCmds cmdsTs, [], .empty⟩).out

end EbpfSyscall.Perfetto
