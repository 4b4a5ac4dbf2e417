import EbpfSyscall.Lib.Runs

/-!
# Pacing

With `--paced`, `dispatcher_thread` of `syscall_replayer.c` holds a record back until as much time has passed since the replay anchor as the
timestamp of the record lies after the start of the capture. The anchor is shared: the worker that comes first sets it.

Every access to what the workers share is one step. Time passes in steps of its own, so that any delay can come before a step; a call that
is slow and a wait at the write barrier are such delays. The worker of a record is the one that `worker_pool_get` finds. Times are in
nanoseconds and stay below `2 ^ 64`.
-/

namespace EbpfSyscall.Replayer

/-- A record: the worker that replays it, and `timestamp_ns`. -/
structure PacedRecord where
  worker : Nat
  timestampNs : Nat
  deriving DecidableEq, Repr

/-- A record that has been issued, and when. -/
structure PacedIssue where
  worker : Nat
  timestampNs : Nat
  atNs : Nat
  deriving DecidableEq, Repr

/-- Where a worker stands in the loop of `dispatcher_thread`, with the timestamp of the record it has taken. -/
inductive PaceStage where
  | idle
  /-- It reads `start_done` without the lock. -/
  | checking (timestampNs : Nat)
  | locking (timestampNs : Nat)
  /-- It reads `start_done` with the lock. -/
  | rechecking (timestampNs : Nat)
  | anchoring (timestampNs : Nat)
  | flagging (timestampNs : Nat)
  | unlocking (timestampNs : Nat)
  /-- It reads the clock and compares. -/
  | measuring (timestampNs : Nat)
  /-- It is in `nanosleep`, which does not end before the time. -/
  | sleeping (timestampNs wakeNs : Nat)
  | issuing (timestampNs : Nat)
  deriving DecidableEq, Repr

/-- The record that the worker has taken and not issued. -/
def PaceStage.taken : PaceStage → List Nat
  | .idle => []
  | .checking ts | .locking ts | .rechecking ts | .anchoring ts | .flagging ts | .unlocking ts | .measuring ts | .sleeping ts _
  | .issuing ts => [ts]

structure PaceState where
  clock : Nat
  /-- What the main thread has not read yet. -/
  trace : List PacedRecord
  queue : Nat → List Nat
  stage : Nat → PaceStage
  startLock : Option Nat
  startDone : Bool
  replayStartNs : Nat
  issued : List PacedIssue

inductive PaceEvent where
  /-- Time passes. -/
  | tick (ns : Nat)
  /-- The main thread puts the next record into the queue of its worker. -/
  | feed
  /-- The worker takes its next step. -/
  | work (worker : Nat)
  deriving DecidableEq, Repr

/-- The longest sleep. -/
def maxSleepNs : Nat := 1000000000

/-- `capture_elapsed_ns`. -/
def captureElapsedNs (captureStartNs timestampNs : Nat) : Nat :=
  if captureStartNs < timestampNs then timestampNs - captureStartNs else 0

namespace PaceState

def start (now : Nat) (trace : List PacedRecord) : PaceState := ⟨now, trace, fun _ => [], fun _ => .idle, none, false, 0, []⟩

variable (captureStartNs : Nat) (s : PaceState)

/-- The worker goes on to a stage. -/
def enter (worker : Nat) (stage : PaceStage) : PaceState := { s with stage := Function.update s.stage worker stage }

/-- Where the worker goes after it has compared the time since the anchor with that of the capture. -/
def compare (timestampNs : Nat) : PaceStage :=
  let captureElapsed := captureElapsedNs captureStartNs timestampNs
  let replayElapsed := s.clock - s.replayStartNs
  if replayElapsed < captureElapsed then .sleeping timestampNs (s.clock + min (captureElapsed - replayElapsed) maxSleepNs)
  else .issuing timestampNs

/-- The next step of a worker. -/
def work (worker : Nat) : Option PaceState :=
  match s.stage worker with
  | .idle =>
    match s.queue worker with
    | [] => none
    | ts :: rest => some ({ s with queue := Function.update s.queue worker rest }.enter worker (.checking ts))
  | .checking ts => some (s.enter worker (if s.startDone then .measuring ts else .locking ts))
  | .locking ts => if s.startLock = none then some ({ s with startLock := some worker }.enter worker (.rechecking ts)) else none
  | .rechecking ts => some (s.enter worker (if s.startDone then .unlocking ts else .anchoring ts))
  | .anchoring ts => some ({ s with replayStartNs := s.clock }.enter worker (.flagging ts))
  | .flagging ts => some ({ s with startDone := true }.enter worker (.unlocking ts))
  | .unlocking ts => some ({ s with startLock := none }.enter worker (.measuring ts))
  | .measuring ts => some (s.enter worker (s.compare captureStartNs ts))
  | .sleeping ts wakeNs => if wakeNs ≤ s.clock then some (s.enter worker (.issuing ts)) else none
  | .issuing ts => some ({ s with issued := s.issued ++ [PacedIssue.mk worker ts s.clock] }.enter worker .idle)

/-- The main thread puts a record into a queue. -/
def feed : Option PaceState :=
  match s.trace with
  | [] => none
  | record :: rest =>
    some { s with trace := rest, queue := Function.update s.queue record.worker (s.queue record.worker ++ [record.timestampNs]) }

def step : PaceEvent → Option PaceState
  | .tick ns => some { s with clock := s.clock + ns }
  | .feed => s.feed
  | .work worker => s.work captureStartNs worker

end PaceState

end EbpfSyscall.Replayer
