import EbpfSyscall.Kvio.Executor

/-!
# Real mode

`_run_real` of `tools/kvio/intent_exec.py`: worker threads that take operations off the pending queue under one lock, perform them
outside of it and finish them under it again. A step is what one thread does between two points at which others can come in between;
performing an operation may have any outcome, since an exception becomes one. The clock is read as often as the source reads it, and
no reading is smaller than the one before.
-/

namespace EbpfSyscall.Kvio

open Checked Queue

/-- Where a worker thread is. -/
inductive Worker where
  /-- In the loop under the lock, or waiting for the lock. -/
  | idle
  /-- An operation has been taken off the queue, with its eligible time. -/
  | taken (opId : Text) (eligible : Int)
  /-- The row has its submit time, and `_perform` is next. -/
  | submitted (opId : Text)
  | performed (opId : Text) (outcome : Outcome)
  /-- The row has its completion, and the lock is next. -/
  | completed (opId : Text)
  | exited
  deriving DecidableEq, Repr

/-- The operation that a thread works on. -/
def Worker.opId? : Worker → Option Text
  | .idle => none
  | .taken opId _ => some opId
  | .submitted opId => some opId
  | .performed opId _ => some opId
  | .completed opId => some opId
  | .exited => none

structure RealRun (n : Nat) where
  board : Board
  /-- `running[0]` and `finished[0]`. -/
  running : Nat
  finished : Nat
  /-- The reading of the clock at the start, and the last one. -/
  t0 : Int
  clock : Int
  workers : Fin n → Worker
  /-- The operations that were taken, performed and finished, in order. The source keeps no such lists. -/
  takenIds : List Text
  performedIds : List Text
  finishedIds : List Text

namespace RealRun

variable {n : Nat}

/-- A thread goes on to its next point. -/
def goTo (s : RealRun n) (w : Fin n) (worker : Worker) : RealRun n := { s with workers := Function.update s.workers w worker }

/-- A row gets new times. -/
def setRow (s : RealRun n) (opId : Text) (row : Row) : RealRun n :=
  { s with board := { s.board with rows := Function.update s.board.rows opId row } }

/-- The clock is read. -/
def read (s : RealRun n) (clock : Int) : RealRun n := { s with clock }

/-- The first pending operation is taken off the queue. -/
def pop (s : RealRun n) (entry : Entry Text) (rest : List (Entry Text)) : RealRun n :=
  { s with board := { s.board with pending := rest }, running := s.running + 1, takenIds := s.takenIds ++ [entry.item] }

/-- An operation is counted as finished, and its dependents have been woken. -/
def finish (s : RealRun n) (opId : Text) (board : Board) : RealRun n :=
  { s with board, running := s.running - 1, finished := s.finished + 1, finishedIds := s.finishedIds ++ [opId] }

end RealRun

/-- What a thread does in one step. -/
inductive Action where
  | take
  | wait
  | exit
  | submit
  | perform
  | complete
  | finish
  deriving DecidableEq, Repr

/-- The test under the lock: the first pending operation is eligible and a worker is free. -/
def Executor.CanTake {σ : Type} (ex : Executor σ) {n : Nat} (s : RealRun n) (clock : Int) : Prop :=
  ∃ entry ∈ s.board.pending.head?, entry.time ≤ clock - s.t0 ∧ s.running < ex.workers

/-- One step of one thread of `worker()`. -/
inductive RealStep {σ : Type} (ex : Executor σ) {n : Nat} (w : Fin n) : Action → RealRun n → RealRun n → Prop where
  | take {s : RealRun n} {clock : Int} {entry : Entry Text} {rest : List (Entry Text)} (hworker : s.workers w = .idle)
      (hleft : s.finished < ex.order.length) (hclock : s.clock ≤ clock) (hpending : s.board.pending = entry :: rest)
      (htime : entry.time ≤ clock - s.t0) (hfree : s.running < ex.workers) :
      RealStep ex w .take s (((s.read clock).pop entry rest).goTo w (.taken entry.item entry.time))
  | wait {s : RealRun n} {clock : Int} (hworker : s.workers w = .idle) (hleft : s.finished < ex.order.length)
      (hclock : s.clock ≤ clock) (hblocked : ¬ex.CanTake s clock) : RealStep ex w .wait s (s.read clock)
  | exit {s : RealRun n} (hworker : s.workers w = .idle) (hall : ex.order.length ≤ s.finished) :
      RealStep ex w .exit s (s.goTo w .exited)
  | submit {s : RealRun n} {clock : Int} {opId : Text} {eligible : Int} (hworker : s.workers w = .taken opId eligible)
      (hclock : s.clock ≤ clock) :
      RealStep ex w .submit s (((s.read clock).setRow opId
        { s.board.rows opId with eligibleNs := some eligible, submitNs := some (clock - s.t0) }).goTo w (.submitted opId))
  | perform {s : RealRun n} {opId : Text} (hworker : s.workers w = .submitted opId) (outcome : Outcome) :
      RealStep ex w .perform s ({ s with performedIds := s.performedIds ++ [opId] }.goTo w (.performed opId outcome))
  | complete {s : RealRun n} {clock : Int} {opId : Text} {outcome : Outcome} (hworker : s.workers w = .performed opId outcome)
      (hclock : s.clock ≤ clock) :
      RealStep ex w .complete s (((s.read clock).setRow opId
        { s.board.rows opId with completeNs := some (clock - s.t0), outcome := some outcome }).goTo w (.completed opId))
  | finish {s : RealRun n} {opId : Text} {board : Board} (hworker : s.workers w = .completed opId)
      (hwake : ex.wake (ex.dependents opId) s.board = .ok board) :
      RealStep ex w .finish s ((s.finish opId board).goTo w .idle)

/-- The state when the threads are started; `t0` is the reading of the clock before. -/
def Executor.startReal {σ : Type} (ex : Executor σ) (t0 : Int) : Except PyError (RealRun ex.workers) := do
  let board ← ex.offerAll ex.order ex.prepared
  pure { board, running := 0, finished := 0, t0, clock := t0, workers := fun _ => .idle, takenIds := [], performedIds := [],
         finishedIds := [] }

/-- A state that some interleaving of the threads leads to. -/
def Executor.ReachesReal {σ : Type} (ex : Executor σ) {n : Nat} (first s : RealRun n) : Prop :=
  Relation.ReflTransGen (fun s t => ∃ w action, RealStep ex w action s t) first s

/-! ## Where an operation is -/

inductive Place where
  | waiting
  | pending
  | running
  | finished
  deriving DecidableEq, Repr

/-- The place of an operation: its counter is not zero, it is on the queue, a thread has it, or it has been finished. -/
def RealRun.At {n : Nat} (s : RealRun n) (opId : Text) : Place → Prop
  | .waiting => 0 < s.board.remainingDeps opId
  | .pending => opId ∈ items s.board.pending
  | .running => ∃ w, (s.workers w).opId? = some opId
  | .finished => opId ∈ s.finishedIds

end EbpfSyscall.Kvio
