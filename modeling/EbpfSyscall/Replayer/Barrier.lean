import EbpfSyscall.Lib.Runs

/-!
# The flexible barrier

`flex_barrier` of `syscall_replayer.c`, and the threads that use it. A thread holds the lock from the start of `flex_barrier_wait` to
its end or to `pthread_cond_timedwait`, and again from the return of that call, so each of these stretches is one step. A wait may return
at any moment, with or without a timeout. The log says what happened, with the number of releases so far.
-/

namespace EbpfSyscall.Replayer

/-- `struct flex_barrier` without its lock and its condition. -/
structure FlexBarrier where
  nTotal : Int
  nActive : Int
  nWaiting : Int
  generation : UInt64
  deriving DecidableEq, Repr

/-- `flex_barrier_init`. -/
def FlexBarrier.init (n : Nat) : FlexBarrier := ⟨n, n, 0, 0⟩

/-- Everyone who waits is released. -/
def FlexBarrier.release (b : FlexBarrier) : FlexBarrier := { b with nWaiting := 0, generation := b.generation + 1 }

/-- A thread: not at the barrier, in the timed wait with the generation it read and the number of releases then, or unregistered. -/
inductive BarrierThread where
  | running
  | waiting (myGen : UInt64) (round : Nat)
  | gone
  deriving DecidableEq, Repr

/-- The thread has not unregistered. -/
def BarrierThread.isActive : BarrierThread → Bool
  | .gone => false
  | _ => true

/-- The thread waits in the generation. -/
def BarrierThread.waitsIn (generation : UInt64) : BarrierThread → Bool
  | .waiting myGen _ => myGen = generation
  | _ => false

/-- What happened; a round is the number of releases before it. -/
inductive BarrierEntry (n : Nat) where
  | arrived (thread : Fin n) (round : Nat)
  /-- A wait of the round came to its normal end. -/
  | left (thread : Fin n) (round : Nat)
  | timedOut (thread : Fin n) (round : Nat)
  | unregistered (thread : Fin n)
  deriving DecidableEq, Repr

/-- The barrier and its threads. -/
structure BarrierState (n : Nat) where
  barrier : FlexBarrier
  threads : Fin n → BarrierThread
  /-- The number of releases. -/
  round : Nat
  log : List (BarrierEntry n)

/-- What a thread does next. -/
inductive BarrierEvent (n : Nat) where
  | arrive (thread : Fin n)
  /-- The timed wait returns without a timeout. -/
  | wake (thread : Fin n)
  /-- The timed wait returns `ETIMEDOUT`. -/
  | timeout (thread : Fin n)
  | unregister (thread : Fin n)
  deriving DecidableEq, Repr

namespace BarrierState

variable {n : Nat}

def start (n : Nat) : BarrierState n := ⟨.init n, fun _ => .running, 0, []⟩

def release (s : BarrierState n) : BarrierState n := { s with barrier := s.barrier.release, round := s.round + 1 }

/-- `flex_barrier_wait` up to its end or the timed wait. -/
def arrive (s : BarrierState n) (thread : Fin n) : BarrierState n :=
  if s.barrier.nActive ≤ 1 then { s with log := s.log ++ [.arrived thread s.round] ++ [.left thread s.round] }
  else
    let s' : BarrierState n :=
      { s with barrier := { s.barrier with nWaiting := s.barrier.nWaiting + 1 }, log := s.log ++ [.arrived thread s.round] }
    if s'.barrier.nActive ≤ s'.barrier.nWaiting then { s'.release with log := s'.log ++ [.left thread s.round] }
    else { s' with threads := Function.update s.threads thread (.waiting s.barrier.generation s.round) }

/-- The timed wait returns without a timeout: the thread waits on unless the generation has changed. -/
def wake (s : BarrierState n) (thread : Fin n) (myGen : UInt64) (round : Nat) : BarrierState n :=
  if s.barrier.generation = myGen then s
  else { s with threads := Function.update s.threads thread .running, log := s.log ++ [.left thread round] }

/-- The timed wait returns with a timeout. -/
def timeout (s : BarrierState n) (thread : Fin n) (round : Nat) : BarrierState n :=
  { s with
    barrier := { s.barrier with nWaiting := s.barrier.nWaiting - 1 }
    threads := Function.update s.threads thread .running
    log := s.log ++ [.timedOut thread round] }

/-- `flex_barrier_unregister`. -/
def unregister (s : BarrierState n) (thread : Fin n) : BarrierState n :=
  let s' : BarrierState n :=
    { s with
      barrier := { s.barrier with nActive := s.barrier.nActive - 1 }
      threads := Function.update s.threads thread .gone
      log := s.log ++ [.unregistered thread] }
  if 0 < s'.barrier.nWaiting ∧ s'.barrier.nActive ≤ s'.barrier.nWaiting then s'.release else s'

def step (s : BarrierState n) : BarrierEvent n → Option (BarrierState n)
  | .arrive thread => if s.threads thread = .running then some (s.arrive thread) else none
  | .wake thread =>
    match s.threads thread with
    | .waiting myGen round => some (s.wake thread myGen round)
    | _ => none
  | .timeout thread =>
    match s.threads thread with
    | .waiting _ round => some (s.timeout thread round)
    | _ => none
  | .unregister thread => if s.threads thread = .running then some (s.unregister thread) else none

end BarrierState

end EbpfSyscall.Replayer
