import EbpfSyscall.Lib.Ring
import EbpfSyscall.Lib.Runs

/-!
# The worker pool of the replayer

`syscall_replayer.c` gives every captured process a worker with a ring buffer. The main thread reads the records of the trace, finds the
worker of the process or starts one, and puts the record into its ring; at the end it sets the shutdown flag of every ring and joins the
workers. A worker takes records out of its ring and replays them.

What a thread does while it holds the lock of a ring is one step. A thread that has to wait goes to sleep and is woken by the signal of
the other side, by the broadcast of the shutdown, or for no reason. The records are of any type, with their process.
-/

namespace EbpfSyscall.Replayer

/-! ## `struct ring_buf` -/

/-- `RING_BUF_SIZE`. -/
abbrev ringBufSize : UInt32 := 4096

structure RingBuf (ρ : Type) where
  entries : Fin 4096 → ρ
  head : UInt32
  tail : UInt32
  shutdown : Bool
  headLt : head < ringBufSize
  tailLt : tail < ringBufSize

namespace RingBuf

variable {ρ : Type}

/-- The next index. -/
def next (i : UInt32) : UInt32 := (i + 1) % ringBufSize

theorem next_lt (i : UInt32) : next i < ringBufSize := by
  rw [next, UInt32.lt_iff_toNat_lt, UInt32.toNat_mod]
  exact Nat.mod_lt _ (by decide)

theorem toNat_lt {i : UInt32} (h : i < ringBufSize) : i.toNat < 4096 := UInt32.lt_iff_toNat_lt.mp h

/-- `ring_buf_init`. -/
def init [Inhabited ρ] : RingBuf ρ := ⟨fun _ => default, 0, 0, false, by decide, by decide⟩

/-- `ring_buf_count`. -/
def count (rb : RingBuf ρ) : UInt32 := (rb.head - rb.tail) % ringBufSize

/-- `ring_buf_shutdown`, without the broadcast. -/
def close (rb : RingBuf ρ) : RingBuf ρ := { rb with shutdown := true }

/-- What `ring_buf_enqueue` does when it has the lock. -/
inductive Enqueue (ρ : Type) where
  | wait
  | refused
  | stored (rb : RingBuf ρ)

def enqueue (rb : RingBuf ρ) (opt : ρ) : Enqueue ρ :=
  if next rb.head = rb.tail ∧ rb.shutdown = false then .wait
  else if rb.shutdown = true then .refused
  else
    .stored { rb with
      entries := Function.update rb.entries ⟨rb.head.toNat, toNat_lt rb.headLt⟩ opt
      head := next rb.head
      headLt := next_lt rb.head }

/-- What `ring_buf_dequeue` does when it has the lock. -/
inductive Dequeue (ρ : Type) where
  | wait
  | closed
  | taken (opt : ρ) (rb : RingBuf ρ)

def dequeue (rb : RingBuf ρ) : Dequeue ρ :=
  if rb.head = rb.tail ∧ rb.shutdown = false then .wait
  else if rb.head = rb.tail then .closed
  else .taken (rb.entries ⟨rb.tail.toNat, toNat_lt rb.tailLt⟩) { rb with tail := next rb.tail, tailLt := next_lt rb.tail }

/-- The ring as a circular buffer. -/
def buffer (rb : RingBuf ρ) : Ring.Buffer 4096 ρ :=
  ⟨rb.entries, ⟨rb.head.toNat, toNat_lt rb.headLt⟩, ⟨rb.tail.toNat, toNat_lt rb.tailLt⟩⟩

/-- The records between `tail` and `head`. -/
def contents (rb : RingBuf ρ) : List ρ := rb.buffer.contents

end RingBuf

/-! ## The pool -/

/-- `MAX_WORKERS`. -/
abbrev maxWorkers : Nat := 256

/-- Where a worker stands in `dispatcher_thread`. -/
inductive WorkerStage where
  /-- It calls `ring_buf_dequeue`, or has been woken in it. -/
  | running
  /-- It sleeps in `ring_buf_dequeue`. -/
  | sleeping
  /-- `ring_buf_dequeue` has returned -1. -/
  | closing
  | exited
  deriving DecidableEq, Repr

def WorkerStage.wake : WorkerStage → WorkerStage
  | .sleeping => .running
  | stage => stage

/-- `struct replay_worker` with its thread. -/
structure ReplayWorker (ρ : Type) where
  pid : UInt32
  rb : RingBuf ρ
  stage : WorkerStage

/-- Where the main thread stands. -/
inductive MainStage (ρ : Type) where
  | reading
  /-- It calls `ring_buf_enqueue` for a worker, or has been woken in it. -/
  | enqueueing (worker : Nat) (record : ρ)
  /-- It sleeps in `ring_buf_enqueue`. -/
  | sleeping (worker : Nat) (record : ρ)
  | shuttingDown (worker : Nat)
  | joining (worker : Nat)
  | done

/-- The signal `not_full` of the ring of a worker. -/
def MainStage.wake {ρ : Type} (worker : Nat) : MainStage ρ → MainStage ρ
  | .sleeping i record => if i = worker then .enqueueing i record else .sleeping i record
  | stage => stage

/-- The pool, the records that are still to be read, and what went into and came out of the rings, with the workers. -/
structure PoolState (ρ : Type) where
  trace : List ρ
  main : MainStage ρ
  workers : List (ReplayWorker ρ)
  enqueued : List (Nat × ρ)
  dequeued : List (Nat × ρ)

inductive PoolEvent where
  /-- The main thread reads a record and finds its worker; `calloc` may fail. -/
  | feed (allocated : Bool)
  | enqueue
  | shutdown
  | join
  | dequeue (worker : Nat)
  | check (worker : Nat)
  | wakeMain
  | wakeWorker (worker : Nat)
  deriving DecidableEq, Repr

/-- A wait ends without a signal. -/
def PoolEvent.Spurious : PoolEvent → Prop
  | .wakeMain | .wakeWorker _ => True
  | _ => False

variable {ρ : Type}

/-- `worker_pool_get`: the workers afterwards, and the one for the process if there is one. -/
def workerPoolGet [Inhabited ρ] (serial allocated : Bool) (workers : List (ReplayWorker ρ)) (pid : UInt32) :
    List (ReplayWorker ρ) × Option Nat :=
  let key := if serial then 0 else pid
  match workers.findIdx? fun w => w.pid = key with
  | some i => (workers, some i)
  | none =>
    if maxWorkers ≤ workers.length then (workers, some 0)
    else if allocated then (workers ++ [⟨key, RingBuf.init, .running⟩], some workers.length)
    else (workers, none)

namespace PoolState

def start (trace : List ρ) : PoolState ρ := ⟨trace, .reading, [], [], []⟩

section Steps

variable [Inhabited ρ] (pid : ρ → UInt32) (serial : Bool) (s : PoolState ρ)

/-- The main loop takes the next record; after the last one `worker_pool_finish` begins. -/
def feed (allocated : Bool) : PoolState ρ :=
  match s.trace with
  | [] => { s with main := .shuttingDown 0 }
  | record :: rest =>
    match workerPoolGet serial allocated s.workers (pid record) with
    | (workers, none) => { s with trace := rest, workers }
    | (workers, some i) => { s with trace := rest, workers, main := .enqueueing i record }

def enqueue (i : Nat) (record : ρ) (w : ReplayWorker ρ) : PoolState ρ :=
  match w.rb.enqueue record with
  | .wait => { s with main := .sleeping i record }
  | .refused => { s with main := .reading }
  | .stored rb =>
    { s with
      main := .reading
      workers := s.workers.set i { w with rb, stage := w.stage.wake }
      enqueued := s.enqueued ++ [(i, record)] }

/-- The first loop of `worker_pool_finish`. -/
def shutdown (i : Nat) : PoolState ρ :=
  match s.workers[i]? with
  | some w => { s with main := .shuttingDown (i + 1), workers := s.workers.set i { w with rb := w.rb.close, stage := w.stage.wake } }
  | none => { s with main := .joining 0 }

/-- The second loop: the thread is joined when it has exited. -/
def join (i : Nat) : Option (PoolState ρ) :=
  match s.workers[i]? with
  | some w => if w.stage = .exited then some { s with main := .joining (i + 1) } else none
  | none => some { s with main := .done }

def dequeue (i : Nat) (w : ReplayWorker ρ) : PoolState ρ :=
  match w.rb.dequeue with
  | .wait => { s with workers := s.workers.set i { w with stage := .sleeping } }
  | .closed => { s with workers := s.workers.set i { w with stage := .closing } }
  | .taken record rb =>
    { s with
      main := s.main.wake i
      workers := s.workers.set i { w with rb }
      dequeued := s.dequeued ++ [(i, record)] }

/-- The worker exits if the ring is empty. -/
def check (i : Nat) (w : ReplayWorker ρ) : PoolState ρ :=
  { s with workers := s.workers.set i { w with stage := if w.rb.count = 0 then .exited else .running } }

/-- A step of the worker, when it stands at a stage. -/
def workerStep (i : Nat) (stage : WorkerStage) (f : ReplayWorker ρ → PoolState ρ) : Option (PoolState ρ) :=
  match s.workers[i]? with
  | some w => if w.stage = stage then some (f w) else none
  | none => none

def step : PoolEvent → Option (PoolState ρ)
  | .feed allocated =>
    match s.main with
    | .reading => some (s.feed pid serial allocated)
    | _ => none
  | .enqueue =>
    match s.main with
    | .enqueueing i record => (s.workers[i]?).map (s.enqueue i record)
    | _ => none
  | .shutdown =>
    match s.main with
    | .shuttingDown i => some (s.shutdown i)
    | _ => none
  | .join =>
    match s.main with
    | .joining i => s.join i
    | _ => none
  | .dequeue i => s.workerStep i .running (s.dequeue i)
  | .check i => s.workerStep i .closing (s.check i)
  | .wakeMain =>
    match s.main with
    | .sleeping i record => some { s with main := .enqueueing i record }
    | _ => none
  | .wakeWorker i => s.workerStep i .sleeping fun w => { s with workers := s.workers.set i { w with stage := .running } }

end Steps

end PoolState

end EbpfSyscall.Replayer
