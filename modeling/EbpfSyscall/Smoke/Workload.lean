import EbpfSyscall.Lib.Checked
import EbpfSyscall.Lib.Ring
import EbpfSyscall.Lib.Runs

/-!
# The workload of the uring smoke test

`nvme_uring_cmd_smoke.c`: the options and their validation, the free list of buffer slots, and `run_workload`, which keeps up to `qd`
commands in flight until `count` have completed. The kernel decides whether there is a submission entry, how many entries a submission
takes, which of the commands it has complete next, and what the clock says; each decision is part of an event. The entries of a command
other than `user_data` and the slot are left out. The counters stay below `MAX_COMMANDS`, so they are natural numbers here.
-/

namespace EbpfSyscall.Smoke

open Checked

/-! ## Options -/

inductive Errno where
  | e2big | eagain | ebusy | edeadlk | einval | eoverflow | eproto | erange
  /-- Any other error of the kernel. -/
  | other (code : Nat)
  deriving DecidableEq, Repr

structure Options where
  count : UInt32
  qd : UInt32
  slots : UInt32
  ioLen : UInt32
  bufferLen : UInt32
  lbaSize : UInt32
  cmdsPerObj : UInt32
  traceBase : UInt64
  readyFd : Int
  startFd : Int
  fixed : Bool
  premap : Bool
  hugepage : Bool
  deriving DecidableEq, Repr

structure Geometry where
  blocksPerIo : UInt32
  allocatedBytes : UInt64
  requestedBytes : UInt64
  lastLbaExclusive : UInt64
  traceLast : UInt64
  deriving DecidableEq, Repr

/-- What `validate_options` returns and prints. -/
structure OptionError where
  error : Errno
  text : String
  deriving DecidableEq, Repr

/-- `MAX_COMMANDS`. -/
def maxCommands : UInt32 := 0x8000000

/-- `multiply_u64`; there is no product when it overflows. -/
def multiplyU64 (left right : UInt64) : Option UInt64 := if left ≠ 0 ∧ right > 0xffffffffffffffff / left then none else some (left * right)

/-- A product, or the error. -/
def productOr (error : OptionError) : Option UInt64 → Except OptionError UInt64
  | some product => .ok product
  | none => .error error

/-- `validate_options`. The parser lets neither `lba_size` nor `cmds_per_obj` be 0. -/
def validateOptions (systemPage : Int) (opts : Options) : Except OptionError Geometry := do
  ensure (opts.count ≤ maxCommands) ⟨.e2big, "--count exceeds the 134217728-command latency bound"⟩
  ensure (opts.qd ≤ 0xffff ∧ opts.slots ≤ 0xffff) ⟨.erange, "--qd/--slots exceeds the 16-bit fixed-buffer index space"⟩
  ensure (opts.qd ≤ opts.slots) ⟨.einval, "--slots must be greater than or equal to --qd"⟩
  ensure (opts.ioLen ≤ opts.bufferLen) ⟨.einval, "--len must not exceed --buffer-len"⟩
  ensure (0 < systemPage ∧ systemPage ≤ 0xffffffff) ⟨.einval, ""⟩
  ensure (opts.premap = true ∨ opts.hugepage = true ∨ opts.bufferLen % UInt32.ofNat systemPage.toNat = 0)
    ⟨.einval, "normal user --buffer-len must be a multiple of the " ++ toString systemPage ++ "-byte system page size"⟩
  ensure (opts.ioLen % opts.lbaSize = 0) ⟨.einval, "--len must be an exact multiple of --lba-size"⟩
  let blocksPerIo := opts.ioLen / opts.lbaSize
  ensure (blocksPerIo ≠ 0 ∧ blocksPerIo ≤ 0x10000) ⟨.erange, "one command must contain 1..65536 logical blocks"⟩
  ensure (¬(opts.fixed = true ∧ opts.premap = true)) ⟨.einval, "--fixed cannot be combined with a premap mode"⟩
  ensure (¬(opts.hugepage = true ∧ opts.premap = true)) ⟨.einval, "--hugepage cannot be combined with a premap mode"⟩
  ensure (opts.readyFd < 0 ↔ opts.startFd < 0) ⟨.einval, "--ready-fd and --start-fd must be supplied together"⟩
  ensure (opts.readyFd ≠ 1 ∧ opts.startFd ≠ 1) ⟨.einval, "barrier fds must not use stdout (reserved for JSON)"⟩
  let allocatedBytes ← productOr ⟨.eoverflow, "buffer allocation size overflows size_t"⟩
    (multiplyU64 opts.slots.toUInt64 opts.bufferLen.toUInt64)
  let requestedBytes ← productOr ⟨.eoverflow, ""⟩ (multiplyU64 opts.count.toUInt64 opts.ioLen.toUInt64)
  let lastLbaExclusive ← productOr ⟨.eoverflow, "sequential LBA range overflows 64 bits"⟩
    (multiplyU64 opts.count.toUInt64 blocksPerIo.toUInt64)
  let groups := ((opts.count - 1) / opts.cmdsPerObj).toUInt64
  ensure (groups ≤ 0xffffffff - opts.traceBase) ⟨.erange, "trace ID range exceeds the high 32-bit field"⟩
  return ⟨blocksPerIo, allocatedBytes, requestedBytes, lastLbaExclusive, opts.traceBase + groups⟩

/-! ## The free list -/

/-- `struct free_slot_queue`. -/
abbrev FreeSlotQueue := Ring.Counted Nat

/-- `free_slot_queue_init`. -/
def freeSlotQueueInit (capacity : Nat) : FreeSlotQueue := ⟨fun slot => slot, capacity, 0, 0, capacity⟩

/-- `free_slot_queue_take`; nothing is `-EAGAIN`. -/
def freeSlotQueueTake (queue : FreeSlotQueue) : Option (Nat × FreeSlotQueue) := queue.take

/-- `free_slot_queue_release`; nothing is `-EPROTO`. -/
def freeSlotQueueRelease (queue : FreeSlotQueue) (slot : Nat) : Option FreeSlotQueue :=
  if queue.capacity ≤ slot then none else queue.put slot

/-! ## `run_workload` -/

/-- The texts of `fatal_stage`. -/
inductive FatalStage where
  | windowStartClock | takeFreeSlot | prepareSqe | commandSubmitClock | submitAndWait | peekCqe | cqeSequence | cqeSlotOwnership
  | commandCompleteClock | commandClockOrder | commandLatency | releaseFreeSlot | windowEndClock | windowClockOrder | ringCounterNonzero
  | freeSlotAccounting | measurementFinishProtocol | slotStillInflight | touchedSlotValidation
  deriving DecidableEq, Repr

inductive RunStage where
  | starting
  /-- The loop that prepares commands; the batch began at this sequence number. -/
  | filling (batchFirst : Nat)
  | submitting
  | reaping
  /-- The label `timed_out`. -/
  | ending
  /-- `run_workload` has returned. -/
  | returned
  /-- `validate_slot_state` has returned. -/
  | validated
  deriving DecidableEq, Repr

/-- The variables of a run, what the kernel has, and the sequence numbers that were submitted and completed. -/
structure State where
  stage : RunStage
  windowStart : UInt64
  submitted : Nat
  completed : Nat
  errors : Nat
  firstCqeRes : Int
  fatal : Option (FatalStage × Errno)
  elapsedNs : UInt64
  touchedSlots : Nat
  touched : Nat → Bool
  slotValidationPassed : Bool
  commandTimes : Nat → UInt64
  commandSlots : Nat → Nat
  slotBusy : Nat → Bool
  freeSlots : FreeSlotQueue
  /-- The `user_data` of the entries that are prepared and not yet taken by the kernel, and of the commands that the kernel has. -/
  prepared : List UInt64
  kernel : List UInt64
  issued : List Nat
  done : List Nat

/-- What the clock returns. -/
abbrev ClockRead := Except Errno UInt64

inductive Event where
  | begin (clock : ClockRead)
  /-- `io_uring_get_sqe` returns an entry. -/
  | prepare
  /-- The loop ends: its condition fails, no slot is free, or there is no entry. -/
  | endFill (clock : ClockRead)
  /-- `io_uring_submit_and_wait`: the kernel takes entries. -/
  | submit (result : Except Errno Nat)
  | peekNone
  | peekError (error : Errno)
  | complete (userData : UInt64) (res : Int) (clock : ClockRead)
  | finish (clock : ClockRead) (sqDropped cqOverflow : UInt32)
  /-- `measurement_finish` and `validate_slot_state`. -/
  | validate (barrier : Option Errno)

/-- `LATENCY_DONE_BIT`. -/
def latencyDoneBit : UInt64 := 0x8000000000000000

/-- The `user_data` of a command. -/
def userDataOf (opts : Options) (sequence : Nat) : UInt64 :=
  let traceId := opts.traceBase + (UInt32.ofNat sequence / opts.cmdsPerObj).toUInt64
  traceId <<< 32 ||| UInt64.ofNat sequence

namespace State

def start (opts : Options) : State :=
  { stage := .starting, windowStart := 0, submitted := 0, completed := 0, errors := 0, firstCqeRes := 0, fatal := none, elapsedNs := 0
    touchedSlots := 0, touched := fun _ => false, slotValidationPassed := false, commandTimes := fun _ => 0, commandSlots := fun _ => 0
    slotBusy := fun _ => false, freeSlots := freeSlotQueueInit opts.slots.toNat, prepared := [], kernel := [], issued := [], done := [] }

variable (opts : Options) (s : State)

/-- `set_fatal`: the first error stays. -/
def setFatal (stage : FatalStage) (error : Errno) : State :=
  match s.fatal with
  | some _ => s
  | none => { s with fatal := some (stage, error) }

/-- `set_fatal` and `goto timed_out`. -/
def fail (stage : FatalStage) (error : Errno) : State := { s.setFatal stage error with stage := .ending }

/-- The condition of the outer loop. -/
def next : State := { s with stage := if s.completed < opts.count.toNat then .filling s.submitted else .ending }

def begin : ClockRead → State
  | .error error => s.fail .windowStartClock error
  | .ok now => { s with windowStart := now }.next opts

/-- One command is prepared. -/
def prepare : State :=
  let sequence := s.submitted
  match freeSlotQueueTake s.freeSlots with
  | none => s.fail .takeFreeSlot .eagain
  | some (slot, freeSlots) =>
    let s := { s with freeSlots }
    if s.slotBusy slot = true then s.fail .takeFreeSlot .eproto
    else
      { s with
        slotBusy := Function.update s.slotBusy slot true
        commandSlots := Function.update s.commandSlots sequence (slot % 65536)
        touched := Function.update s.touched slot true
        touchedSlots := if s.touched slot = true then s.touchedSlots else s.touchedSlots + 1
        submitted := s.submitted + 1
        prepared := s.prepared ++ [userDataOf opts sequence]
        issued := s.issued ++ [sequence] }

/-- The submit time of the batch. -/
def endFill (batchFirst : Nat) (clock : ClockRead) : State :=
  if batchFirst = s.submitted ∧ s.submitted = s.completed then s.fail .prepareSqe .edeadlk
  else if batchFirst = s.submitted then { s with stage := .submitting }
  else
    match clock with
    | .error error => s.fail .commandSubmitClock error
    | .ok now =>
      let batchSubmitNs := if now = 0 then 1 else now
      { s with
        commandTimes := fun sequence => if batchFirst ≤ sequence ∧ sequence < s.submitted then batchSubmitNs else s.commandTimes sequence
        stage := .submitting }

def submit : Except Errno Nat → State
  | .error error => s.fail .submitAndWait error
  | .ok taken => { s with prepared := s.prepared.drop taken, kernel := s.kernel ++ s.prepared.take taken, stage := .reaping }

/-- One completion is handled. -/
def complete (userData : UInt64) (res : Int) (clock : ClockRead) : State :=
  let s := { s with kernel := s.kernel.erase userData }
  let sequence := userData.toUInt32.toNat
  let time := s.commandTimes sequence
  if opts.count.toNat ≤ sequence ∨ time = 0 ∨ time &&& latencyDoneBit ≠ 0 then s.fail .cqeSequence .eproto
  else
    let slot := s.commandSlots sequence
    if s.slotBusy slot = false then s.fail .cqeSlotOwnership .eproto
    else
      match clock with
      | .error error => s.fail .commandCompleteClock error
      | .ok now =>
        if now < time then s.fail .commandClockOrder .erange
        else if (now - time) &&& latencyDoneBit ≠ 0 then s.fail .commandLatency .eoverflow
        else
          let s :=
            { s with
              commandTimes := Function.update s.commandTimes sequence ((now - time) ||| latencyDoneBit)
              slotBusy := Function.update s.slotBusy slot false }
          match freeSlotQueueRelease s.freeSlots slot with
          | none => s.fail .releaseFreeSlot .eproto
          | some freeSlots =>
            { s with
              freeSlots
              firstCqeRes := if res ≠ 0 ∧ s.errors = 0 then res else s.firstCqeRes
              errors := if res ≠ 0 then s.errors + 1 else s.errors
              completed := s.completed + 1
              done := s.done ++ [sequence] }

/-- The end of the window; the ring counters were 0 at the start. -/
def windowEnd : ClockRead → State
  | .error error => s.setFatal .windowEndClock error
  | .ok now => if now < s.windowStart then s.setFatal .windowClockOrder .erange else { s with elapsedNs := now - s.windowStart }

def ringCounters (sqDropped cqOverflow : UInt32) : State :=
  if sqDropped ≠ 0 ∨ cqOverflow ≠ 0 then s.setFatal .ringCounterNonzero .eoverflow else s

def freeSlotAccounting : State :=
  if s.fatal = none ∧ s.freeSlots.count ≠ opts.slots.toNat then s.setFatal .freeSlotAccounting .ebusy else s

/-- What follows the label `timed_out`. -/
def finish (clock : ClockRead) (sqDropped cqOverflow : UInt32) : State :=
  { ((s.windowEnd clock).ringCounters sqDropped cqOverflow).freeSlotAccounting opts with stage := .returned }

def measurementFinish : Option Errno → State
  | some error => s.setFatal .measurementFinishProtocol error
  | none => s

/-- `expected_touched_slots`. -/
def expectedTouchedSlots : Nat := if opts.count < opts.slots then opts.count.toNat else opts.slots.toNat

/-- `validate_slot_state`. -/
def validateSlotState : State :=
  let anyBusy := (List.range opts.slots.toNat).any s.slotBusy
  let passed := !anyBusy && s.touchedSlots == expectedTouchedSlots opts
  let s := { s with slotValidationPassed := passed, stage := .validated }
  if anyBusy = true then s.setFatal .slotStillInflight .ebusy
  else if passed = false then s.setFatal .touchedSlotValidation .eproto
  else s

/-- The condition of the loop that prepares commands. -/
def canFill : Prop := s.submitted < opts.count.toNat ∧ s.submitted - s.completed < opts.qd.toNat ∧ s.freeSlots.count ≠ 0

instance : Decidable (s.canFill opts) := inferInstanceAs (Decidable (_ ∧ _))

def step : Event → Option State
  | .begin clock => if s.stage = .starting then some (s.begin opts clock) else none
  | .prepare =>
    match s.stage with
    | .filling _ => if s.canFill opts then some (s.prepare opts) else none
    | _ => none
  | .endFill clock =>
    match s.stage with
    | .filling batchFirst => some (s.endFill batchFirst clock)
    | _ => none
  | .submit result => if s.stage = .submitting then some (s.submit result) else none
  | .peekNone => if s.stage = .reaping then some (s.next opts) else none
  | .peekError error => if s.stage = .reaping then some (s.fail .peekCqe error) else none
  | .complete userData res clock => if s.stage = .reaping ∧ userData ∈ s.kernel then some (s.complete opts userData res clock) else none
  | .finish clock sqDropped cqOverflow => if s.stage = .ending then some (s.finish opts clock sqDropped cqOverflow) else none
  | .validate barrier => if s.stage = .returned then some ((s.measurementFinish barrier).validateSlotState opts) else none

end State

end EbpfSyscall.Smoke
