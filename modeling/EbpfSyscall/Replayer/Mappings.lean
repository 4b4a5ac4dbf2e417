import EbpfSyscall.Lib.Runs
import EbpfSyscall.Lib.Slots

/-!
# Mappings of the replay

The table `mmap_map` of `syscall_replayer.c`, which takes the address of a mapping in the capture to its address in the replay, and the
workers that use it. There is one table for all workers. A worker replays the `mmap` records of its process (`case_mmap_exit`: the call,
then the entry) and the `munmap` records (the lookup, the call, then the entry is cleared); each call and each function of the table is one
step. The log, the numbers of the records and the captured mappings that are still in use are kept for the statements.
-/

namespace EbpfSyscall.Replayer

/-- The value of `struct mmap_entry`; its key is the captured address. -/
structure MmapEntry where
  replayAddr : UInt64
  length : UInt64
  deriving DecidableEq, Repr

/-- `struct mmap_map`, with `MMAP_MAP_SIZE` entries. -/
abbrev MmapMap := Slots.Table 1024 UInt64 MmapEntry

/-- `mmap_map_set`; there is no table when it returns `-ENOMEM`. -/
def mmapMapSet (m : MmapMap) (capAddr replayAddr length : UInt64) : Option MmapMap := Slots.set m capAddr ⟨replayAddr, length⟩

/-- `mmap_map_get`. -/
def mmapMapGet (m : MmapMap) (capAddr : UInt64) : Option UInt64 := (Slots.get m capAddr).map MmapEntry.replayAddr

/-- `mmap_map_clear`. -/
def mmapMapClear (m : MmapMap) (capAddr : UInt64) : MmapMap := Slots.clear m capAddr

/-- A mapping of the replay, with the record it was made for. -/
structure ReplayMapping where
  pid : UInt32
  capAddr : UInt64
  record : Nat
  length : UInt64
  deriving DecidableEq, Repr

/-- Where the worker of a process stands. -/
inductive MapWorker where
  | idle
  /-- `mmap` has returned this address. -/
  | mapped (capAddr replayAddr length : UInt64)
  /-- The table has given this address. -/
  | found (capAddr replayAddr size : UInt64)
  /-- `munmap` has returned. -/
  | unmapped (capAddr : UInt64)
  deriving DecidableEq, Repr

inductive MapLogEntry where
  /-- A record of `mmap`, and whether the call succeeded. -/
  | mmap (pid : UInt32) (capAddr : UInt64) (record : Nat) (made : Bool)
  /-- A call of `munmap` for a record, and the mapping that it removed. -/
  | munmap (pid : UInt32) (capAddr size : UInt64) (removed : Option ReplayMapping)
  /-- A record of `munmap` that was skipped. -/
  | skipped (pid : UInt32) (capAddr : UInt64)
  deriving DecidableEq, Repr

structure MapState where
  table : MmapMap
  /-- The mappings of the replay by their address. -/
  mappings : UInt64 → Option ReplayMapping
  workers : UInt32 → MapWorker
  /-- The captured mappings whose `mmap` record has begun and whose `munmap` record has not ended, with their lengths. -/
  held : Finset (UInt32 × UInt64)
  lengths : UInt32 → UInt64 → UInt64
  records : Nat
  log : List MapLogEntry

inductive MapEvent where
  /-- A record of `mmap`: the call and its result, if it succeeds. -/
  | mmap (pid : UInt32) (capAddr length : UInt64) (result : Option UInt64)
  | set (pid : UInt32)
  /-- A record of `munmap`: the lookup. -/
  | lookup (pid : UInt32) (capAddr size : UInt64)
  | munmap (pid : UInt32)
  | clear (pid : UInt32)
  deriving DecidableEq, Repr

namespace MapState

def start : MapState := ⟨fun _ => none, fun _ => none, fun _ => .idle, ∅, fun _ _ => 0, 0, []⟩

def setWorker (s : MapState) (pid : UInt32) (w : MapWorker) : MapState := { s with workers := Function.update s.workers pid w }

/-- The record of an `mmap` is taken up. -/
def begin (s : MapState) (pid : UInt32) (capAddr length : UInt64) (made : Bool) : MapState :=
  { s with
    held := insert (pid, capAddr) s.held
    lengths := Function.update s.lengths pid (Function.update (s.lengths pid) capAddr length)
    records := s.records + 1
    log := s.log ++ [.mmap pid capAddr s.records made] }

/-- The call of `mmap`. The kernel returns an address that is not in use. An address 0 in the record was not readable. -/
def mmap (s : MapState) (pid : UInt32) (capAddr length : UInt64) : Option UInt64 → Option MapState
  | none => some (s.begin pid capAddr length false)
  | some addr =>
    if addr = 0 ∨ (s.mappings addr).isSome = true then none
    else
      let made := { s with mappings := Function.update s.mappings addr (some ⟨pid, capAddr, s.records, length⟩) }
      some ((made.begin pid capAddr length true).setWorker pid (if capAddr ≠ 0 then .mapped capAddr addr length else .idle))

/-- The entry of a mapping; without a free slot the mapping is removed again. -/
def set (s : MapState) (pid : UInt32) (capAddr replayAddr length : UInt64) : MapState :=
  match mmapMapSet s.table capAddr replayAddr length with
  | some table => { s with table }.setWorker pid .idle
  | none => { s with mappings := Function.update s.mappings replayAddr none }.setWorker pid .idle

/-- The record of a `munmap` ends. -/
def finish (s : MapState) (pid : UInt32) (capAddr : UInt64) : MapState := { s with held := s.held.erase (pid, capAddr) }

def lookup (s : MapState) (pid : UInt32) (capAddr size : UInt64) : MapState :=
  match if capAddr = 0 then none else mmapMapGet s.table capAddr with
  | none => { s with log := s.log ++ [MapLogEntry.skipped pid capAddr] }.finish pid capAddr
  | some replayAddr => s.setWorker pid (.found capAddr replayAddr size)

/-- The call of `munmap`, of a range that starts at a mapping. -/
def munmap (s : MapState) (pid : UInt32) (capAddr replayAddr size : UInt64) : MapState :=
  { s with
    mappings := Function.update s.mappings replayAddr none
    log := s.log ++ [MapLogEntry.munmap pid capAddr size (s.mappings replayAddr)] }.setWorker pid (.unmapped capAddr)

def clear (s : MapState) (pid : UInt32) (capAddr : UInt64) : MapState :=
  ({ s with table := mmapMapClear s.table capAddr }.setWorker pid .idle).finish pid capAddr

def step (s : MapState) : MapEvent → Option MapState
  | .mmap pid capAddr length result => if s.workers pid = .idle then s.mmap pid capAddr length result else none
  | .set pid =>
    match s.workers pid with
    | .mapped capAddr replayAddr length => some (s.set pid capAddr replayAddr length)
    | _ => none
  | .lookup pid capAddr size => if s.workers pid = .idle then some (s.lookup pid capAddr size) else none
  | .munmap pid =>
    match s.workers pid with
    | .found capAddr replayAddr size => some (s.munmap pid capAddr replayAddr size)
    | _ => none
  | .clear pid =>
    match s.workers pid with
    | .unmapped capAddr => some (s.clear pid capAddr)
    | _ => none

end MapState

end EbpfSyscall.Replayer
