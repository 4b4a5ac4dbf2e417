import EbpfSyscall.Lib.Probing

/-!
# Tables of the replayer

Two tables of `syscall_replayer.c` with open addressing: the pending `mmap` calls by process and time (`mmap_pending_*`), and the
descriptors of the replay by captured descriptor (`fd_map_*`). Each function holds the lock of its table, so it is one step. A slot
that is not in use holds nothing that is read.
-/

namespace EbpfSyscall.Replayer

open Probing

/-! ## Pending mmap calls -/

/-- `mmap_pending_key_t`. -/
structure MmapPendingKey where
  pid : UInt32
  timestampNs : UInt64
  deriving DecidableEq, Repr

/-- `mmap_pending_t`. -/
structure MmapPending where
  prot : Int32
  mapFlags : Int32
  mmapLen : UInt64
  resolvedFd : Int32
  offset : Int64
  deriving DecidableEq, Repr

/-- `MMAP_PENDING_MAX`. -/
abbrev mmapPendingMax : Nat := 1024

instance : NeZero mmapPendingMax := ⟨by decide⟩

/-- `mmap_pending_hash`. -/
def mmapPendingHash (key : MmapPendingKey) : Fin mmapPendingMax :=
  Fin.ofNat mmapPendingMax (key.pid.toUInt64 * 2654435761 ^^^ key.timestampNs).toNat

abbrev MmapPendingTable := Table mmapPendingMax MmapPendingKey MmapPending

/-- `mmap_pending_set`, with its result. -/
def mmapPendingSet (t : MmapPendingTable) (key : MmapPendingKey) (val : MmapPending) : MmapPendingTable × Int32 :=
  (modify mmapPendingHash t key fun _ => some val, if (locate mmapPendingHash t key).isSome then 0 else -1)

/-- `mmap_pending_get`. -/
def mmapPendingGet (t : MmapPendingTable) (key : MmapPendingKey) : Option MmapPending := get mmapPendingHash t key

/-- `mmap_pending_clear`. -/
def mmapPendingClear (t : MmapPendingTable) (key : MmapPendingKey) : MmapPendingTable := modify mmapPendingHash t key fun _ => none

/-- A call of one of the three functions. -/
inductive PendingCall where
  | set (key : MmapPendingKey) (val : MmapPending)
  | get (key : MmapPendingKey)
  | clear (key : MmapPendingKey)
  deriving DecidableEq, Repr

/-- The table after a call. -/
def PendingCall.apply (t : MmapPendingTable) : PendingCall → MmapPendingTable
  | .set key val => (mmapPendingSet t key val).1
  | .get _ => t
  | .clear key => mmapPendingClear t key

/-- The table after calls; it starts empty. -/
def pendingRun (calls : List PendingCall) : MmapPendingTable := calls.foldl PendingCall.apply fun _ => none

/-! ## Descriptors -/

/-- `FD_MAP_BUCKETS` and `MAX_FD`. -/
abbrev fdMapBuckets : Nat := 65536

instance : NeZero fdMapBuckets := ⟨by decide⟩

/-- `_fd_hash`. -/
def fdHash (key : Int32) : Fin fdMapBuckets := Fin.ofNat fdMapBuckets (key.toUInt32 &&& 65535).toNat

/-- The entry of a captured descriptor is the stack of its replayed descriptors, the top first; an entry with an empty stack is not
valid. -/
abbrev FdMap := Table fdMapBuckets Int32 (List Int32)

namespace FdMap

/-- An entry with this stack. -/
def entry (stack : List Int32) : Option (List Int32) := if stack = [] then none else some stack

/-- `fd_map_get`. -/
def get (fdmap : FdMap) (capturedFd : Int32) : Int32 := ((Probing.get fdHash fdmap capturedFd).bind List.head?).getD (-1)

/-- An open is pushed; the stack has 64 places, and a full one gets a new top. -/
def push (replayedFd : Int32) (stack : List Int32) : List Int32 :=
  if stack.length < 64 then replayedFd :: stack else replayedFd :: stack.tail

/-- `fd_map_set`: a descriptor that is negative pops the stack. -/
def set (fdmap : FdMap) (capturedFd replayedFd : Int32) : FdMap :=
  modify fdHash fdmap capturedFd fun stack =>
    entry (if replayedFd < 0 then (stack.getD []).tail else push replayedFd (stack.getD []))

/-- `fd_map_clear_fd`: the place of the descriptor that is next to the top is closed up. -/
def clearFd (fdmap : FdMap) (capturedFd replayedFd : Int32) : FdMap :=
  modify fdHash fdmap capturedFd fun stack => entry ((stack.getD []).erase replayedFd)

end FdMap

/-- `resolve_fd`. -/
def resolveFd (fdmap : FdMap) (fd : Int32) : Int32 := if 0 ≤ fd ∧ fd < 65536 then fdmap.get fd else -1

/-- What `dispatch_one` does with the table of a process: an open that succeeds is recorded, a close that succeeds clears the
descriptor that was looked up, and every call looks one up. -/
inductive FdCall where
  | opened (capturedFd replayedFd : Int32)
  | closed (capturedFd replayedFd : Int32)
  | lookup (capturedFd : Int32)
  deriving DecidableEq, Repr

/-- The descriptors that `dispatch_one` passes: results of captured opens, results of opens and closes of the replay that succeeded,
and a close only of what `resolve_fd` can find. -/
def FdCall.Dispatched : FdCall → Prop
  | .opened capturedFd replayedFd => 0 ≤ capturedFd ∧ 0 ≤ replayedFd
  | .closed capturedFd replayedFd => 0 ≤ capturedFd ∧ capturedFd < 65536 ∧ 0 ≤ replayedFd
  | .lookup _ => True

/-- The table after a call. -/
def FdCall.apply (fdmap : FdMap) : FdCall → FdMap
  | .opened capturedFd replayedFd => fdmap.set capturedFd replayedFd
  | .closed capturedFd replayedFd => fdmap.clearFd capturedFd replayedFd
  | .lookup _ => fdmap

/-- The table after calls, from `fd_map_init` on. -/
def fdRun (calls : List FdCall) : FdMap := calls.foldl FdCall.apply fun _ => none

end EbpfSyscall.Replayer
