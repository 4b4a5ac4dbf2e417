import EbpfSyscall.Lib.Buckets
import EbpfSyscall.Lib.Slices
import EbpfSyscall.Json

/-!
# The filter of system call logs

`filter_syscall_log.py`: records of exits are dropped, the entry of an `openat` gets the return value of its exit, and a write to a
descriptor that is not open yet is put off when the `openat` that returns the descriptor comes soon. Pids and descriptors are integers;
all other fields are what `json.load` gives.
-/

namespace EbpfSyscall

/-- `record.get(key, default)`. -/
def Dict.getOr (d : Dict) (key : String) (default : Json) : Json := (d.get key).getD default

/-- `record.pop(key, None)`. -/
def Dict.pop (d : Dict) (key : String) : Dict := d.filter fun entry => entry.1 ≠ key.toList

namespace FilterLog

/-- `EXIT_FD`: -1 as a 32-bit number without sign. -/
def exitFd : Int := 4294967295

def exitSize : Int := 1

def defaultLookahead : Int := 250

def openatNr : Int := 257

def closeNr : Int := 3

/-- `write` and `pwrite64`. -/
def writeNrs : List Int := [1, 18]

def recPid (r : Dict) : Json := r.getOr "pid" (r.getOr "tgid" (r.getOr "tid" .null))

/-- `r.get("syscall_nr") == nr`. -/
def isNr (r : Dict) (nr : Int) : Bool := Python.eq (r.getOr "syscall_nr" .null) (.int nr)

/-- `r.get("syscall_nr") in WRITE_NRS`. -/
def isWrite (r : Dict) : Bool := writeNrs.any (isNr r)

def isGenericExit (r : Dict) : Bool :=
  !isNr r openatNr && (Python.eq (r.getOr "fd" (.int 0)) (.int (-1)) || Python.eq (r.getOr "fd" (.int 0)) (.int exitFd)) &&
    Python.eq (r.getOr "size" (.int 0)) (.int exitSize)

def isOpenatExit (r : Dict) : Bool := isNr r openatNr && Python.eq (r.getOr "filename" (.str [])) (.str [])

def isOpenatEntry (r : Dict) : Bool := isNr r openatNr && !Python.eq (r.getOr "filename" (.str [])) (.str [])

/-- A value that has a hash. -/
def hashable : Json → Bool
  | .arr _ | .obj _ => false
  | _ => true

def isInt : Json → Bool
  | .int _ => true
  | _ => false

/-- A record of a trace: its pid and its descriptor are integers, what an `openat` returns is an integer or null, and what is looked up
in a set has a hash. -/
structure Record where
  entries : Dict
  pid : Int
  recPid_eq : recPid entries = .int pid
  intFd : isInt (entries.getOr "fd" (.int (-1))) = true
  intRet : isNr entries openatNr = true → isInt (entries.getOr "ret" (.int (-1))) = true ∨ entries.getOr "ret" (.int (-1)) = .null
  hashes : hashable (entries.getOr "syscall_nr" .null) = true ∧ hashable (entries.getOr "process_name" .null) = true
  deriving DecidableEq

/-- `r.get("fd", -1)`. -/
def Record.fd (r : Record) : Int :=
  match r.entries.getOr "fd" (.int (-1)) with
  | .int fd => fd
  | _ => -1

/-- `r.get("ret", -1)`, which may be `None`. -/
def Record.ret (r : Record) : Option Int :=
  match r.entries.getOr "ret" (.int (-1)) with
  | .int ret => some ret
  | _ => none

def sameOwnerOpenatExitForFd (r : Record) (ownerPid capFd : Int) : Bool :=
  isOpenatExit r.entries && decide (r.pid = ownerPid) && Python.eq (r.entries.getOr "ret" .null) (.int capFd)

/-- `r.get("process_name") in process_set`. -/
def Record.ofProcess (targetProcess : List Text) (r : Record) : Bool :=
  match r.entries.getOr "process_name" .null with
  | .str name => decide (name ∈ targetProcess)
  | _ => false

/-- The process and pid filters: no name and no pid filter nothing. -/
def selected (targetProcess : List Text) (targetPid : Option Int) (data : List Record) : List Record :=
  let data := if targetProcess = [] then data else data.filter (Record.ofProcess targetProcess)
  match targetPid with
  | none => data
  | some pid => data.filter fun r => r.pid = pid

/-- Pass 1: the return values of the exits of `openat`, for each pid in their order. -/
def collectOpenatExits (data : List Record) (pid : Int) : List (Option Int) :=
  (data.filter fun r => isOpenatExit r.entries && decide (r.pid = pid)).map Record.ret

/-- A record that is kept or put off, with its place in the data. The place is not written. -/
structure Kept where
  place : Nat
  entries : Dict
  deriving DecidableEq

/-- The variables of the loop. -/
structure State where
  kept : List Kept
  openatExitQueue : Int → List (Option Int)
  pidRegistered : Int → List Int
  deferredWrites : Assoc (Int × Int) (List Kept)

def State.start (data : List Record) : State := ⟨[], collectOpenatExits data, fun _ => [], .empty⟩

/-- The private field of records that are put off. -/
def marker : String := "_deferred_reason"

/-- `dw = dict(r)` with the private field. -/
def mark (r : Dict) : Dict := r.set marker (.str "same-pid-openat-exit-lookahead".toList)

/-- `dw.pop("_deferred_reason", None)`. -/
def Kept.unmark (k : Kept) : Kept := { k with entries := k.entries.pop marker }

/-- The queue after `popleft`, the record with the return value, and its descriptor. -/
def patchOpenat (r : Record) : List (Option Int) → List (Option Int) × Dict × Option Int
  | some exitRet :: rest =>
    if 0 ≤ exitRet then (rest, r.entries.set "ret" (.int exitRet), some exitRet) else (rest, r.entries, r.ret)
  | none :: rest => (rest, r.entries, r.ret)
  | [] => ([], r.entries, r.ret)

/-- `pid_registered[pid].add(cap_fd)` for a descriptor. -/
def register (registered : Int → List Int) (pid : Int) (capFd : Option Int) : Int → List Int :=
  match capFd with
  | some fd => if 0 ≤ fd then Function.update registered pid (fd :: registered pid) else registered
  | none => registered

/-- `deferred_writes.pop((pid, cap_fd), [])`. -/
def popDeferred (deferred : Assoc (Int × Int) (List Kept)) (pid : Int) (capFd : Option Int) : List Kept × Assoc (Int × Int) (List Kept) :=
  match capFd with
  | some fd => (Buckets.bucket deferred (pid, fd), deferred.erase (pid, fd))
  | none => ([], deferred)

/-- The entry of an `openat`: the writes that wait for its descriptor follow it. -/
def openatStep (st : State) (idx : Nat) (r : Record) : State :=
  let (queue, entries, capFd) := patchOpenat r (st.openatExitQueue r.pid)
  let (pending, deferred) := popDeferred st.deferredWrites r.pid capFd
  { kept := st.kept ++ [⟨idx, entries⟩] ++ pending.map Kept.unmark
    openatExitQueue := Function.update st.openatExitQueue r.pid queue
    pidRegistered := register st.pidRegistered r.pid capFd
    deferredWrites := deferred }

/-- `kept.append(r)`. -/
def keep (st : State) (idx : Nat) (r : Record) : State := { st with kept := st.kept ++ [⟨idx, r.entries⟩] }

/-- The entry of a `close`. -/
def closeStep (st : State) (idx : Nat) (r : Record) : State :=
  let registered :=
    if r.fd = -1 ∨ r.fd = exitFd then st.pidRegistered
    else Function.update st.pidRegistered r.pid ((st.pidRegistered r.pid).filter fun fd => fd ≠ r.fd)
  { keep st idx r with pidRegistered := registered }

/-- An exit of `openat` of the same pid that returns the descriptor is in `data[idx + 1: idx + 1 + lookahead]`. -/
def hasSamePidOpenat (data : List Record) (lookahead : Int) (idx : Nat) (r : Record) : Bool :=
  (Slices.slice data ((idx : Int) + 1) ((idx : Int) + 1 + lookahead)).any fun other => sameOwnerOpenatExitForFd other r.pid r.fd

/-- The entry of a `write` or `pwrite64`. -/
def writeStep (data : List Record) (lookahead : Int) (st : State) (idx : Nat) (r : Record) : State :=
  if r.fd ∉ st.pidRegistered r.pid ∧ hasSamePidOpenat data lookahead idx r = true then
    { st with deferredWrites := Buckets.push st.deferredWrites (r.pid, r.fd) ⟨idx, mark r.entries⟩ }
  else keep st idx r

/-- One record of the loop. -/
def step (data : List Record) (lookahead : Int) (st : State) (idx : Nat) (r : Record) : State :=
  if isOpenatExit r.entries then st
  else if isGenericExit r.entries then st
  else if isOpenatEntry r.entries then openatStep st idx r
  else if isNr r.entries closeNr then closeStep st idx r
  else if isWrite r.entries then writeStep data lookahead st idx r
  else keep st idx r

/-- The state after the first records. -/
def stateAfter (data : List Record) (lookahead : Int) (count : Nat) : State :=
  (data.take count).zipIdx.foldl (fun st item => step data lookahead st item.2 item.1) (State.start data)

/-- The order of the keys in `sorted(deferred_writes)`. -/
def keyLe (a b : Int × Int) : Bool := a.1 < b.1 || a.1 == b.1 && a.2 ≤ b.2

/-- What is kept of the records that pass the filters: the writes that are still put off come last. -/
def keptOf (data : List Record) (lookahead : Int) : List Kept :=
  let st := stateAfter data lookahead data.length
  st.kept ++ (Buckets.sweep keyLe st.deferredWrites).map Kept.unmark

/-- The list that is written. -/
def filterLog (data : List Record) (targetProcess : List Text) (targetPid : Option Int) (lookahead : Int) : List Dict :=
  (keptOf (selected targetProcess targetPid data) lookahead).map Kept.entries

end FilterLog

end EbpfSyscall
