import EbpfSyscall.Kvio.Content

/-!
# The in-memory target

`FakeBackend` of `tools/kvio/intent_exec.py`: objects by identity and version, injected failures, and a check of the content of every
load against the content the backend would have stored.
-/

namespace EbpfSyscall.Kvio

/-- `Outcome`. -/
structure Outcome where
  status : Status
  completedBytes : Nat := 0
  detail : Text := []
  deriving DecidableEq, Repr

/-- The stored bytes by object and version. -/
abbrev Objects := Text → Version → Option Bytes

structure FakeBackend where
  /-- `service_ns`, by the id of the operation. -/
  latencyNs : Text → Nat
  /-- `fail`: the operations that must fail, and how. -/
  fail : Text → Option Status
  verify : Bool := true
  profile : Option ContentProfile := none

namespace FakeBackend

variable (H : ContentHost) (backend : FakeBackend)

/-- `payload`: the profile's content if one was set. -/
def payload (identity : Text) (version : Version) (offset length : Nat) : Bytes :=
  match backend.profile with
  | some profile => content H profile identity offset length
  | none => syntheticBytes H identity version offset length

/-- `initialize`: the objects that are live before the first operation, each with its content. -/
def initialized (initial : List (Text × Version × Nat)) : Objects :=
  initial.foldl (fun objects item =>
    Function.update objects item.1
      (Function.update (objects item.1) item.2.1 (some (backend.payload H item.1 item.2.1 0 item.2.2))))
    (fun _ _ => none)

/-- `store`, on the versions of the object. -/
def store (opId : Text) (version : Version) (payload : Bytes) (versions : Version → Option Bytes) :
    Outcome × (Version → Option Bytes) :=
  match backend.fail opId with
  | some forced => (⟨forced, 0, "injected".toList⟩, versions)
  | none =>
    if (versions version).isSome then (⟨.alreadyPresent, 0, []⟩, versions)
    else (⟨.success, payload.length, []⟩, Function.update versions version (some payload))

/-- `load`: the bytes of the range that are there, compared with what should be there. -/
def load (opId objectId : Text) (version : Version) (offset length : Nat) (versions : Version → Option Bytes) : Outcome :=
  match backend.fail opId with
  | some forced => ⟨forced, 0, "injected".toList⟩
  | none =>
    match versions version with
    | none => ⟨.miss, 0, []⟩
    | some data =>
      let chunk := (data.drop offset).take length
      if backend.verify = true ∧ chunk ≠ backend.payload H objectId version offset chunk.length then
        ⟨.error, chunk.length, "content mismatch".toList⟩
      else if chunk.length < length then ⟨.short, chunk.length, []⟩
      else ⟨.success, chunk.length, []⟩

/-- `release`. -/
def release (opId : Text) (version : Version) (versions : Version → Option Bytes) : Outcome × (Version → Option Bytes) :=
  match backend.fail opId with
  | some forced => (⟨forced, 0, "injected".toList⟩, versions)
  | none =>
    if (versions version).isSome then (⟨.success, 0, []⟩, Function.update versions version none)
    else (⟨.miss, 0, []⟩, versions)

end FakeBackend

/-- A call on one object changes only the versions of that object. -/
def onObject (objectId : Text) (call : (Version → Option Bytes) → Outcome × (Version → Option Bytes)) (objects : Objects) :
    Outcome × Objects :=
  ((call (objects objectId)).1, Function.update objects objectId (call (objects objectId)).2)

/-- What the executor reports for an operation the source cancelled. -/
def sourceCancelled : Outcome := ⟨.cancelled, 0, "source cancelled; not submitted".toList⟩

/-! ## Performing an operation of a v2 record -/

/-- `initial_objects` of a v2 record. -/
def Intent2.initialObjects (intent : Intent2) : List (Text × Version × Nat) :=
  intent.live.filterMap fun item =>
    (intent.version? item.objectId item.version).map fun version => (item.objectId, item.version, version.bytes.toNat)

/-- The call of an operation on the versions of its object; `size` is the size of its version. -/
def Operation.call (H : ContentHost) (backend : FakeBackend) (operation : Operation) (size : Nat)
    (versions : Version → Option Bytes) : Outcome × (Version → Option Bytes) :=
  match operation.op with
  | .store =>
    backend.store operation.opId operation.version (backend.payload H operation.objectId operation.version 0 size) versions
  | .load =>
    let range := operation.range.getD ⟨0, size⟩
    (backend.load H operation.opId operation.objectId operation.version range.offset.toNat range.length.toNat versions, versions)
  | .release => backend.release operation.opId operation.version versions

/-- `_perform` for a v2 record. -/
def Intent2.perform (H : ContentHost) (intent : Intent2) (backend : FakeBackend) (cancelledSkip : Bool) (opId : Text)
    (objects : Objects) : Except PyError (Outcome × Objects) := do
  let operation ← Checked.require (intent.operations.find? (fun operation => operation.opId = opId))
    (.keyError (String.ofList opId))
  if cancelledSkip = true ∧ operation.sourceOutcome = some .cancelled then pure (sourceCancelled, objects)
  else do
    let version ← Checked.require (intent.version? operation.objectId operation.version)
      (.keyError (String.ofList operation.objectId))
    pure (onObject operation.objectId (operation.call H backend version.bytes.toNat) objects)

end EbpfSyscall.Kvio
