import EbpfSyscall.Json
import EbpfSyscall.Lib.Assoc

/-!
# Object workloads

`kvio.intent.v2` of `tools/kvio/intent2.py`: objects with versions, operations on them with their dependencies, and where the record
comes from. The words of the format are inductive types and its dicts have their keys once, so what is left to check is what
`validate_intent2` compares. Its checks stand in the order of the source.
-/

namespace EbpfSyscall

namespace Python

/-- The characters with a digit value that are not decimal digits: superscripts, circled digits and the like. -/
def otherDigits : List (Nat × Nat) :=
  [(0xB2, 0xB3), (0xB9, 0xB9), (0x1369, 0x1371), (0x19DA, 0x19DA), (0x2070, 0x2070), (0x2074, 0x2079), (0x2080, 0x2089),
    (0x2460, 0x2468), (0x2474, 0x247C), (0x2488, 0x2490), (0x24EA, 0x24EA), (0x24F5, 0x24FD), (0x24FF, 0x24FF), (0x2776, 0x277E),
    (0x2780, 0x2788), (0x278A, 0x2792), (0x10A40, 0x10A43), (0x10E60, 0x10E68), (0x11052, 0x1105A), (0x1F100, 0x1F10A)]

/-- `str.isdigit`: a text of at least one character, each with a digit value. -/
def isDigits (text : Text) : Bool :=
  !text.isEmpty && text.all fun c =>
    (digitValue c).isSome || otherDigits.any (fun range => range.1 ≤ c.toNat && c.toNat ≤ range.2)

end Python

namespace Kvio

open Checked

/-! ## The words of the format -/

inductive CaptureLevel where
  | generated
  | a1
  | api
  | request
  deriving DecidableEq, Repr

inductive MappingMethod where
  | declared
  | verified
  | heuristic
  deriving DecidableEq, Repr

/-- `complete` or `partial`. -/
inductive Completeness where
  | complete
  | partly
  deriving DecidableEq, Repr

inductive TimingModel where
  | absent
  | captured
  | synthetic
  deriving DecidableEq, Repr

/-- `OPS`. -/
inductive Verb where
  | store
  | load
  | release
  deriving DecidableEq, Repr

/-- The outcomes of an operation; the last six are those of file systems and object stores. -/
inductive Status where
  | success
  | miss
  | alreadyPresent
  | rejected
  | short
  | cancelled
  | error
  | eof
  | exists
  | notEmpty
  | denied
  | timeout
  | unknown
  deriving DecidableEq, Repr

inductive Tier where
  | storage
  | ram
  | unknown
  deriving DecidableEq, Repr

/-- A version of an object, as a record may write it: a number, or a text. -/
inductive Version where
  | int (i : Int)
  | str (s : Text)
  deriving DecidableEq, Repr

/-- `str(version)`. -/
def Version.text : Version → Text
  | .int i => Decimal.printInt i
  | .str s => s

namespace Intent2

/-- `CAPTURE_LEVELS`. -/
def captureLevels : List CaptureLevel := [.generated, .a1, .request]

/-- `OUTCOMES`. -/
def outcomes : List Status := [.success, .miss, .alreadyPresent, .rejected, .short, .cancelled, .error]

end Intent2

/-! ## The record -/

structure Provenance where
  captureLevel : CaptureLevel
  mappingMethod : MappingMethod
  status : Completeness
  /-- `completeness.notes`, which the validator does not look at. -/
  notes : Option (List Text)
  timingModel : TimingModel
  deriving DecidableEq, Repr

structure Engine where
  name : Text
  revision : Text
  layout : Dict
  deriving DecidableEq, Repr

structure Component where
  role : Text
  offset : Int
  length : Int
  deriving DecidableEq, Repr

structure Representation where
  codec : Text
  encodedBytes : Int
  logicalBytes : Option Int
  components : List Component
  deriving DecidableEq, Repr

structure ObjectVersion where
  representation : Text
  bytes : Int
  deriving DecidableEq, Repr

/-- The versions of one object by their text. -/
abbrev Versions := Assoc Text ObjectVersion

structure LiveItem where
  objectId : Text
  version : Version
  tier : Tier
  deriving DecidableEq, Repr

structure Range where
  offset : Int
  length : Int
  deriving DecidableEq, Repr

structure Operation where
  opId : Text
  seq : Int
  op : Verb
  objectId : Text
  version : Version
  range : Option Range
  stream : Option Text
  batchId : Option Text
  deps : List Text
  releaseNs : Option Int
  declaredDelayNs : Option Int
  requestedBytes : Int
  sourceOutcome : Option Status
  deriving DecidableEq, Repr

structure Timing where
  sidecar : Option Text
  sidecarSha256 : Option Text
  deriving DecidableEq, Repr

structure Intent2 where
  provenance : Provenance
  engine : Engine
  representations : Assoc Text Representation
  objects : Assoc Text Versions
  /-- `initial_state.live`. -/
  live : List LiveItem
  operations : List Operation
  health : Dict
  timing : Timing
  deriving DecidableEq, Repr

/-- `intent["objects"][object_id]["versions"][str(version)]`, when it is there. -/
def Intent2.version? (intent : Intent2) (objectId : Text) (version : Version) : Option ObjectVersion :=
  (intent.objects.get objectId).bind (fun versions => versions.get version.text)

/-! ## Building -/

/-- `new_intent`. -/
def newIntent (captureLevel : CaptureLevel) (mappingMethod : MappingMethod) (timingModel : TimingModel) (engine : Engine)
    (completeness : Completeness := .complete) (notes : List Text := []) : Intent2 where
  provenance := ⟨captureLevel, mappingMethod, completeness, some notes, timingModel⟩
  engine := engine
  representations := .empty
  objects := .empty
  live := []
  operations := []
  health := []
  timing := ⟨none, none⟩

/-- `add_representation`, with one component that is the whole payload. -/
def addRepresentation (intent : Intent2) (repId codec : Text) (encodedBytes : Int) : Intent2 :=
  let rep : Representation := ⟨codec, encodedBytes, none, [⟨"payload".toList, 0, encodedBytes⟩]⟩
  { intent with representations := intent.representations.set repId rep }

/-- `add_object_version`. -/
def addObjectVersion (intent : Intent2) (objectId : Text) (version : Int) (representation : Text) : Except PyError Intent2 := do
  let rep ← require (intent.representations.get representation) (.keyError (String.ofList representation))
  let versions := ((intent.objects.get objectId).getD .empty).set (Version.int version).text ⟨representation, rep.encodedBytes⟩
  pure { intent with objects := intent.objects.set objectId versions }

/-- The bytes an operation asks for: what the caller says, the length of the range, nothing for a release, or the whole object. -/
def requestedOf (intent : Intent2) (op : Verb) (objectId : Text) (version : Int) (range : Option Range)
    (requestedBytes : Option Int) : Except PyError Int :=
  match requestedBytes, range, op with
  | some bytes, _, _ => .ok bytes
  | none, some range, _ => .ok range.length
  | none, none, .release => .ok 0
  | none, none, _ => (require (intent.version? objectId (.int version)) (.keyError (String.ofList objectId))).map ObjectVersion.bytes

/-- `add_operation`. -/
def addOperation (intent : Intent2) (opId : Text) (op : Verb) (objectId : Text) (version : Int) (stream : Option Text)
    (deps : List Text) (range : Option Range := none) (batchId : Option Text := none) (releaseNs : Option Int := none)
    (sourceOutcome : Option Status := none) (requestedBytes : Option Int := none) : Except PyError Intent2 := do
  let requested ← requestedOf intent op objectId version range requestedBytes
  let operation : Operation :=
    { opId, seq := intent.operations.length, op, objectId, version := .int version, range, stream, batchId, deps, releaseNs,
      declaredDelayNs := none, requestedBytes := requested, sourceOutcome }
  pure { intent with operations := intent.operations ++ [operation] }

/-! ## Validating -/

namespace Intent2

/-- `repr` of a text that needs no escapes. -/
def quoted (text : Text) : String := s!"'{String.ofList text}'"

/-- `_int`. -/
def checkInt (value : Int) (path : String) (minimum : Int := 0) : Except PyError Unit :=
  ensure (minimum ≤ value) (.intent2Error s!"{path} must be an integer >= {minimum}")

/-- `_str`. -/
def checkStr (value : Text) (path : String) : Except PyError Unit :=
  ensure (value ≠ []) (.intent2Error s!"{path} must be a non-empty string")

/-- What the provenance may claim. -/
def checkProvenance (provenance : Provenance) : Except PyError Unit := do
  ensure (provenance.captureLevel ∈ captureLevels)
    (.intent2Error "provenance.capture_level must be one of ('generated', 'A1', 'request')")
  ensure (¬(provenance.captureLevel = .a1 ∧ provenance.mappingMethod = .heuristic))
    (.intent2Error "an engine-boundary capture cannot have a heuristic object mapping")
  ensure (¬(provenance.captureLevel = .generated ∧ provenance.timingModel = .captured))
    (.intent2Error "a generated workload has no captured timing")

def checkEngine (engine : Engine) : Except PyError Unit := do
  checkStr engine.name "engine.name"
  checkStr engine.revision "engine.revision"

/-- One component; the state is the number of bytes covered so far. -/
def componentStep (path : String) (covered : Int) (_ : Nat) (component : Component) : Except PyError Int := do
  checkStr component.role s!"{path}.components.role"
  checkInt component.offset s!"{path}.components.offset"
  checkInt component.length s!"{path}.components.length" 1
  ensure (component.offset = covered) (.intent2Error s!"{path}.components must tile the object without gaps")
  pure (covered + component.length)

def checkRepresentation (entry : Text × Representation) : Except PyError Unit := do
  let path := s!"representations[{String.ofList entry.1}]"
  checkStr entry.1 "representation id"
  checkStr entry.2.codec s!"{path}.codec"
  checkInt entry.2.encodedBytes s!"{path}.encoded_bytes" 1
  whenSome entry.2.logicalBytes fun bytes => checkInt bytes s!"{path}.logical_bytes"
  ensure (entry.2.components ≠ []) (.intent2Error s!"{path}.components must be a non-empty list")
  let covered ← foldFrom (componentStep path) 0 0 entry.2.components
  ensure (covered = entry.2.encodedBytes)
    (.intent2Error s!"{path}.components cover {covered} bytes, not {entry.2.encodedBytes}")

def checkVersion (representations : Assoc Text Representation) (objectId : Text) (entry : Text × ObjectVersion) :
    Except PyError Unit := do
  ensure (Python.isDigits entry.1 = true)
    (.intent2Error s!"objects[{String.ofList objectId}] version {quoted entry.1} must be an integer")
  let path := s!"objects[{String.ofList objectId}].versions[{String.ofList entry.1}]"
  let rep ← require (representations.get entry.2.representation) (.intent2Error s!"{path} names an unknown representation")
  ensure (entry.2.bytes = rep.encodedBytes) (.intent2Error s!"{path}.bytes disagrees with its representation")

def checkObject (representations : Assoc Text Representation) (entry : Text × Versions) : Except PyError Unit := do
  checkStr entry.1 "object id"
  ensure (entry.2.entries ≠ []) (.intent2Error s!"objects[{String.ofList entry.1}].versions must be non-empty")
  checkAll entry.2.entries (checkVersion representations entry.1)

def checkLive (intent : Intent2) (item : LiveItem) : Except PyError Unit :=
  ensure ((intent.version? item.objectId item.version).isSome = true)
    (.intent2Error
      s!"initial_state names unknown object {quoted item.objectId} version {String.ofList item.version.text}")

def checkRange (path : String) (size : Int) (verb : Verb) (range : Range) : Except PyError Unit := do
  checkInt range.offset s!"{path}.range.offset"
  checkInt range.length s!"{path}.range.length" 1
  ensure (range.offset + range.length ≤ size) (.intent2Error s!"{path}.range exceeds the object")
  ensure (verb = .load) (.intent2Error s!"{path}: only loads take a range")

/-- The release time of an operation and the timing model. -/
def checkRelease (path : String) (timingModel : TimingModel) (releaseNs : Option Int) : Except PyError Unit :=
  match releaseNs with
  | some release => do
    checkInt release s!"{path}.release_ns"
    ensure (timingModel ≠ .absent) (.intent2Error s!"{path} carries release_ns but the timing model is absent")
  | none => ensure (timingModel ≠ .captured) (.intent2Error s!"{path} lacks release_ns under a captured timing model")

/-- What the loop over the operations remembers: the ids so far, and the object versions that are visible. -/
structure Seen where
  ids : List Text
  stored : List (Text × Text)
  deriving DecidableEq, Repr

/-- The outcomes that need no visible object. -/
def excused : List Status := [.miss, .cancelled, .error, .rejected]

/-- What an operation does to the visible versions; a load needs its version to be one of them. -/
def visibility (path : String) (stored : List (Text × Text)) (operation : Operation) : Except PyError (List (Text × Text)) :=
  let key := (operation.objectId, operation.version.text)
  match operation.op with
  | .store => .ok (key :: stored)
  | .load => do
    ensure (key ∈ stored ∨ operation.sourceOutcome.any (fun outcome => outcome ∈ excused) = true)
      (.intent2Error (s!"{path} loads {quoted operation.objectId} v{String.ofList operation.version.text} before any store or " ++
        "initial state; declare source_outcome=miss if that is what happened"))
    pure stored
  | .release => .ok (stored.filter (· ≠ key))

/-- One operation. -/
def operationStep (intent : Intent2) (seen : Seen) (seq : Nat) (operation : Operation) : Except PyError Seen := do
  let path := s!"operations[{seq}]"
  ensure (operation.seq = seq) (.intent2Error s!"{path}.seq must equal its position")
  checkStr operation.opId s!"{path}.op_id"
  ensure (operation.opId ∉ seen.ids) (.intent2Error s!"{path}.op_id {quoted operation.opId} is not unique")
  let version ← require (intent.version? operation.objectId operation.version)
    (.intent2Error s!"{path} names unknown object {quoted operation.objectId} version {String.ofList operation.version.text}")
  whenSome operation.range (checkRange path version.bytes operation.op)
  checkInt operation.requestedBytes s!"{path}.requested_bytes"
  ensure (operation.stream ≠ none) (.intent2Error s!"{path}.stream is required")
  -- The id of the operation itself is known by now, but not as that of an earlier one.
  checkAll operation.deps fun d =>
    ensure (d ∈ seen.ids) (.intent2Error s!"{path} depends on {quoted d}, which is not an earlier operation")
  whenSome operation.sourceOutcome fun outcome =>
    ensure (outcome ∈ outcomes) (.intent2Error s!"{path}.source_outcome must be one of the outcomes")
  checkRelease path intent.provenance.timingModel operation.releaseNs
  whenSome operation.declaredDelayNs fun delay => checkInt delay s!"{path}.declared_delay_ns"
  let stored ← visibility path seen.stored operation
  pure ⟨seen.ids ++ [operation.opId], stored⟩

def checkTiming (timingModel : TimingModel) (timing : Timing) : Except PyError Unit :=
  ensure (timingModel = .captured → timing.sidecar.any (· ≠ []) = true ∧ timing.sidecarSha256.any (· ≠ []) = true)
    (.intent2Error "a captured timing model requires a timing sidecar bound by digest")

end Intent2

open Intent2

/-- `validate_intent2`. -/
def validateIntent2 (intent : Intent2) : Except PyError Unit := do
  checkProvenance intent.provenance
  checkEngine intent.engine
  ensure (intent.representations.entries ≠ []) (.intent2Error "representations must be a non-empty object")
  checkAll intent.representations.entries checkRepresentation
  checkAll intent.objects.entries (checkObject intent.representations)
  checkAll intent.live (checkLive intent)
  let _ ← foldFrom (operationStep intent) 0 ⟨[], intent.live.map (fun item => (item.objectId, item.version.text))⟩
    intent.operations
  checkTiming intent.provenance.timingModel intent.timing

end Kvio

end EbpfSyscall
