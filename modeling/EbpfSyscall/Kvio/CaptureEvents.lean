import EbpfSyscall.Kvio.Intent2

/-!
# Captures of object operations

`normalize_capture` of `tools/kvio/capture_events.py`: the events that a recorder wrote become an object workload. An event is a JSON
object; what the normalizer reads of it is typed here, and a key that may be missing is an `Option`. An object id, a time or a verb of
the wrong JSON type is not representable.
-/

namespace EbpfSyscall

namespace Python

/-- `bool(value)`. -/
def truthy : Json → Bool
  | .null => false
  | .bool b => b
  | .int i => i != 0
  | .float (.finite q) => q != 0
  | .float _ => true
  | .str s => !s.isEmpty
  | .arr items => !items.isEmpty
  | .obj entries => !entries.isEmpty

end Python

namespace Kvio

open Checked

/-! ## Events -/

/-- A representation as an event describes it. -/
structure RepSpec where
  codec : Option Text
  encodedBytes : Option Int
  deriving DecidableEq, Repr

/-- An object that was live when the capture began. -/
structure LiveSpec where
  objectId : Text
  version : Option Int
  representation : Option RepSpec
  bytes : Option Int
  tier : Option Tier
  deriving DecidableEq, Repr

/-- What an operation, or an item of a batch, is about. -/
structure ItemSpec where
  objectId : Text
  version : Option Int := none
  representation : Option RepSpec := none
  range : Option Range := none
  requestedBytes : Option Int := none
  deriving DecidableEq, Repr

/-- An operation, or a batch of them. -/
inductive Body where
  | one (item : ItemSpec)
  | batch (items : List ItemSpec)
  deriving DecidableEq, Repr

/-- `op_begin`. -/
structure Begin where
  opId : Text
  tsNs : Int
  op : Verb
  stream : Option Text
  batchId : Option Text
  deps : List Text
  body : Body
  deriving DecidableEq, Repr

/-- The outcome of an operation or of an item. -/
structure ItemEnd where
  outcome : Option Status
  completedBytes : Option Int
  deriving DecidableEq, Repr

/-- `op_end`. -/
structure End where
  opId : Text
  tsNs : Int
  result : ItemEnd
  items : Option (List ItemEnd)
  deriving DecidableEq, Repr

/-- `start`, as far as the normalizer reads it. -/
structure Start where
  schema : Option Text
  name : Option Text
  revision : Option Text
  layout : Option Dict
  deriving DecidableEq, Repr

inductive EventKind where
  | start (start : Start)
  | objectState (live : List LiveSpec)
  | opBegin (b : Begin)
  | opEnd (e : End)
  | marker
  /-- `end`, with the health counters. -/
  | stop (health : Option Dict)
  | other (kind : Option Text)
  deriving DecidableEq, Repr

structure Event where
  producerSeq : Option Int
  kind : EventKind
  deriving DecidableEq, Repr

/-- One line of the timing sidecar. -/
structure SidecarLine where
  opId : Text
  beginNs : Int
  endNs : Option Int
  outcome : Option Status
  completedBytes : Option Int
  deriving DecidableEq, Repr

/-- What normalizing needs of the host. -/
structure CaptureHost where
  /-- The SHA-256 of the lines of the sidecar. -/
  sidecarSha256 : List SidecarLine → Text
  /-- `str(value)`. -/
  str : Json → Text
  sidecarSha256_ne_nil : ∀ lines, sidecarSha256 lines ≠ []

namespace Capture

/-- `SCHEMA`. -/
def schema : Text := "kvio.capture-events.v1".toList

/-! ## Collecting -/

/-- What the loop over the events collects. -/
structure Collected where
  begins : List (Option Int × Begin) := []
  ends : List End := []
  initial : List LiveSpec := []
  seqs : List Int := []
  ended : Option (Option Dict) := none
  deriving DecidableEq, Repr

/-- The sequence number of the event, if it has one. -/
def Collected.count (collected : Collected) (event : Event) : Collected :=
  match event.producerSeq with
  | none => collected
  | some seq => { collected with seqs := collected.seqs ++ [seq] }

/-- One event after the start. -/
def collect (collected : Collected) (event : Event) : Except PyError Collected :=
  let collected := collected.count event
  match event.kind with
  | .objectState live => .ok { collected with initial := collected.initial ++ live }
  | .opBegin b => do
    ensure (b.opId ∉ collected.begins.map (fun entry => entry.2.opId))
      (.captureError s!"op_id {Intent2.quoted b.opId} begun twice")
    pure { collected with begins := collected.begins ++ [(event.producerSeq, b)] }
  | .opEnd e => do
    ensure (e.opId ∉ collected.ends.map End.opId) (.captureError s!"op_id {Intent2.quoted e.opId} ended twice")
    pure { collected with ends := collected.ends ++ [e] }
  | .stop health => .ok { collected with ended := some health }
  | .marker => .ok collected
  | .start _ => .error (.captureError "unknown event kind 'start'")
  | .other kind => .error (.captureError ("unknown event kind " ++ kind.elim "None" Intent2.quoted))

/-! ## Completeness -/

/-- The adjacent sequence numbers that do not follow each other. -/
def gaps (seqs : List Int) : Nat :=
  let sorted := seqs.insertionSort (· ≤ ·)
  (sorted.zip sorted.tail).countP (fun pair => pair.2 ≠ pair.1 + 1)

namespace Collected

variable (collected : Collected)

def beginIds : List Text := collected.begins.map (fun entry => entry.2.opId)

/-- The ends without a begin, and the begins without an end. -/
def unmatchedEnds : List Text := (collected.ends.map End.opId).filter (fun opId => opId ∉ collected.beginIds)

def openOps : List Text := collected.beginIds.filter (fun opId => opId ∉ collected.ends.map End.opId)

/-- The health counters of the end marker, and those that the normalizer adds. -/
def health : Dict :=
  ((((collected.ended.bind id).getD []).set "begins" (.int collected.begins.length)).set "ends"
    (.int collected.ends.length)).set "sequence_gaps" (.int (gaps collected.seqs))

/-- `health.get("dropped")` if it says that events were dropped. -/
def dropped : Option Json := (collected.health.get "dropped").filter Python.truthy

/-- Why a capture is not complete. -/
def notes (Γ : CaptureHost) : List Text :=
  (if collected.ended = none then ["no end marker: the recorder did not drain".toList] else []) ++
  (if collected.unmatchedEnds ≠ [] then
    [Decimal.print collected.unmatchedEnds.length ++ " end events without a begin".toList] else []) ++
  (if collected.openOps ≠ [] then [Decimal.print collected.openOps.length ++ " operations never ended".toList] else []) ++
  (collected.dropped.elim [] fun value => [Γ.str value ++ " events dropped by the recorder".toList]) ++
  (if gaps collected.seqs ≠ 0 then [Decimal.print (gaps collected.seqs) ++ " producer sequence gaps".toList] else [])

def completeness (Γ : CaptureHost) : Completeness :=
  if collected.notes Γ = [] ∧ collected.unmatchedEnds = [] ∧ collected.openOps = [] then .complete else .partly

end Collected

/-! ## Objects and versions -/

/-- `_rep_id`: the id of a representation, its codec and its size. -/
def repId (representation : Option RepSpec) (size : Option Int) : Except PyError (Text × Text × Int) := do
  let codec := (representation.bind RepSpec.codec).getD "opaque".toList
  let bytes ← require ((representation.bind RepSpec.encodedBytes).or size) .typeError
  pure (codec ++ [':'] ++ Decimal.printInt bytes, codec, bytes)

/-- What the loops of the normalizer build. -/
structure Draft where
  intent : Intent2
  /-- `versions`: the current version of an object. -/
  versions : Text → Option Int := fun _ => none
  lastOnObject : Text → Option Text := fun _ => none
  sidecar : List SidecarLine := []

/-- A representation that is not there yet is added. -/
def withRepresentation (intent : Intent2) (rep : Text × Text × Int) : Intent2 :=
  if rep.1 ∈ intent.representations.keys then intent else addRepresentation intent rep.1 rep.2.1 rep.2.2

/-- One object of the initial state. -/
def liveStep (draft : Draft) (item : LiveSpec) : Except PyError Draft := do
  let rep ← repId item.representation item.bytes
  let version := item.version.getD 1
  let intent ← addObjectVersion (withRepresentation draft.intent rep) item.objectId version rep.1
  let live := intent.live ++ [⟨item.objectId, .int version, item.tier.getD .storage⟩]
  pure { draft with
    intent := { intent with live }
    versions := Function.update draft.versions item.objectId (some version) }

/-- The version an item is about: the one it names, or for a store the next one, unless the object was there already. -/
def versionOf (verb : Verb) (item : ItemSpec) (outcome : Option Status) (known : Option Int) : Int :=
  match item.version, verb with
  | some version, _ => version
  | none, .store => if outcome = some .alreadyPresent then known.getD 1 else known.getD 0 + 1
  | none, _ => known.getD 1

/-- The object version of a store is added if it is not there yet. -/
def describeStored (intent : Intent2) (item : ItemSpec) (version : Int) : Except PyError Intent2 := do
  let rep ← repId item.representation item.requestedBytes
  let intent := withRepresentation intent rep
  if (intent.version? item.objectId (.int version)).isSome = true then pure intent
  else addObjectVersion intent item.objectId version rep.1

/-- The object of a load or a release that was never stored is added. -/
def describeOther (intent : Intent2) (item : ItemSpec) (version : Int) : Except PyError Intent2 :=
  if item.objectId ∈ intent.objects.keys then .ok intent
  else do
    let size := if item.requestedBytes.getD 0 = 0 then 1 else item.requestedBytes.getD 0
    let rep ← repId item.representation (some size)
    addObjectVersion (withRepresentation intent rep) item.objectId version rep.1

def describe (intent : Intent2) (verb : Verb) (item : ItemSpec) (version : Int) : Except PyError Intent2 :=
  match verb with
  | .store => describeStored intent item version
  | .load | .release => describeOther intent item version

/-! ## Operations -/

end Capture

/-- The items of an operation. -/
def Begin.items (b : Begin) : List ItemSpec :=
  match b.body with
  | .one item => [item]
  | .batch items => items

/-- The id of an item: a batch numbers its items. -/
def Begin.itemId (b : Begin) (i : Nat) : Text :=
  match b.body with
  | .one _ => b.opId
  | .batch _ => b.opId ++ ['/'] ++ Decimal.print i

/-- `expanded[op_id]`: what a dependency on the operation means. -/
def Begin.itemIds (b : Begin) : List Text := (List.range b.items.length).map b.itemId

namespace Capture

/-- `expand_deps`. -/
def expandDeps (ordered : List Begin) (deps : List Text) : List Text :=
  deps.flatMap fun d => ((ordered.find? (fun b => b.opId = d)).map Begin.itemIds).getD [d]

/-- The outcomes of the items, where they were recorded. -/
def itemEnds (b : Begin) (e : Option End) : Except PyError (List (Option ItemEnd)) :=
  match b.body with
  | .one _ => .ok [e.map End.result]
  | .batch items =>
    match (e.bind End.items).filter (· ≠ []) with
    | none => .ok (List.replicate items.length none)
    | some ends => do
      ensure (ends.length = items.length)
        (.captureError s!"batch {Intent2.quoted b.opId} ended with {ends.length} items, began with {items.length}")
      pure (ends.map some)

/-- The dependencies of an item: those of its operation, and the operation before it on the same object. -/
def itemDeps (ordered : List Begin) (b : Begin) (last : Option Text) : List Text :=
  let deps := expandDeps ordered b.deps
  match last with
  | none => deps
  | some last => if last ∈ deps then deps else deps ++ [last]

/-- `b.get("batch_id") or …`. -/
def batchIdOf (b : Begin) : Option Text :=
  match b.batchId.filter (· ≠ []), b.body with
  | some batchId, _ => some batchId
  | none, .batch _ => some b.opId
  | none, .one _ => none

/-- The outcome of an item; an operation that never ended is an error. -/
def outcomeOf (e : Option End) (itemEnd : Option ItemEnd) : Option Status :=
  let outcome := itemEnd.bind ItemEnd.outcome
  if e = none then some (outcome.getD .error) else outcome

/-- One item of an operation. -/
def itemStep (ordered : List Begin) (b : Begin) (e : Option End) (draft : Draft) (i : Nat) (entry : ItemSpec × Option ItemEnd) :
    Except PyError Draft := do
  let item := entry.1
  let version := versionOf b.op item (entry.2.bind ItemEnd.outcome) (draft.versions item.objectId)
  let described ← describe draft.intent b.op item version
  let opId := b.itemId i
  let outcome := outcomeOf e entry.2
  let deps := itemDeps ordered b (draft.lastOnObject item.objectId)
  let intent ← addOperation described opId b.op item.objectId version b.stream deps item.range (batchIdOf b) (some b.tsNs) outcome
    item.requestedBytes
  let line : SidecarLine := ⟨opId, b.tsNs, e.map End.tsNs, outcome, entry.2.bind ItemEnd.completedBytes⟩
  pure { intent
         versions := if b.op = .store then Function.update draft.versions item.objectId (some version) else draft.versions
         lastOnObject := Function.update draft.lastOnObject item.objectId (some opId)
         sidecar := draft.sidecar ++ [line] }

/-- One operation or batch. -/
def beginStep (ordered : List Begin) (ends : List End) (draft : Draft) (b : Begin) : Except PyError Draft := do
  let e := ends.find? (fun e => e.opId = b.opId)
  let itemEnds ← itemEnds b e
  foldFrom (itemStep ordered b e) 0 draft (b.items.zip itemEnds)

/-- The begins in the order of their times, and of their sequence numbers where the times are equal. -/
def order (begins : List (Option Int × Begin)) : Except PyError (List Begin) := do
  let keyed ← begins.mapM fun entry => (require entry.1 (.keyError "producer_seq")).map (fun seq => (seq, entry.2))
  pure ((keyed.insertionSort fun a b => a.2.tsNs < b.2.tsNs ∨ (a.2.tsNs = b.2.tsNs ∧ a.1 ≤ b.1)).map Prod.snd)

/-- What the provenance says of the order of operations on one object. -/
def orderNote : Text := "same-object operations ordered by identity; stream order as the adapter declared it".toList

/-- The record before any object or operation. -/
def blank (Γ : CaptureHost) (start : Start) (collected : Collected) : Intent2 :=
  newIntent .a1 .declared .captured
    ⟨start.name.getD "unknown".toList, start.revision.getD "unknown".toList, start.layout.getD []⟩
    (collected.completeness Γ) (collected.notes Γ)

/-- The record with its last note, its timing and its health. -/
def finish (Γ : CaptureHost) (collected : Collected) (sidecarPath : Option Text) (draft : Draft) : Intent2 :=
  let provenance := { draft.intent.provenance with notes := some (collected.notes Γ ++ [orderNote]) }
  let sidecar := (sidecarPath.filter (· ≠ [])).getD "timing.jsonl".toList
  { draft.intent with
    provenance
    health := collected.health
    timing := ⟨some sidecar, some (Γ.sidecarSha256 draft.sidecar)⟩ }

end Capture

open Capture

/-- `normalize_capture`: the record and the lines of its sidecar. -/
def normalizeCapture (Γ : CaptureHost) (events : List Event) (sidecarPath : Option Text := none) :
    Except PyError (Intent2 × List SidecarLine) :=
  match events with
  | ⟨_, .start start⟩ :: events => do
    ensure (start.schema = some schema)
      (.captureError ("unsupported capture schema " ++ start.schema.elim "None" Intent2.quoted))
    let collected ← events.foldlM collect {}
    let draft ← collected.initial.foldlM liveStep { intent := blank Γ start collected }
    let ordered ← order collected.begins
    let draft ← ordered.foldlM (beginStep ordered collected.ends) draft
    let intent := finish Γ collected sidecarPath draft
    validateIntent2 intent
    pure (intent, draft.sidecar)
  | _ => .error (.captureError "capture must begin with a start event")

end Kvio

end EbpfSyscall
