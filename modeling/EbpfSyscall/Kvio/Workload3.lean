import EbpfSyscall.Kvio.Executor

/-!
# Typed workloads

`kvio.workload.v3` of `tools/kvio/workload3.py`: one envelope with the typed calls of three families, what `validate_workload` asks of
it, and `from_intent2`, which carries a v2 record into it. What a node says of its tier, and the digest of the source, are read by
nothing here and left out.
-/

namespace EbpfSyscall.Kvio

open Checked

/-! ## The words of the format -/

/-- `FAMILIES`. -/
inductive Family where
  | object
  | posix
  | s3
  deriving DecidableEq, Repr

/-- `RELEASE_PROVENANCE`. -/
inductive ReleaseProvenance where
  | none
  | observedSubmission
  | measuredArrival
  | declared
  deriving DecidableEq, Repr

/-- `DEP_KINDS`. -/
inductive DepKind where
  | program
  | sync
  | observed
  | identity
  deriving DecidableEq, Repr

inductive NodeKind where
  | file
  | dir
  | object
  deriving DecidableEq, Repr

/-- `OPEN_FLAGS`. -/
inductive OpenFlag where
  | rd
  | wr
  | rdwr
  | creat
  | excl
  | trunc
  | append
  | direct
  | sync
  deriving DecidableEq, Repr

/-- The calls of all families. -/
inductive Call where
  | store
  | load
  | release
  | exists
  | openPath
  | close
  | pread
  | pwrite
  | read
  | write
  | fstat
  | stat
  | readdir
  | rename
  | unlink
  | mkdir
  | rmdir
  | truncate
  | ftruncate
  | fsync
  | fdatasync
  | put
  | get
  | head
  | list
  | delete
  | mpuCreate
  | mpuPart
  | mpuComplete
  | mpuAbort
  deriving DecidableEq, Repr

/-- The names of the arguments. -/
inductive Field where
  | node
  | size
  | path
  | flags
  | handle
  | offset
  | length
  | newPath
  | key
  | pre
  | upload
  | part
  deriving DecidableEq, Repr

def Family.word : Family → String
  | .object => "object"
  | .posix => "posix"
  | .s3 => "s3"

def Call.word : Call → String
  | .store => "store"
  | .load => "load"
  | .release => "release"
  | .exists => "exists"
  | .openPath => "open"
  | .close => "close"
  | .pread => "pread"
  | .pwrite => "pwrite"
  | .read => "read"
  | .write => "write"
  | .fstat => "fstat"
  | .stat => "stat"
  | .readdir => "readdir"
  | .rename => "rename"
  | .unlink => "unlink"
  | .mkdir => "mkdir"
  | .rmdir => "rmdir"
  | .truncate => "truncate"
  | .ftruncate => "ftruncate"
  | .fsync => "fsync"
  | .fdatasync => "fdatasync"
  | .put => "put"
  | .get => "get"
  | .head => "head"
  | .list => "list"
  | .delete => "delete"
  | .mpuCreate => "mpu_create"
  | .mpuPart => "mpu_part"
  | .mpuComplete => "mpu_complete"
  | .mpuAbort => "mpu_abort"

def Field.word : Field → String
  | .node => "node"
  | .size => "size"
  | .path => "path"
  | .flags => "flags"
  | .handle => "handle"
  | .offset => "offset"
  | .length => "length"
  | .newPath => "new_path"
  | .key => "key"
  | .pre => "prefix"
  | .upload => "upload"
  | .part => "part"

/-- `CALLS`: the calls of a family and the fields each must carry. -/
def calls : Family → List (Call × List Field)
  | .object => [(.store, [.node, .size]), (.load, [.node]), (.release, [.node]), (.exists, [.node])]
  | .posix =>
    [(.openPath, [.path, .flags, .handle]), (.close, [.handle]), (.pread, [.handle, .offset, .length]),
      (.pwrite, [.handle, .offset, .length]), (.read, [.handle, .length]), (.write, [.handle, .length]), (.fstat, [.handle]),
      (.stat, [.path]), (.readdir, [.path]), (.rename, [.path, .newPath]), (.unlink, [.path]), (.mkdir, [.path]), (.rmdir, [.path]),
      (.truncate, [.path, .size]), (.ftruncate, [.handle, .size]), (.fsync, [.handle]), (.fdatasync, [.handle])]
  | .s3 =>
    [(.put, [.key, .size]), (.get, [.key]), (.head, [.key]), (.list, [.pre]), (.delete, [.key]), (.mpuCreate, [.key, .upload]),
      (.mpuPart, [.key, .upload, .part, .size]), (.mpuComplete, [.key, .upload]), (.mpuAbort, [.key, .upload])]

/-! ## The record -/

structure Args where
  node : Option Text := none
  size : Option Int := none
  path : Option Text := none
  flags : Option (List OpenFlag) := none
  handle : Option Text := none
  offset : Option Int := none
  length : Option Int := none
  newPath : Option Text := none
  key : Option Text := none
  pre : Option Text := none
  upload : Option Text := none
  part : Option Int := none
  deriving DecidableEq, Repr

/-- `field in args`. -/
def Args.has (args : Args) : Field → Bool
  | .node => args.node.isSome
  | .size => args.size.isSome
  | .path => args.path.isSome
  | .flags => args.flags.isSome
  | .handle => args.handle.isSome
  | .offset => args.offset.isSome
  | .length => args.length.isSome
  | .newPath => args.newPath.isSome
  | .key => args.key.isSome
  | .pre => args.pre.isSome
  | .upload => args.upload.isSome
  | .part => args.part.isSome

structure Provenance3 where
  captureLevel : CaptureLevel
  mappingMethod : MappingMethod
  status : Completeness
  /-- `completeness.notes`, which the validator does not look at. -/
  notes : Option (List Text)
  timingModel : TimingModel
  releaseProvenance : ReleaseProvenance
  deriving DecidableEq, Repr

structure Engine3 where
  family : Text
  name : Text
  revision : Text
  config : Dict
  deriving DecidableEq, Repr

structure Node where
  kind : NodeKind
  incarnation : Int := 1
  size : Int := 0
  deriving DecidableEq, Repr

structure DirEntry where
  path : Text
  node : Text
  deriving DecidableEq, Repr

structure Dep where
  op : Text
  kind : DepKind
  deriving DecidableEq, Repr

structure Operation3 where
  opId : Text
  seq : Int
  family : Family
  call : Call
  args : Args
  stream : Option Text
  batchId : Option Text := none
  attempt : Int := 1
  deps : List Dep
  releaseNs : Option Int
  declaredDelayNs : Option Int
  /-- `expected.outcome` and `expected.outcomes`. -/
  outcome : Option Status := none
  outcomes : Option (List Status) := none
  deriving DecidableEq, Repr

structure Workload3 where
  provenance : Provenance3
  engine : Engine3
  contentProfile : Text
  nodes : Assoc Text Node
  entries : List DirEntry
  /-- The node of every handle that is open before the first operation. -/
  handles : Assoc Text Text
  /-- The keys of `objects`. -/
  objects : List Text
  operations : List Operation3
  health : Dict
  timing : Timing
  deriving DecidableEq, Repr

/-! ## Building -/

/-- `new_workload`. -/
def newWorkload (captureLevel : CaptureLevel) (mappingMethod : MappingMethod) (timingModel : TimingModel)
    (releaseProvenance : ReleaseProvenance) (engine : Engine3) (completeness : Completeness := .complete) (notes : List Text := [])
    (contentProfile : Text := "incompressible".toList) : Workload3 where
  provenance := ⟨captureLevel, mappingMethod, completeness, some notes, timingModel, releaseProvenance⟩
  engine := engine
  contentProfile := contentProfile
  nodes := .empty
  entries := []
  handles := .empty
  objects := []
  operations := []
  health := []
  timing := ⟨none, none⟩

/-- `add_node`. -/
def addNode (wl : Workload3) (nodeId : Text) (kind : NodeKind) (incarnation size : Int) : Workload3 :=
  { wl with nodes := wl.nodes.set nodeId ⟨kind, incarnation, size⟩ }

/-- `add_entry`. -/
def addEntry (wl : Workload3) (path nodeId : Text) : Workload3 := { wl with entries := wl.entries ++ [⟨path, nodeId⟩] }

/-- `add_op`; the position is that of the list. -/
def addOp (wl : Workload3) (operation : Operation3) : Except PyError Workload3 := do
  ensure (operation.call ∈ (calls operation.family).map Prod.fst)
    (.workload3Error s!"unknown call {operation.family.word}.{operation.call.word}")
  pure { wl with operations := wl.operations ++ [{ operation with seq := wl.operations.length }] }

/-! ## Validating -/

namespace Workload3

/-- `_int`. -/
def checkInt (value : Int) (path : String) (minimum : Int := 0) : Except PyError Unit :=
  ensure (minimum ≤ value) (.workload3Error s!"{path} must be an integer >= {minimum}")

/-- `_str`. -/
def checkStr (value : Text) (path : String) : Except PyError Unit :=
  ensure (value ≠ []) (.workload3Error s!"{path} must be a non-empty string")

/-- The path does not start at the root and never goes up. -/
def TraversalFree (path : Text) : Prop := path.head? ≠ some '/' ∧ "..".toList ∉ path.splitOn '/'

instance (path : Text) : Decidable (TraversalFree path) := inferInstanceAs (Decidable (_ ∧ _))

/-- What the provenance may claim. -/
def checkProvenance (provenance : Provenance3) : Except PyError Unit := do
  ensure (¬(provenance.timingModel = .captured ∧ provenance.releaseProvenance = .none))
    (.workload3Error "captured timing must say what its release times are")
  ensure (¬(provenance.timingModel = .absent ∧ provenance.releaseProvenance ≠ .none))
    (.workload3Error "absent timing cannot claim release provenance")
  ensure (¬(provenance.captureLevel ∈ [CaptureLevel.a1, .api] ∧ provenance.mappingMethod = .heuristic))
    (.workload3Error "an API-boundary capture cannot have a heuristic mapping")

def checkEngine (engine : Engine3) : Except PyError Unit := do
  checkStr engine.family "engine.family"
  checkStr engine.name "engine.name"
  checkStr engine.revision "engine.revision"

def checkNode (entry : Text × Node) : Except PyError Unit := do
  checkStr entry.1 "node id"
  checkInt entry.2.incarnation s!"nodes[{String.ofList entry.1}].incarnation" 1
  checkInt entry.2.size s!"nodes[{String.ofList entry.1}].size"

/-- One entry; the state is the list of the paths so far. -/
def entryStep (nodes : Assoc Text Node) (paths : List Text) (_ : Nat) (entry : DirEntry) : Except PyError (List Text) := do
  checkStr entry.path "entry.path"
  ensure (TraversalFree entry.path)
    (.workload3Error s!"entry path {Intent2.quoted entry.path} must be relative and traversal-free")
  ensure (entry.node ∈ nodes.keys) (.workload3Error s!"entry {Intent2.quoted entry.path} names unknown node")
  ensure (entry.path ∉ paths) (.workload3Error s!"entry {Intent2.quoted entry.path} listed twice")
  pure (paths ++ [entry.path])

def checkHandle (nodes : Assoc Text Node) (entry : Text × Text) : Except PyError Unit :=
  ensure (entry.2 ∈ nodes.keys) (.workload3Error s!"handle {Intent2.quoted entry.1} names unknown node")

/-- What the loop over the operations remembers: the ids so far and the handles that are open. -/
structure Seen where
  ids : List Text
  openHandles : List Text
  deriving DecidableEq, Repr

/-- The call is one of its family and has its fields, and the numbers and paths among them are in form. -/
def checkArgs (wl : Workload3) (path : String) (operation : Operation3) : Except PyError Unit := do
  let args := operation.args
  let allowed := ", ".intercalate ((calls operation.family).map fun entry => s!"'{entry.1.word}'")
  let fields ← require ((calls operation.family).lookup operation.call)
    (.workload3Error s!"{path}.call must be one of ({allowed}), not '{operation.call.word}'")
  checkAll fields fun field => ensure (args.has field = true)
    (.workload3Error s!"{path} ({operation.family.word}.{operation.call.word}) lacks {field.word}")
  whenSome args.size fun size => checkInt size s!"{path}.args.size"
  whenSome args.offset fun offset => checkInt offset s!"{path}.args.offset"
  whenSome args.length fun length => checkInt length s!"{path}.args.length"
  whenSome args.part fun part => checkInt part s!"{path}.args.part"
  whenSome args.path fun name =>
    ensure (TraversalFree name) (.workload3Error s!"{path}.args.path must be relative and traversal-free")
  whenSome args.newPath fun name =>
    ensure (TraversalFree name) (.workload3Error s!"{path}.args.new_path must be relative and traversal-free")
  whenSome args.node fun node =>
    ensure (node ∈ wl.nodes.keys ∨ node ∈ wl.objects) (.workload3Error s!"{path} names unknown node {Intent2.quoted node}")

/-- The open handles after an operation: a POSIX call uses handles that are open, and opens one that is not. -/
def handlesAfter (path : String) (openHandles : List Text) (operation : Operation3) : Except PyError (List Text) :=
  if operation.family = .posix then
    if operation.call = .openPath then do
      let handle ← require operation.args.handle (.keyError "handle")
      ensure (handle ∉ openHandles) (.workload3Error s!"{path} reopens live handle {Intent2.quoted handle}")
      pure (handle :: openHandles)
    else
      match operation.args.handle with
      | none => .ok openHandles
      | some handle => do
        ensure (handle ∈ openHandles) (.workload3Error s!"{path} uses handle {Intent2.quoted handle} that is not open")
        pure (if operation.call = .close then openHandles.filter (· ≠ handle) else openHandles)
  else .ok openHandles

/-- The release time of an operation and the timing model. -/
def checkRelease (path : String) (timingModel : TimingModel) (releaseNs : Option Int) : Except PyError Unit :=
  match releaseNs with
  | some release => do
    checkInt release s!"{path}.release_ns"
    ensure (timingModel ≠ .absent) (.workload3Error s!"{path} carries release_ns under absent timing")
  | none => ensure (timingModel ≠ .captured) (.workload3Error s!"{path} lacks release_ns under captured timing")

/-- One operation. -/
def operationStep (wl : Workload3) (seen : Seen) (seq : Nat) (operation : Operation3) : Except PyError Seen := do
  let path := s!"operations[{seq}]"
  ensure (operation.seq = seq) (.workload3Error s!"{path}.seq must equal its position")
  checkStr operation.opId s!"{path}.op_id"
  ensure (operation.opId ∉ seen.ids) (.workload3Error s!"{path}.op_id {Intent2.quoted operation.opId} not unique")
  checkArgs wl path operation
  let openHandles ← handlesAfter path seen.openHandles operation
  ensure (operation.stream ≠ none) (.workload3Error s!"{path}.stream required")
  checkInt operation.attempt s!"{path}.attempt" 1
  -- The id of the operation itself is known by now, but not as that of an earlier one.
  checkAll operation.deps fun dep =>
    ensure (dep.op ∈ seen.ids) (.workload3Error s!"{path} depends on something that is not an earlier operation")
  checkRelease path wl.provenance.timingModel operation.releaseNs
  pure ⟨seen.ids ++ [operation.opId], openHandles⟩

def checkTiming (timingModel : TimingModel) (timing : Timing) : Except PyError Unit :=
  ensure (timingModel = .captured → timing.sidecar.any (· ≠ []) = true ∧ timing.sidecarSha256.any (· ≠ []) = true)
    (.workload3Error "captured timing requires a bound timing sidecar")

end Workload3

open Workload3

/-- `validate_workload`. -/
def validateWorkload (wl : Workload3) : Except PyError Unit := do
  Workload3.checkProvenance wl.provenance
  Workload3.checkEngine wl.engine
  Workload3.checkStr wl.contentProfile "content_profile"
  checkAll wl.nodes.entries checkNode
  let _ ← foldFrom (entryStep wl.nodes) 0 [] wl.entries
  checkAll wl.handles.entries (checkHandle wl.nodes)
  let _ ← foldFrom (Workload3.operationStep wl) 0 ⟨[], wl.handles.keys⟩ wl.operations
  Workload3.checkTiming wl.provenance.timingModel wl.timing

/-! ## The v2 form -/

/-- `f"{object_id}@{version}"`. -/
def nodeId (objectId version : Text) : Text := objectId ++ '@' :: version

/-- `needle in text`. -/
def contains (needle text : Text) : Bool := text.tails.any (fun tail => needle.isPrefixOf tail)

def Verb.call : Verb → Call
  | .store => .store
  | .load => .load
  | .release => .release

namespace Workload3

/-- The nodes of one object: one for every version. -/
def addVersion (objectId : Text) (wl : Workload3) (entry : Text × ObjectVersion) : Except PyError Workload3 := do
  let incarnation ← require (Python.intOfText entry.1) 
    (.valueError s!"invalid literal for int() with base 10: {Intent2.quoted entry.1}")
  pure (addNode wl (nodeId objectId entry.1) .object incarnation entry.2.bytes)

def addObject (wl : Workload3) (entry : Text × Versions) : Except PyError Workload3 :=
  entry.2.entries.foldlM (addVersion entry.1) wl

/-- A live object becomes an entry of the directory `live`. -/
def addLive (wl : Workload3) (item : LiveItem) : Workload3 :=
  addEntry wl ("live/".toList ++ nodeId item.objectId item.version.text) (nodeId item.objectId item.version.text)

/-- The label of a dependency: between streams, on the same object and under the rule of the old format it is one of identity. -/
def depKind (intent : Intent2) (identityRule : Bool) (operation : Operation) (d : Text) : Except PyError Dep := do
  let other ← require (intent.operations.find? (fun other => other.opId = d)) (.keyError (String.ofList d))
  let identity := identityRule && other.objectId = operation.objectId && other.stream ≠ operation.stream
  pure ⟨d, if identity then .identity else .program⟩

/-- The arguments of an operation: a store has its size, a load of a range has the range. -/
def argsOf (operation : Operation) : Args :=
  let node := nodeId operation.objectId operation.version.text
  match operation.op, operation.range with
  | .store, _ => { node, size := operation.requestedBytes }
  | .load, some range => { node, offset := range.offset, length := range.length }
  | _, _ => { node }

/-- One operation. -/
def carryStep (intent : Intent2) (identityRule : Bool) (wl : Workload3) (operation : Operation) : Except PyError Workload3 := do
  let deps ← operation.deps.mapM (depKind intent identityRule operation)
  addOp wl
    { opId := operation.opId, seq := 0, family := .object, call := operation.op.call, args := argsOf operation
      stream := operation.stream, batchId := operation.batchId, deps, releaseNs := operation.releaseNs
      declaredDelayNs := operation.declaredDelayNs, outcome := operation.sourceOutcome }

end Workload3

/-- `from_intent2`. -/
def fromIntent2 (intent : Intent2) : Except PyError Workload3 := do
  validateIntent2 intent
  let p := intent.provenance
  let notes ← require p.notes (.keyError "notes")
  let identityRule := notes.any (contains "ordered by identity".toList)
  let releaseProvenance := if p.timingModel = .captured then ReleaseProvenance.observedSubmission else .none
  let engine : Engine3 := ⟨"object".toList, intent.engine.name, intent.engine.revision, intent.engine.layout⟩
  let empty := newWorkload p.captureLevel p.mappingMethod p.timingModel releaseProvenance engine p.status notes
  let described ← intent.objects.entries.foldlM addObject empty
  let wl ← intent.operations.foldlM (carryStep intent identityRule) (intent.live.foldl addLive described)
  let wl := { wl with health := intent.health, timing := intent.timing }
  validateWorkload wl
  pure wl

end EbpfSyscall.Kvio
