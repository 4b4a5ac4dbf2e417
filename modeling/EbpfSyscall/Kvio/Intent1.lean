import EbpfSyscall.Kvio.Intent2

/-!
# Generated offload workloads

`kvio.intent.v1` of `tools/kvio/intent.py`, and `normalize_v1` of `tools/kvio/intent2.py`, which carries a record into the v2 form: the
order within a stream of a phase and the barriers between phases become dependencies. The parts of a v1 record that may have one value
only (its schema, its kind and its evidence) are not fields here.
-/

namespace EbpfSyscall.Kvio

open Checked

structure Operation1 where
  sequence : Int
  pass : Int
  phase : Verb
  stream : Int
  streamSequence : Int
  logicalObject : Text
  chunkIndex : Int
  kvRank : Int
  payloadBytes : Int
  timed : Bool
  deriving DecidableEq, Repr

structure Intent1 where
  /-- `model`. -/
  name : Text
  dtype : Text
  chunkTokens : Int
  /-- `object`. -/
  payloadBytes : Int
  storeMetadataBytes : Int
  ranksPerChunk : Int
  /-- `execution`. -/
  numChunks : Int
  streams : Int
  iters : Int
  warmup : Int
  phaseOrder : List Verb
  crossStreamOrder : Text
  operations : List Operation1
  deriving DecidableEq, Repr

namespace Intent1

/-- `_positive`. -/
def positive (value : Int) (path : String) : Except PyError Unit :=
  ensure (0 < value) (.intentError s!"{path} must be a positive integer")

/-- `_nonnegative`. -/
def nonnegative (value : Int) (path : String) : Except PyError Unit :=
  ensure (0 ≤ value) (.intentError s!"{path} must be a non-negative integer")

/-- The canonical name of the object that a pass, a stream, a chunk and a rank stand for. -/
def logicalObject (pass stream chunk rank : Int) : Text :=
  "pass=".toList ++ Decimal.printInt pass ++ "/stream=".toList ++ Decimal.printInt stream ++ "/chunk=".toList ++
    Decimal.printInt chunk ++ "/rank=".toList ++ Decimal.printInt rank

/-- One operation of the loop of `validate_intent`; everything is compared with what its place in the list says. -/
def operationStep (intent : Intent1) (_ : Unit) (sequence : Nat) (operation : Operation1) : Except PyError Unit := do
  let path := s!"operations[{sequence}]"
  let perStream := intent.numChunks * intent.ranksPerChunk
  let perPhase := intent.streams * intent.numChunks * intent.ranksPerChunk
  ensure (operation.sequence = sequence) (.intentError s!"{path}.sequence must be canonical")
  let expectedPass := (sequence : Int) / (2 * intent.streams * intent.numChunks * intent.ranksPerChunk)
  let withinPass := (sequence : Int) % (2 * intent.streams * intent.numChunks * intent.ranksPerChunk)
  let expectedPhase := if withinPass < perPhase then Verb.store else Verb.load
  let withinPhase := withinPass % perPhase
  let expectedStream := withinPhase / perStream
  let withinStream := withinPhase % perStream
  let expectedChunk := withinStream / intent.ranksPerChunk
  let expectedRank := withinStream % intent.ranksPerChunk
  ensure (operation.phase = expectedPhase) (.intentError s!"{path}.phase is not in the v1 execution order")
  ensure (operation.pass = expectedPass) (.intentError s!"{path}.pass is not in the v1 execution order")
  ensure (operation.stream = expectedStream) (.intentError s!"{path}.stream is not in the v1 execution order")
  ensure (operation.chunkIndex = expectedChunk) (.intentError s!"{path}.chunk_index is not in the v1 execution order")
  ensure (operation.kvRank = expectedRank) (.intentError s!"{path}.kv_rank is not in the v1 execution order")
  ensure (operation.streamSequence = operation.chunkIndex * intent.ranksPerChunk + operation.kvRank)
    (.intentError s!"{path}.stream_sequence disagrees with object identity")
  ensure (operation.logicalObject = logicalObject operation.pass operation.stream operation.chunkIndex operation.kvRank)
    (.intentError s!"{path}.logical_object is not canonical")
  ensure (operation.payloadBytes = intent.payloadBytes)
    (.intentError s!"{path}.payload_bytes disagrees with object payload")
  ensure (operation.timed = decide (intent.warmup ≤ operation.pass))
    (.intentError s!"{path}.timed disagrees with execution.warmup")

end Intent1

open Intent1

/-- `validate_intent`. -/
def validateIntent (intent : Intent1) : Except PyError Unit := do
  ensure (intent.name ≠ []) (.intentError "model.name must be a non-empty string")
  ensure (intent.dtype ≠ []) (.intentError "model.dtype must be a non-empty string")
  positive intent.chunkTokens "model.chunk_tokens"
  positive intent.payloadBytes "object.payload_bytes"
  nonnegative intent.storeMetadataBytes "object.store_metadata_bytes"
  positive intent.ranksPerChunk "object.ranks_per_chunk"
  positive intent.numChunks "execution.num_chunks"
  positive intent.streams "execution.streams"
  positive intent.iters "execution.iters"
  nonnegative intent.warmup "execution.warmup"
  ensure (intent.phaseOrder = [.store, .load]) (.intentError "execution.phase_order must be ['store', 'load']")
  ensure (intent.crossStreamOrder = "unordered-within-phase".toList)
    (.intentError "execution.cross_stream_order must preserve v1 partial ordering")
  let expected := (intent.warmup + intent.iters) * 2 * intent.streams * intent.numChunks * intent.ranksPerChunk
  ensure ((intent.operations.length : Int) = expected)
    (.intentError s!"operations must contain exactly {expected} entries")
  foldFrom (operationStep intent) 0 () intent.operations

/-! ## The v2 form -/

namespace Intent1

/-- `f"v1/{sequence}"`. -/
def opId (sequence : Int) : Text := "v1/".toList ++ Decimal.printInt sequence

/-- The word of a phase. -/
def phaseWord : Verb → Text
  | .store => "store".toList
  | .load => "load".toList
  | .release => "release".toList

/-- What the loop of `normalize_v1` keeps. The source keeps the ids of operations; the model keeps their sequence numbers, which the
source reads back from the ids to sort them. -/
structure Draft1 where
  intent : Intent2
  prevInStream : Int × Verb × Int → Option Int := fun _ => none
  storesOfPass : Int → List Int := fun _ => []
  loadsOfPass : Int → List Int := fun _ => []

/-- The sequence numbers of the direct dependencies: the operation before it in its stream, and the barrier of its phase. -/
def Draft1.deps (draft : Draft1) (operation : Operation1) : List Int :=
  let own := (draft.prevInStream (operation.pass, operation.phase, operation.stream)).toList
  let barrier :=
    if operation.phase = .load then draft.storesOfPass operation.pass
    else if 0 < operation.pass then draft.loadsOfPass (operation.pass - 1)
    else []
  (own ++ barrier).dedup.insertionSort (· ≤ ·)

/-- An object that is not there yet is added. -/
def withObject (intent : Intent2) (objectId : Text) : Except PyError Intent2 :=
  if objectId ∈ intent.objects.keys then .ok intent else addObjectVersion intent objectId 1 "v1-payload".toList

/-- One operation. -/
def normalizeStep (draft : Draft1) (operation : Operation1) : Except PyError Draft1 := do
  let described ← withObject draft.intent operation.logicalObject
  let stream := 's' :: Decimal.printInt operation.stream
  let batchId := "pass".toList ++ Decimal.printInt operation.pass ++ ['/'] ++ phaseWord operation.phase ++ ['/'] ++ stream
  let intent ← addOperation described (opId operation.sequence) operation.phase operation.logicalObject 1 (some stream)
    ((draft.deps operation).map opId) none (some batchId)
  let key := (operation.pass, operation.phase, operation.stream)
  let add (of : Int → List Int) : Int → List Int :=
    Function.update of operation.pass (of operation.pass ++ [operation.sequence])
  pure { intent
         prevInStream := Function.update draft.prevInStream key (some operation.sequence)
         storesOfPass := if operation.phase = .store then add draft.storesOfPass else draft.storesOfPass
         loadsOfPass := if operation.phase = .store then draft.loadsOfPass else add draft.loadsOfPass }

/-- The v2 record before its operations. -/
def blank (intent : Intent1) : Intent2 :=
  let layout := (Dict.set [] "store_metadata_bytes" (.int intent.storeMetadataBytes)).set "ranks_per_chunk"
    (.int intent.ranksPerChunk)
  addRepresentation (newIntent .generated .declared .absent ⟨"lmcache-raw_block".toList, "vendored".toList, layout⟩)
    "v1-payload".toList "opaque".toList intent.payloadBytes

/-- The v2 record with its health and its note. -/
def finish (intent : Intent1) (v2 : Intent2) : Intent2 :=
  let note := Decimal.printInt intent.streams ++ " streams; phase barriers and per-stream order carried as dependencies".toList
  let health := ((Dict.set [] "source" (.str "generated".toList)).set "emitted" (.int v2.operations.length)).set "dropped" (.int 0)
  { v2 with
    provenance := { v2.provenance with notes := some [note] }
    health }

end Intent1

/-- `normalize_v1`. -/
def normalizeV1 (intent : Intent1) : Except PyError Intent2 := do
  validateIntent intent
  let draft ← intent.operations.foldlM normalizeStep { intent := blank intent }
  let v2 := finish intent draft.intent
  validateIntent2 v2
  pure v2

end EbpfSyscall.Kvio
