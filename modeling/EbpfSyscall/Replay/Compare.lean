import EbpfSyscall.Replay.Exporter

/-!
# Comparing two captures

`load`, `_pair_completions` and `exact_comparison` of `examples/replay/compare_streams.py`: the commands of a capture with the
completions that belong to them, and the verdicts on two command streams. Latencies and timing errors are exact rationals, and so
are the fractions of the percentiles.
-/

namespace EbpfSyscall.CompareStreams

open Checked

structure Completion where
  ts : Int
  latNs : Int
  hwq : Int
  cid : Int
  status : Int
  deriving DecidableEq, Repr

/-- A command as `load` keeps it; pairing fills in its completion. -/
structure StreamCommand where
  seq : Int
  sourceSeq : Nat
  ts : Int
  op : Operation
  slba : Int
  bytes : Int
  hwq : Option Int
  cid : Option Int
  completion : Option Completion := none
  pairingAmbiguous : Bool := false
  deriving DecidableEq, Repr

def StreamCommand.key (command : StreamCommand) : SortKey := ⟨command.ts, command.seq, command.sourceSeq⟩

/-- The queue and command identifiers a completion is matched by. -/
def StreamCommand.pairingKey? (command : StreamCommand) : Option (Int × Int) :=
  match command.hwq, command.cid with
  | some hwq, some cid => some (hwq, cid)
  | _, _ => none

inductive EventValue where
  | command (command : StreamCommand)
  | completion (completion : Completion)

/-- An entry of `events`. -/
structure Event where
  ts : Int
  sourceSeq : Nat
  value : EventValue

/-- Events are sorted as tuples; the place in the file differs for any two, so nothing after it is compared. -/
def Event.key (event : Event) : SortKey := ⟨event.ts, 0, event.sourceSeq⟩

/-! ## Pairing -/

/-- The variables of `_pair_completions`. The source's `pending` holds the dicts of `commands` themselves: what is written to one
is written here to the command at the same place in the file. -/
structure PairState where
  commands : List StreamCommand
  pending : Int × Int → Option StreamCommand := fun _ => none
  orphanCompletions : Nat := 0
  ambiguousReuse : Nat := 0
  invalidLatency : Nat := 0
  missingCommandKeys : Nat := 0
  paired : Nat := 0

/-- Write to the command that stands at one place in the file. -/
def writeTo (sourceSeq : Nat) (write : StreamCommand → StreamCommand) (commands : List StreamCommand) : List StreamCommand :=
  commands.map (fun command => if command.sourceSeq = sourceSeq then write command else command)

def StreamCommand.ambiguous (command : StreamCommand) : StreamCommand := { command with pairingAmbiguous := true }

def StreamCommand.complete (value : Completion) (command : StreamCommand) : StreamCommand :=
  { command with completion := some value }

/-- A key that is still pending when it is used again. -/
def reuseKey (st : PairState) (earlier : Option StreamCommand) (command : StreamCommand) : PairState :=
  match earlier with
  | none => st
  | some earlier => { st with
      ambiguousReuse := st.ambiguousReuse + 1
      commands := writeTo command.sourceSeq StreamCommand.ambiguous
        (writeTo earlier.sourceSeq StreamCommand.ambiguous st.commands) }

def pairCommand (st : PairState) (command : StreamCommand) : PairState :=
  match command.pairingKey? with
  | none => { st with missingCommandKeys := st.missingCommandKeys + 1 }
  | some key =>
    let st := reuseKey st (st.pending key) command
    { st with pending := Function.update st.pending key (some command) }

def pairCompletion (st : PairState) (value : Completion) : PairState :=
  match st.pending (value.hwq, value.cid) with
  | none => { st with orphanCompletions := st.orphanCompletions + 1 }
  | some command =>
    let st := { st with pending := Function.update st.pending (value.hwq, value.cid) none }
    let derivedLatency := value.ts - command.ts
    if derivedLatency < 0 ∨ derivedLatency ≠ value.latNs then { st with invalidLatency := st.invalidLatency + 1 }
    else { st with
      commands := writeTo command.sourceSeq (StreamCommand.complete value) st.commands
      paired := st.paired + 1 }

def pairEvent (st : PairState) (event : Event) : PairState :=
  match event.value with
  | .command command => pairCommand st command
  | .completion value => pairCompletion st value

/-- What `_pair_completions` returns. -/
structure Pairing where
  complete : Bool
  paired : Nat
  unmatchedCommands : Nat
  orphanCompletions : Nat
  ambiguousKeyReuse : Nat
  invalidLatency : Nat
  commandsWithoutPairingKey : Nat
  deriving DecidableEq, Repr

def pairingOf (st : PairState) : Pairing :=
  let unmatched := st.commands.countP (fun command => command.completion.isNone && command.pairingKey?.isSome)
  { complete := decide (st.paired = st.commands.length ∧ st.orphanCompletions = 0 ∧ st.ambiguousReuse = 0 ∧
      st.invalidLatency = 0 ∧ st.missingCommandKeys = 0 ∧ unmatched = 0)
    paired := st.paired
    unmatchedCommands := unmatched
    orphanCompletions := st.orphanCompletions
    ambiguousKeyReuse := st.ambiguousReuse
    invalidLatency := st.invalidLatency
    commandsWithoutPairingKey := st.missingCommandKeys }

/-- The pairing and the commands it has written to. -/
def pairCompletions (events : List Event) (commands : List StreamCommand) : Pairing × List StreamCommand :=
  let st := (sortByKey Event.key events).foldl pairEvent { commands }
  (pairingOf st, st.commands)

/-! ## Loading a capture -/

/-- `_int_field`: a value that is an integer and no less than the minimum. -/
def intField (path : String) (numbered : NumberedRecord) (field : String) (minimum : Int := 0) : Except PyError Int :=
  require ((numbered.2.int? field).filter (minimum ≤ ·))
    (.comparisonError s!"{path}:{numbered.1}: {field} must be an integer >= {minimum}")

/-- A field that a flush does not have. -/
def dataField (path : String) (numbered : NumberedRecord) (opName : Text) (field : String) : Except PyError Int :=
  if opName = "flush".toList then .ok 0 else intField path numbered field

/-- A field that may be missing. -/
def optionalField (path : String) (numbered : NumberedRecord) (field : String) : Except PyError (Option Int) :=
  if Python.present (numbered.2.get field) then (intField path numbered field).map some else .ok none

/-- `operation in ("read", "write", "flush")`, and the name. -/
def supportedName? (operation : Json) : Option Text :=
  match operation with
  | .str name => if name ∈ supported then some name else none
  | _ => none

/-- The variables of the loop of `load`. -/
structure StreamState where
  lbaBytes : Option Int := none
  seenSeq : List Int := []
  commands : List StreamCommand := []
  events : List Event := []

/-- A `capture_meta` record with a block size. -/
def metaStep (path : String) (st : StreamState) (record : Dict) : Except PyError StreamState := do
  let candidate ← record.intOf "lba_bytes" none
  ensure (st.lbaBytes = none ∨ st.lbaBytes = some candidate) (.comparisonError s!"{path}: conflicting LBA sizes")
  pure { st with lbaBytes := some candidate }

def commandStep (Γ : Host) (path : String) (st : StreamState) (sourceSeq : Nat) (numbered : NumberedRecord) :
    Except PyError StreamState := do
  let operation ← require (numbered.2.get "op_name") (.keyError "op_name")
  let opName ← require (supportedName? operation)
    (.comparisonError s!"{path}:{numbered.1}: unsupported NVMe command {Γ.repr (some operation)}")
  let seq ← numbered.2.intOf "seq" (some sourceSeq)
  ensure (seq ∉ st.seenSeq) (.comparisonError s!"{path}: duplicate command sequence {seq}")
  let ts ← intField path numbered "ts"
  let slba ← dataField path numbered opName "slba"
  let bytes ← dataField path numbered opName "bytes"
  let hwq ← optionalField path numbered "hwq"
  let cid ← optionalField path numbered "cid"
  ensure (hwq.isNone = cid.isNone) (.comparisonError s!"{path}:{numbered.1}: command must carry both hwq and cid")
  ensure (¬seq < 0) (.comparisonError s!"{path}:{numbered.1}: negative command seq")
  ensure (¬(opName ≠ "flush".toList ∧ bytes = 0)) (.comparisonError s!"{path}:{numbered.1}: zero command length")
  let command : StreamCommand := { seq, sourceSeq, ts, op := operationOf opName, slba, bytes, hwq, cid }
  pure { st with
    seenSeq := st.seenSeq ++ [seq]
    commands := st.commands ++ [command]
    events := st.events ++ [{ ts, sourceSeq, value := .command command }] }

def completionStep (path : String) (st : StreamState) (sourceSeq : Nat) (numbered : NumberedRecord) :
    Except PyError StreamState := do
  let ts ← intField path numbered "ts"
  let latNs ← intField path numbered "lat_ns"
  let hwq ← intField path numbered "hwq"
  let cid ← intField path numbered "cid"
  let status ← intField path numbered "status"
  pure { st with events := st.events ++ [{ ts, sourceSeq, value := .completion { ts, latNs, hwq, cid, status } }] }

/-- One record of the loop of `load`. -/
def streamStep (Γ : Host) (path : String) (st : StreamState) (sourceSeq : Nat) (numbered : NumberedRecord) :
    Except PyError StreamState :=
  if numbered.2.isText "event_type" "capture_meta" && Python.present (numbered.2.get "lba_bytes") then
    metaStep path st numbered.2
  else if numbered.2.isText "event_type" "nvme_cmd" then commandStep Γ path st sourceSeq numbered
  else if numbered.2.isText "event_type" "nvme_cmp" then completionStep path st sourceSeq numbered
  else .ok st

/-- What `load` returns. -/
structure LoadedStream where
  commands : List StreamCommand
  latenciesUs : List Rat
  lbaBytes : Option Int
  drops : Int
  captureScope : Option (Text × Int)
  completionPairing : Pairing
  deriving DecidableEq

/-- `raise ComparisonError(str(error)) from error`. -/
def asComparisonError : PyError → PyError
  | .captureFormatError message => .comparisonError message
  | error => error

/-- The latencies of the completed commands, in microseconds. -/
def latenciesOf (commands : List StreamCommand) : List Rat :=
  (commands.filterMap StreamCommand.completion).map (fun completion => (completion.latNs : Rat) / 1000)

def load (Γ : Host) (path : String) (content : Γ.Bytes) (allowLegacyCapture : Bool) : Except PyError LoadedStream := do
  let records ← (loadRecords Γ path content).mapError asComparisonError
  let envelope ← (validateEnvelope Γ path records allowLegacyCapture).mapError asComparisonError
  let st ← foldFrom (streamStep Γ path) 0 {} records
  let (pairing, paired) := pairCompletions st.events st.commands
  let commands := sortByKey StreamCommand.key paired
  pure {
    commands
    latenciesUs := (latenciesOf commands).insertionSort (· ≤ ·)
    lbaBytes := st.lbaBytes, drops := envelope.drops, captureScope := envelope.scope, completionPairing := pairing }

/-! ## The comparison -/

/-- `_percentile`. -/
def percentile (values : List Rat) (fraction : Rat) : Rat :=
  if values = [] then 0
  else (values.insertionSort (· ≤ ·)).getD (min (values.length - 1) ((values.length : Rat) * fraction).floor.toNat) 0

def latencyDistribution (capture : LoadedStream) : LatencyDistribution where
  sampleCount := capture.latenciesUs.length
  p50Us := if capture.latenciesUs = [] then none else some (percentile capture.latenciesUs (1 / 2))
  p99Us := if capture.latenciesUs = [] then none else some (percentile capture.latenciesUs (99 / 100))

def completionStatus (capture : LoadedStream) : CompletionStatusResult :=
  let completed := capture.commands.filterMap StreamCommand.completion
  let errors := completed.countP (fun completion => completion.status != 0)
  { errorCount := errors
    allCommandsSucceeded := !capture.commands.isEmpty && capture.completionPairing.complete && decide (errors = 0) }

/-- `p50`, `p99` and `max` of a list of errors; `max` refuses an empty one. -/
def errorSummary (errors : List Rat) : Except PyError TimingError := do
  let maximum ← require errors.max? (.valueError "max() iterable argument is empty")
  pure ⟨some (percentile errors (1 / 2)), some (percentile errors (99 / 100)), some maximum⟩

/-- A summary that stays unset unless its values are compared. -/
def summaryWhen (compared : Bool) (errors : Except PyError (List Rat)) : Except PyError TimingError :=
  if compared then errors >>= errorSummary else .ok ⟨none, none, none⟩

/-- `abs(…) / 1000` of two times relative to their streams' starts. -/
def timingErrors (left right : List StreamCommand) (leftT0 rightT0 : Int) : List Rat :=
  (left.zip right).map (fun pair => ((|(pair.1.ts - leftT0) - (pair.2.ts - rightT0)| : Int) : Rat) / 1000)

/-- `abs(…) / 1000` of two latencies: a command without a completion has no `lat_ns`. -/
def latencyError (pair : StreamCommand × StreamCommand) : Except PyError Rat := do
  let left ← require pair.1.completion .typeError
  let right ← require pair.2.completion .typeError
  pure (((|left.latNs - right.latNs| : Int) : Rat) / 1000)

/-- What is compared of a command: its operation, byte offset and length. -/
def tupleOf (lbaBytes : Int) (command : StreamCommand) : Operation × Int × Int :=
  (command.op, command.slba * lbaBytes, command.bytes)

/-- The fields of the result of `exact_comparison`. -/
structure Comparison where
  sourceCaptureComplete : Bool
  replayCaptureComplete : Bool
  commandCountEqual : Bool
  operationSequenceEqual : Bool
  offsetSequenceEqual : Bool
  lengthSequenceEqual : Bool
  tupleSequenceEqual : Bool
  deviceStreamEqual : Bool
  sourceCompletionPairingComplete : Bool
  replayCompletionPairingComplete : Bool
  sourceCompletionErrorCount : Nat
  replayCompletionErrorCount : Nat
  sourceAllCommandsSucceeded : Bool
  replayAllCommandsSucceeded : Bool
  perCommandCompletionLatencyCompared : Bool
  completionLatencyErrorUs : TimingError
  timingErrorUs : TimingError
  deriving DecidableEq, Repr

def exactComparison (source replay : LoadedStream) (lbaBytes : Int) : Except PyError Comparison := do
  let left := source.commands
  let right := replay.commands
  let sourceTuples := left.map (tupleOf lbaBytes)
  let replayTuples := right.map (tupleOf lbaBytes)
  let countEqual := decide (left.length = right.length)
  let tuplesEqual := decide (sourceTuples = replayTuples)
  let compared := tuplesEqual && source.completionPairing.complete && replay.completionPairing.complete && !left.isEmpty
  let timing ← summaryWhen (countEqual && !left.isEmpty)
    (.ok (timingErrors left right ((left.head?.map StreamCommand.ts).getD 0) ((right.head?.map StreamCommand.ts).getD 0)))
  let latency ← summaryWhen compared ((left.zip right).mapM latencyError)
  pure {
    sourceCaptureComplete := decide (source.drops = 0)
    replayCaptureComplete := decide (replay.drops = 0)
    commandCountEqual := countEqual
    operationSequenceEqual := countEqual && decide (sourceTuples.map Prod.fst = replayTuples.map Prod.fst)
    offsetSequenceEqual := countEqual && decide (sourceTuples.map (·.2.1) = replayTuples.map (·.2.1))
    lengthSequenceEqual := countEqual && decide (sourceTuples.map (·.2.2) = replayTuples.map (·.2.2))
    tupleSequenceEqual := tuplesEqual
    deviceStreamEqual := decide (source.drops = 0) && decide (replay.drops = 0) && tuplesEqual
    sourceCompletionPairingComplete := source.completionPairing.complete
    replayCompletionPairingComplete := replay.completionPairing.complete
    sourceCompletionErrorCount := (completionStatus source).errorCount
    replayCompletionErrorCount := (completionStatus replay).errorCount
    sourceAllCommandsSucceeded := (completionStatus source).allCommandsSucceeded
    replayAllCommandsSucceeded := (completionStatus replay).allCommandsSucceeded
    perCommandCompletionLatencyCompared := compared
    completionLatencyErrorUs := latency
    timingErrorUs := timing }

end EbpfSyscall.CompareStreams
