import EbpfSyscall.Replay.CaptureFormat

/-!
# The exporter

`examples/replay/mk_dev_iolog.py`: a capture becomes rows in order of time, the rows become an iolog, and the certificate records
what the exporter checked by reading its own iolog back.
-/

namespace EbpfSyscall

open Checked

/-- `V3_HEADER`. -/
def v3Header : Text := "fio version 3 iolog".toList

/-- `SUPPORTED`. -/
def supported : List Text := ["read".toList, "write".toList, "flush".toList]

/-- The operation a supported command name stands for in an iolog: a flush is a datasync. -/
def operationOf (opName : Text) : Operation :=
  if opName = "flush".toList then .datasync else if opName = "write".toList then .write else .read

/-- `int(record.get(key, default))`, or `int(record[key])` without a default. -/
def Dict.intOf (d : Dict) (key : String) (default : Option Int) : Except PyError Int :=
  match d.get key with
  | some value => Python.intOf value
  | none => require default (.keyError key)

/-- The key the rows of a capture are sorted by: timestamp, sequence number, place in the file. -/
structure SortKey where
  timestampNs : Int
  seq : Int
  sourceSeq : Nat
  deriving DecidableEq

/-- Tuples compare from the left. -/
def SortKey.le (a b : SortKey) : Bool :=
  decide (a.timestampNs < b.timestampNs) || (decide (a.timestampNs = b.timestampNs) &&
    (decide (a.seq < b.seq) || (decide (a.seq = b.seq) && decide (a.sourceSeq ≤ b.sourceSeq))))

/-- `rows.sort(key=…)`. -/
def sortByKey {α : Type} (key : α → SortKey) (rows : List α) : List α :=
  rows.insertionSort (fun a b => (key a).le (key b) = true)

/-- A command as the loop of `load_capture` reads it. -/
structure CapturedRow where
  seq : Int
  sourceSeq : Nat
  timestampNs : Int
  op : Operation
  slba : Int
  lengthBytes : Int
  deriving DecidableEq, Repr

def CapturedRow.key (row : CapturedRow) : SortKey := ⟨row.timestampNs, row.seq, row.sourceSeq⟩

/-- A row of the export: `slba` has become a byte offset. -/
structure Row where
  seq : Int
  sourceSeq : Nat
  timestampNs : Int
  op : Operation
  offsetBytes : Int
  lengthBytes : Int
  deriving DecidableEq, Repr

/-- What `load_capture` returns beside the rows. -/
structure CaptureMeta where
  lbaBytes : Int
  drops : Int
  unsupportedCommandsOmitted : Nat
  captureSchemaVersion : Option Json
  captureScope : Option (Text × Int)
  deriving DecidableEq

/-- The variables of the loop of `load_capture`. -/
structure CaptureState where
  metadataLba : Option Int := none
  unsupported : List (Nat × Option Json) := []
  seenSeq : List Int := []
  rows : List CapturedRow := []

/-- A `capture_meta` record with a block size. -/
def captureMetaStep (st : CaptureState) (record : Dict) : Except PyError CaptureState := do
  let candidate ← record.intOf "lba_bytes" none
  ensure (st.metadataLba = none ∨ st.metadataLba = some candidate)
    (.captureError "capture contains conflicting LBA sizes")
  pure { st with metadataLba := some candidate }

/-- The length of a command: a flush has none. -/
def commandLength (opName : Text) (record : Dict) : Except PyError Int :=
  if opName = "flush".toList then .ok 0 else record.intOf "bytes" none

/-- A record of a supported command. -/
def captureCommandStep (path : String) (opName : Text) (st : CaptureState) (sourceSeq : Nat) (numbered : NumberedRecord) :
    Except PyError CaptureState := do
  let seq ← numbered.2.intOf "seq" (some sourceSeq)
  let timestampNs ← numbered.2.intOf "ts" none
  let slba ← numbered.2.intOf "slba" (some 0)
  let lengthBytes ← commandLength opName numbered.2
  ensure (seq ∉ st.seenSeq) (.captureError s!"capture contains duplicate command seq {seq}")
  ensure (¬(seq < 0 ∨ timestampNs < 0 ∨ slba < 0)) (.captureError s!"{path}:{numbered.1}: negative command field")
  ensure (¬(opName ≠ "flush".toList ∧ lengthBytes ≤ 0))
    (.captureError s!"{path}:{numbered.1}: non-positive command length")
  pure { st with
    seenSeq := st.seenSeq ++ [seq]
    rows := st.rows ++ [{ seq, sourceSeq, timestampNs, op := operationOf opName, slba, lengthBytes }] }

/-- One record of the loop of `load_capture`. -/
def captureStep (path : String) (st : CaptureState) (sourceSeq : Nat) (numbered : NumberedRecord) :
    Except PyError CaptureState :=
  if numbered.2.isText "event_type" "capture_meta" && Python.present (numbered.2.get "lba_bytes") then
    captureMetaStep st numbered.2
  else if numbered.2.isText "event_type" "nvme_cmd" then
    Python.inTexts (numbered.2.get "op_name") supported >>= fun known =>
      match known, numbered.2.get "op_name" with
      | true, some (.str opName) => captureCommandStep path opName st sourceSeq numbered
      | _, operation => .ok { st with unsupported := st.unsupported ++ [(numbered.1, operation)] }
  else .ok st

/-- A row gets its byte offset and is checked against the block size and 64-bit offsets. -/
def finishRow (lbaBytes : Int) (row : CapturedRow) : Except PyError Row := do
  let offsetBytes := row.slba * lbaBytes
  ensure (¬(row.op ≠ .datasync ∧ row.lengthBytes % lbaBytes ≠ 0))
    (.captureError s!"command length {row.lengthBytes} is not aligned to LBA {lbaBytes}")
  ensure (¬(offsetBytes > 2 ^ 64 - 1 - row.lengthBytes))
    (.captureError "command byte range overflows an unsigned 64-bit offset")
  pure {
    seq := row.seq, sourceSeq := row.sourceSeq, timestampNs := row.timestampNs, op := row.op, offsetBytes,
    lengthBytes := row.lengthBytes }

/-- `raise CaptureError(str(error)) from error`. -/
def asCaptureError : PyError → PyError
  | .captureFormatError message => .captureError message
  | error => error

/-- The options of the exporter's command line that `load_capture` reads. -/
structure LoadOptions where
  requestedLba : Option Int := none
  allowDrops : Bool := false
  allowUnsupported : Bool := false
  allowLegacyCapture : Bool := false

/-- What `load_capture` does once the loop has read every record. -/
def finishCapture (Γ : Host) (options : LoadOptions) (envelope : CaptureEnvelope) (st : CaptureState) :
    Except PyError (List Row × CaptureMeta) := do
  ensure (envelope.drops = 0 ∨ options.allowDrops = true)
    (.captureError s!"capture reports {envelope.drops} dropped events; use --allow-drops to override")
  whenSome (st.unsupported.head?) fun first => ensure (options.allowUnsupported = true)
    (.captureError s!"capture contains {st.unsupported.length} unsupported commands (first at line {first.1}: {Γ.repr first.2}); use --allow-unsupported to omit them")
  let lbaBytes ← require (options.requestedLba <|> st.metadataLba)
    (.captureError "capture does not record lba_bytes; pass --lba-bytes explicitly")
  ensure (Python.powerOfTwo lbaBytes = true) (.captureError "lba_bytes must be a positive power of two")
  whenSome st.metadataLba fun metadataLba => whenSome options.requestedLba fun requested =>
    ensure (metadataLba = requested)
      (.captureError s!"--lba-bytes {requested} disagrees with capture metadata {metadataLba}")
  ensure (st.rows ≠ []) (.captureError "capture contains no supported NVMe commands")
  let rows ← (sortByKey CapturedRow.key st.rows).mapM (finishRow lbaBytes)
  pure (rows, {
    lbaBytes, drops := envelope.drops, unsupportedCommandsOmitted := st.unsupported.length
    captureSchemaVersion := if envelope.legacy then none else envelope.metadata.bind (fun record => record.get "schema_version")
    captureScope := envelope.scope })

def loadCapture (Γ : Host) (path : String) (content : Γ.Bytes) (options : LoadOptions) :
    Except PyError (List Row × CaptureMeta) := do
  let records ← (loadRecords Γ path content).mapError asCaptureError
  let envelope ← (validateEnvelope Γ path records options.allowLegacyCapture).mapError asCaptureError
  let st ← foldFrom (captureStep path) 0 {} records
  finishCapture Γ options envelope st

/-! ## The iolog -/

/-- `f"{i}"` of an integer. -/
def printed (i : Int) : Text := Decimal.printInt i

/-- The line of one row. -/
def rowLine (t0 : Int) (filename : Text) (row : Row) : Text :=
  let timestampUs := (row.timestampNs - t0) / 1000
  if row.op = .datasync then printed timestampUs ++ [' '] ++ filename ++ " datasync".toList
  else printed timestampUs ++ [' '] ++ filename ++ [' '] ++ row.op.fioName ++ [' '] ++ printed row.offsetBytes ++ [' '] ++
    printed row.lengthBytes

def emitIolog (rows : List Row) (filename : Text) : Except PyError Text := do
  let first ← require rows.head? .indexError
  let last ← require rows.getLast? .indexError
  let endUs := (last.timestampNs - first.timestampNs) / 1000
  let lines := [v3Header, "0 ".toList ++ filename ++ " add".toList, "0 ".toList ++ filename ++ " open".toList] ++
    rows.map (rowLine first.timestampNs filename) ++ [printed endUs ++ [' '] ++ filename ++ " close".toList]
  pure (['\n'].intercalate lines ++ ['\n'])

/-- A command as `parse_iolog` returns it. -/
structure IologCommand where
  timestampUs : Int
  op : Text
  offsetBytes : Int
  lengthBytes : Int
  deriving DecidableEq, Repr

/-- `int(text)`, refused with a `ValueError`. -/
def intOrValueError (text : Text) : Except PyError Int :=
  require (Python.intOfText text) (.valueError "invalid literal for int() with base 10")

/-- One line of `parse_iolog`: an action line adds no command. -/
def parseIologLine (line : Text) : Except PyError (Option IologCommand) :=
  let fields := Python.split line
  match fields with
  | [timestamp, _, action] =>
    if action ∈ ["add".toList, "open".toList, "close".toList] then .ok none
    else if action ∈ ["sync".toList, "datasync".toList] then do
      pure (some { timestampUs := ← intOrValueError timestamp, op := action, offsetBytes := 0, lengthBytes := 0 })
    else .error (invalid line)
  | [timestamp, _, action, offset, length] =>
    if action ∈ ["read".toList, "write".toList, "trim".toList] then do
      pure (some {
        timestampUs := ← intOrValueError timestamp, op := action, offsetBytes := ← intOrValueError offset,
        lengthBytes := ← intOrValueError length })
    else .error (invalid line)
  | _ => .error (invalid line)
where
  invalid (line : Text) : PyError := .captureError ("emitted artifact contains an invalid line: " ++ String.ofList line)

def parseIolog (text : Text) : Except PyError (List IologCommand) := do
  let lines := Python.splitlines text
  ensure (lines.head? = some v3Header) (.captureError "emitted artifact has an invalid fio v3 header")
  let commands ← lines.tail.mapM parseIologLine
  pure (commands.filterMap id)

end EbpfSyscall
