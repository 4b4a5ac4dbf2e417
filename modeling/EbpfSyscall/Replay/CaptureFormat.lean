import EbpfSyscall.Host

/-!
# The envelope of a capture

`examples/replay/capture_format.py`: the records of a JSON-lines capture, and the strict checks of its first and last record and
of the device scope that every consumer of a capture shares. A file is its bytes; it is decoded as a whole before its lines are
read.
-/

namespace EbpfSyscall

open Checked

namespace Python

/-- Universal newlines: a file opened as text has only `\n`. -/
def universalNewlines (text : Text) : Text := (joinCrLf text).map (fun c => if c = '\r' then '\n' else c)

/-- The lines of a text file, each with its `\n`. -/
def fileLines : Text → List Text
  | [] => []
  | c :: rest =>
    if c = '\n' then ['\n'] :: fileLines rest
    else
      match fileLines rest with
      | [] => [[c]]
      | line :: lines => (c :: line) :: lines

/-- `open(path, encoding="utf-8").read()`. -/
def readText (Γ : Host) (content : Γ.Bytes) : Except PyError Text :=
  (require (Γ.decode content) .unicodeDecodeError).map universalNewlines

/-- `i > 0 and i & (i - 1) == 0`. -/
def powerOfTwo (i : Int) : Bool := decide (0 < i) && (i.toNat &&& (i.toNat - 1)) == 0

end Python

/-- `CAPTURE_SCHEMA_VERSION`. -/
def captureSchemaVersion : Int := 1

/-- `KNOWN_EVENT_TYPES`. -/
def knownEventTypes : List Text :=
  ["capture_meta".toList, "clock_anchor".toList, "nvme_cmd".toList, "nvme_cmp".toList, "drops".toList]

/-- A record of a capture and the line it stands on. -/
abbrev NumberedRecord := Nat × Dict

/-- One line of the loop of `load_records`; `i` is its index from zero. -/
def loadRecord (Γ : Host) (path : String) (records : List NumberedRecord) (i : Nat) (line : Text) :
    Except PyError (List NumberedRecord) :=
  if line.all Python.isSpace then .ok records
  else
    match Γ.jsonLoads line with
    | .error (.duplicateKey key) =>
      .error (.captureFormatError s!"{path}:{i + 1}: duplicate JSON key {Γ.repr (some (.str key))}")
    | .error .invalid => .error (.captureFormatError s!"{path}:{i + 1}: invalid JSON")
    | .ok (.obj record) => .ok (records ++ [(i + 1, record)])
    | .ok _ => .error (.captureFormatError s!"{path}:{i + 1}: expected a JSON object")

def loadRecords (Γ : Host) (path : String) (content : Γ.Bytes) : Except PyError (List NumberedRecord) := do
  let text ← Python.readText Γ content
  let records ← foldFrom (loadRecord Γ path) 0 [] (Python.fileLines text)
  ensure (records ≠ []) (.captureFormatError s!"{path}: capture is empty")
  pure records

structure CaptureEnvelope where
  metadata : Option Dict
  drops : Int
  legacy : Bool
  scope : Option (Text × Int)
  deriving DecidableEq

/-- One record of the scope loop of `validate_envelope`; the state is the set of identities seen. -/
def scopeStep (Γ : Host) (path : String) (selectedDisk : Text) (scopes : List (Text × Int)) (_ : Nat)
    (numbered : NumberedRecord) : Except PyError (List (Text × Int)) := do
  let eventType := numbered.2.get "event_type"
  let known ← Python.inTexts eventType knownEventTypes
  ensure (known = true) (.captureFormatError s!"{path}:{numbered.1}: unknown event_type {Γ.repr eventType}")
  if numbered.2.isText "event_type" "nvme_cmd" then
    let disk ← require (numbered.2.nonemptyText? "disk")
      (.captureFormatError s!"{path}:{numbered.1}: nvme_cmd has no disk identity")
    let nsid ← require ((numbered.2.int? "nsid").filter (0 < ·))
      (.captureFormatError s!"{path}:{numbered.1}: nvme_cmd has invalid nsid")
    ensure (disk = selectedDisk)
      (.captureFormatError s!"{path}:{numbered.1}: command disk {Γ.repr (some (.str disk))} disagrees with capture scope {Γ.repr (some (.str selectedDisk))}")
    pure (scopes.insert (disk, nsid))
  else pure scopes

/-- The part of `validate_envelope` for versioned captures: the device scope. -/
def validateScope (Γ : Host) (path : String) (metadata : Dict) (records : List NumberedRecord) :
    Except PyError (Option (Text × Int)) := do
  ensure (metadata.isText "emitter" "nvme_tp_monitor" = true)
    (.captureFormatError s!"{path}: schema v1 requires emitter nvme_tp_monitor")
  ensure (metadata.get "disk_filter" = some (.bool true))
    (.captureFormatError s!"{path}: schema v1 replay requires a --disk scoped capture")
  ensure ((metadata.int? "lba_bytes").any Python.powerOfTwo = true)
    (.captureFormatError s!"{path}: schema v1 capture_meta has invalid lba_bytes")
  let selectedDisk ← require (metadata.nonemptyText? "disk")
    (.captureFormatError s!"{path}: schema v1 capture_meta has no selected disk")
  let scopes ← foldFrom (scopeStep Γ path selectedDisk) 0 [] records
  ensure (scopes.length ≤ 1) (.captureFormatError s!"{path}: capture spans multiple device/namespace identities")
  pure scopes.head?

/-- A legacy capture has no scope. -/
def envelopeScope (Γ : Host) (path : String) (legacy : Bool) (metadata : Option Dict) (records : List NumberedRecord) :
    Except PyError (Option (Text × Int)) :=
  if legacy then .ok none else validateScope Γ path (metadata.getD []) records

def validateEnvelope (Γ : Host) (path : String) (records : List NumberedRecord) (allowLegacy : Bool) :
    Except PyError CaptureEnvelope := do
  let metadataRecords := records.filter (fun numbered => numbered.2.isText "event_type" "capture_meta")
  let dropRecords := records.filter (fun numbered => numbered.2.isText "event_type" "drops")
  ensure (metadataRecords.length ≤ 1) (.captureFormatError s!"{path}: multiple capture_meta records")
  ensure (metadataRecords = [] ∨ metadataRecords.head? = records.head?)
    (.captureFormatError s!"{path}: capture_meta must be the first record")
  ensure (dropRecords ≠ [])
    (.captureFormatError s!"{path}: capture has no final drops record; it may be incomplete")
  ensure (dropRecords.length = 1) (.captureFormatError s!"{path}: multiple drops records")
  ensure (dropRecords.head? = records.getLast?) (.captureFormatError s!"{path}: drops record must be the final record")
  let metadata := metadataRecords.head?.map Prod.snd
  let version := metadata.bind (fun record => record.get "schema_version")
  let legacy := !Python.present version
  ensure (legacy = true → allowLegacy = true)
    (.captureFormatError s!"{path}: capture uses the legacy unversioned format; pass --allow-legacy-capture to inspect it")
  ensure (legacy = true ∨ version = some (.int captureSchemaVersion))
    (.captureFormatError s!"{path}: unsupported capture schema_version {Γ.repr version}")
  let drops ← require ((dropRecords.head?.bind (fun numbered => numbered.2.int? "dropped")).filter (0 ≤ ·))
    (.captureFormatError s!"{path}: drops must be a non-negative integer")
  let scope ← envelopeScope Γ path legacy metadata records
  pure { metadata, drops, legacy, scope }

end EbpfSyscall
