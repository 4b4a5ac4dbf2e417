import EbpfSyscall.Replay.Certificate

/-!
# Bundles

A bundle is a directory with six artifacts and the list of their SHA-256 digests: `write_bundle` of
`examples/replay/mk_dev_iolog.py` writes one, and `_verify_bundle` of `examples/replay/compare_streams.py` checks one before it is
changed.
-/

namespace EbpfSyscall

open Checked

/-- An entry of a directory, as `lstat` sees it. -/
inductive DirectoryEntry (Γ : Host) where
  | regular (content : Γ.Bytes)
  /-- A link, a directory, or another file that is not regular. -/
  | special

/-- The entries of a directory by name. -/
abbrev Directory (Γ : Host) := Finmap (fun _ : Text => DirectoryEntry Γ)

/-- What a bundle's path leads to. -/
structure Bundle (Γ : Host) where
  isSymlink : Bool := false
  isDir : Bool := true
  files : Directory Γ

/-- `BUNDLE_ARTIFACTS`, sorted. -/
def bundleArtifacts : List Text :=
  ["README.txt".toList, "certificate.json".toList, "commands.iolog".toList, "replay-block.fio".toList,
    "replay-uring-cmd.fio".toList, "workload.json".toList]

def sha256Sums : Text := "SHA256SUMS".toList

/-- `BUNDLE_ARTIFACTS | {"SHA256SUMS"}`. -/
def bundleInventory : List Text := sha256Sums :: bundleArtifacts

/-- `f"{digest}  {name}"`. -/
def checksumLine (digest name : Text) : Text := digest ++ "  ".toList ++ name

/-- `"\n".join(sums) + "\n"`. -/
def checksumText (sums : List Text) : Text := ['\n'].intercalate sums ++ ['\n']

/-- `json.dumps(…, indent=2, sort_keys=True) + "\n"`. -/
def jsonText (Γ : Host) (value : Json) : Text := Γ.jsonDumps value ++ ['\n']

/-! ## Writing a bundle -/

/-- `_fio_wrapper`. -/
def fioWrapper (ioengine : String) : Text :=
  let commandType := if ioengine = "io_uring_cmd" then "cmd_type=nvme\n" else ""
  ("; generated by kvio; set KVIO_TARGET to an empty replay target\n" ++
    "[global]\n" ++
    "ioengine=" ++ ioengine ++ "\n" ++
    commandType ++
    "direct=1\n" ++
    "iodepth=16\n" ++
    "read_iolog=commands.iolog\n" ++
    "replay_redirect=$\x7bKVIO_TARGET\x7d\n" ++
    "group_reporting=1\n\n" ++
    "[kvio-replay]\n").toList

/-- `README.txt`. -/
def readmeText : Text :=
  ("This bundle preserves the captured operation/offset/length sequence and\n" ++
    "quantizes relative timestamps from nanoseconds to fio microseconds.\n" ++
    "Set KVIO_TARGET to an empty raw target, then run one replay jobfile.\n" ++
    "The block job may be merged or split again by Linux. The uring-cmd job\n" ++
    "targets NVMe passthrough. Re-record either run before claiming that the\n" ++
    "device received the same stream. Performance equivalence is not claimed.\n" ++
    "Run `kvio fio-certify .` for an independent Rust validation.\n").toList

/-- The artifacts by name, in the order of `sorted(artifacts)`. -/
def artifacts (Γ : Host) (iolog : Text) (certificate : Certificate) (normalized : List NormalizedCommand) :
    List (Text × Text) :=
  [("README.txt".toList, readmeText),
    ("certificate.json".toList, jsonText Γ (.obj certificate.toDict)),
    ("commands.iolog".toList, iolog),
    ("replay-block.fio".toList, fioWrapper "io_uring"),
    ("replay-uring-cmd.fio".toList, fioWrapper "io_uring_cmd"),
    ("workload.json".toList, jsonText Γ (workloadJson normalized))]

/-- A directory of text files. -/
def directoryOf (Γ : Host) (texts : List (Text × Text)) : Directory Γ :=
  texts.foldr (fun file files => files.insert file.1 (.regular (Γ.encode file.2))) ∅

/-- The bundle `write_bundle` leaves in a directory that did not exist. -/
def writeBundle (Γ : Host) (iolog : Text) (certificate : Certificate) (normalized : List NormalizedCommand) : Bundle Γ :=
  let texts := artifacts Γ iolog certificate normalized
  let sums := texts.map (fun file => checksumLine (Γ.sha256Text file.2) file.1)
  { files := directoryOf Γ ((sha256Sums, checksumText sums) :: texts) }

/-- What an export to a bundle directory leaves. -/
structure Export (Γ : Host) where
  certificate : Certificate
  normalized : List NormalizedCommand
  bundle : Bundle Γ

/-- `main` with `--bundle-dir`: the capture is loaded, emitted, certified and written. -/
def exportBundle (Γ : Host) (path : String) (capture : Γ.Bytes) (options : LoadOptions) (device : Text) :
    Except PyError (Export Γ) := do
  let (rows, captureMeta) ← loadCapture Γ path capture options
  let iolog ← emitIolog rows device
  let (certificate, normalized) ← translationCertificate Γ rows iolog capture captureMeta
  pure { certificate, normalized, bundle := writeBundle Γ iolog certificate normalized }

/-! ## Checking a bundle -/

/-- `stat.S_ISREG(os.lstat(…).st_mode)`. -/
def isRegular {Γ : Host} (files : Directory Γ) (name : Text) : Bool :=
  match files.lookup name with
  | some (.regular _) => true
  | _ => false

/-- Opening a file and reading its bytes. -/
def readFile {Γ : Host} (files : Directory Γ) (name : Text) : Except PyError Γ.Bytes :=
  match files.lookup name with
  | some (.regular content) => .ok content
  | _ => .error .osError

/-- `_load_json`. -/
def loadJson (Γ : Host) (path : String) (content : Γ.Bytes) : Except PyError Dict := do
  let text ← Python.readText Γ content
  match Γ.jsonLoads text with
  | .error (.duplicateKey _) => .error (.comparisonError s!"{path}: duplicate JSON key")
  | .error .invalid => .error (.comparisonError s!"{path}: invalid JSON")
  | .ok (.obj value) => .ok value
  | .ok _ => .error (.comparisonError s!"{path}: expected a JSON object")

/-- `line.split("  ", 1)`, when it gives two fields. -/
def splitDigest : Text → Option (Text × Text)
  | ' ' :: ' ' :: rest => some ([], rest)
  | c :: rest => (splitDigest rest).map (fun fields => (c :: fields.1, fields.2))
  | [] => none

/-- One line of the checksum list; the state is the names and digests so far. -/
def checksumStep (checksums : List (Text × Text)) (_ : Nat) (line : Text) : Except PyError (List (Text × Text)) := do
  let fields ← require (splitDigest line) (.comparisonError "runtime bundle has an invalid checksum list")
  ensure (fields.1.length = 64 ∧ fields.1.all (fun c => c ∈ "0123456789abcdef".toList) = true ∧
      fields.2 ∉ checksums.map Prod.fst)
    (.comparisonError "runtime bundle has an invalid checksum list")
  pure (checksums ++ [(fields.2, fields.1)])

/-- The file has the digest of the list. -/
def checkDigest {Γ : Host} (files : Directory Γ) (checksum : Text × Text) : Except PyError Unit := do
  let content ← readFile files checksum.1
  ensure (Γ.sha256 content = checksum.2)
    (.comparisonError s!"runtime bundle checksum failed for {String.ofList checksum.1}")

/-- `_verify_bundle`: the certificate and the workload of a bundle that is complete and unchanged. -/
def verifyBundle (Γ : Host) (root : String) (bundle : Bundle Γ) : Except PyError (Dict × Dict) := do
  ensure (¬(bundle.isSymlink = true ∨ bundle.isDir = false)) (.comparisonError "runtime bundle must be a real directory")
  ensure (bundle.files.keys = bundleInventory.toFinset)
    (.comparisonError "runtime bundle inventory is not schema v1")
  checkAll bundleInventory fun name =>
    ensure (isRegular bundle.files name = true)
      (.comparisonError s!"runtime bundle {String.ofList name} is not a regular file")
  let sums ← readFile bundle.files sha256Sums
  let text ← Python.readText Γ sums
  let checksums ← foldFrom checksumStep 0 [] (Python.splitlines text)
  ensure ((checksums.map Prod.fst).toFinset = bundleArtifacts.toFinset)
    (.comparisonError "runtime bundle checksum inventory is incomplete")
  checkAll checksums (checkDigest bundle.files)
  let certificateContent ← readFile bundle.files "certificate.json".toList
  let certificate ← loadJson Γ s!"{root}/certificate.json" certificateContent
  let workloadContent ← readFile bundle.files "workload.json".toList
  let workload ← loadJson Γ s!"{root}/workload.json" workloadContent
  pure (certificate, workload)

end EbpfSyscall
