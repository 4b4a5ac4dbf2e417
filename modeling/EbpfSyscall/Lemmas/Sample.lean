import EbpfSyscall.Lemmas.Bundle
import EbpfSyscall.Replay.Update

/-!
# A host and a small capture

A host over texts: bytes are texts, JSON is printed as the libraries print it, and a table gives the values of the texts that are
read and the digests of the texts that are hashed. The capture is one that `nvme_tp_monitor` could write: its metadata, a read, a
flush and the final drops record.
-/

namespace EbpfSyscall.Sample

/-- `json.dumps(…, sort_keys=True, separators=(",", ":"))` of one command. -/
def commandText (command : NormalizedCommand) : Text :=
  "\x7b\"at_ns\":".toList ++ printed command.atNs ++ ",\"length_bytes\":".toList ++ printed command.lengthBytes ++
    ",\"offset_bytes\":".toList ++ printed command.offsetBytes ++ ",\"op\":\"".toList ++ command.op.fioName ++
    "\",\"seq\":".toList ++ printed command.seq ++ "\x7d".toList

/-- The compact encoding of a command list. -/
def streamText (commands : List NormalizedCommand) : Text :=
  ['['] ++ [','].intercalate (commands.map commandText) ++ [']']

/-- The 64 hexadecimal digits of a number of 256 bits. -/
def hexDigest (n : Nat) : Text := (List.range 64).map (fun i => Nat.digitChar (n / 16 ^ (63 - i) % 16))

theorem isSha256_hexDigest (n : Nat) : isSha256 (hexDigest n) = true := by
  have hdigit : ∀ k : Nat, k < 16 → (k.digitChar.isDigit || ('a' ≤ k.digitChar && k.digitChar ≤ 'f')) = true := by decide
  unfold isSha256 hexDigest
  rw [List.length_map, List.length_range, Bool.and_eq_true, List.all_eq_true]
  refine ⟨rfl, fun c hc => ?_⟩
  obtain ⟨i, -, rfl⟩ := List.mem_map.mp hc
  exact hdigit _ (Nat.mod_lt _ (by decide))

/-- A host with a table of the JSON texts it reads and a table of the digests of the texts it hashes. -/
theorem decode_id (text : Text) : some (id text) = some text := rfl

def host (values : List (Text × Json)) (digests : List (Text × Nat)) (dumps : Json → Text) : Host where
  Bytes := Text
  encode := id
  decode := some
  sha256 text := hexDigest ((digests.lookup text).getD 0)
  jsonLoads text := (values.lookup text).elim (.error .invalid) .ok
  jsonDumps := dumps
  streamBytes := streamText
  repr _ := "None"
  decode_encode := decode_id
  sha256_hex _ := isSha256_hexDigest _

/-! ## The capture -/

def metaLine : String :=
  "\x7b\"event_type\":\"capture_meta\",\"schema_version\":1,\"emitter\":\"nvme_tp_monitor\",\"disk_filter\":true,\"lba_bytes\":512,\"disk\":\"nvme0n1\"\x7d\n"

def readLine : String :=
  "\x7b\"event_type\":\"nvme_cmd\",\"seq\":0,\"ts\":1500,\"op_name\":\"read\",\"slba\":8,\"bytes\":1024,\"disk\":\"nvme0n1\",\"nsid\":1\x7d\n"

def flushLine : String :=
  "\x7b\"event_type\":\"nvme_cmd\",\"seq\":1,\"ts\":3250,\"op_name\":\"flush\",\"slba\":0,\"bytes\":0,\"disk\":\"nvme0n1\",\"nsid\":1\x7d\n"

def dropsLine : String := "\x7b\"event_type\":\"drops\",\"dropped\":0\x7d\n"

/-- The capture file. -/
def capture : Text := metaLine.toList ++ readLine.toList ++ flushLine.toList ++ dropsLine.toList

/-- A text value. -/
def text (s : String) : Json := .str s.toList

def metaRecord : Dict :=
  [Dict.entry "disk" (text "nvme0n1"), Dict.entry "disk_filter" (.bool true), Dict.entry "emitter" (text "nvme_tp_monitor"),
    Dict.entry "event_type" (text "capture_meta"), Dict.entry "lba_bytes" (.int 512), Dict.entry "schema_version" (.int 1)]

def readRecord : Dict :=
  [Dict.entry "bytes" (.int 1024), Dict.entry "disk" (text "nvme0n1"), Dict.entry "event_type" (text "nvme_cmd"),
    Dict.entry "nsid" (.int 1), Dict.entry "op_name" (text "read"), Dict.entry "seq" (.int 0), Dict.entry "slba" (.int 8),
    Dict.entry "ts" (.int 1500)]

def flushRecord : Dict :=
  [Dict.entry "bytes" (.int 0), Dict.entry "disk" (text "nvme0n1"), Dict.entry "event_type" (text "nvme_cmd"),
    Dict.entry "nsid" (.int 1), Dict.entry "op_name" (text "flush"), Dict.entry "seq" (.int 1), Dict.entry "slba" (.int 0),
    Dict.entry "ts" (.int 3250)]

def dropsRecord : Dict := [Dict.entry "dropped" (.int 0), Dict.entry "event_type" (text "drops")]

/-- What the lines of the capture hold. -/
def values : List (Text × Json) :=
  [(metaLine.toList, .obj metaRecord), (readLine.toList, .obj readRecord), (flushLine.toList, .obj flushRecord),
    (dropsLine.toList, .obj dropsRecord)]

def records : List NumberedRecord := [(1, metaRecord), (2, readRecord), (3, flushRecord), (4, dropsRecord)]

/-- The rows `load_capture` returns. -/
def rows : List Row := [⟨0, 1, 1500, .read, 4096, 1024⟩, ⟨1, 2, 3250, .datasync, 0, 0⟩]

def captureMeta : CaptureMeta := ⟨512, 0, 0, some (.int 1), some ("nvme0n1".toList, 1)⟩

/-- The digests of the capture, of its stream and of its iolog for two device names. -/
def digests : List (Text × Nat) :=
  [(capture, 0x9a461d149e6e28091bdfadcaecf524a869cd9a91c9c56d70b04082c8e8e25204),
    (streamText (normalizedRows rows 1500), 0x55a934c06ca279608c866879bc5d0b98bf3d01def22fa0b343d88264a47efc01),
    (iolog "nvme0n1", 0x3b4c6baa6a3f8e708a29a1a22a5101d9eb07f13e45e3af50de43f167d5c10b81),
    (iolog " dev", 0x549413876e5dbf3616db0d799095ccbab3512039331376cbe29e0017128888b7)]
where
  /-- The iolog of the capture. -/
  iolog (name : String) : Text :=
    s!"fio version 3 iolog\n0 {name} add\n0 {name} open\n0 {name} read 4096 1024\n1 {name} datasync\n1 {name} close\n".toList

/-- The certificate of the export to `nvme0n1`; its digests are those of the table. -/
def certificate : Certificate :=
  certificateOf (host [] digests (fun _ => [])) rows (normalizedRows rows 1500) (rows.map (expectedRow 1500)) 750
    (ReparseAux.iologOf (templates 1500 3250 rows) "nvme0n1".toList) capture captureMeta

/-- The JSON files of a bundle, written as the first key of their object. -/
def files : List (Text × Json) :=
  [("capture_drops\n".toList, .obj certificate.toDict), ("commands\n".toList, workloadJson (normalizedRows rows 1500))]

def firstKey (value : Json) : Text :=
  match value with
  | .obj ((key, _) :: _) => key
  | _ => []

def sampleHost : Host := host (files ++ values) digests firstKey

theorem toList_of {s : String} {l : List Char} (hs : s = String.ofList l) : s.toList = l := by
  rw [hs, String.toList_ofList]

set_option maxRecDepth 10000 in
theorem loadRecords_capture : loadRecords sampleHost "capture.jsonl" capture = .ok records := by
  unfold sampleHost capture values
  rw [toList_of (s := metaLine) rfl, toList_of (s := readLine) rfl, toList_of (s := flushLine) rfl,
    toList_of (s := dropsLine) rfl]
  decide +kernel

theorem loadCapture_capture : loadCapture sampleHost "capture.jsonl" capture {} = .ok (rows, captureMeta) := by
  unfold loadCapture
  rw [loadRecords_capture]
  decide +kernel

theorem readsBack_certificate : sampleHost.ReadsBack (.obj certificate.toDict) := by
  have htext : Python.universalNewlines (jsonText sampleHost (.obj certificate.toDict)) = "capture_drops\n".toList := by
    decide +kernel
  unfold Host.ReadsBack
  rw [htext]
  rfl

theorem readsBack_workload : sampleHost.ReadsBack (workloadJson (normalizedRows rows 1500)) := by
  have htext : Python.universalNewlines (jsonText sampleHost (workloadJson (normalizedRows rows 1500))) =
      "commands\n".toList := by
    decide +kernel
  unfold Host.ReadsBack
  rw [htext]
  rfl

/-! ## Comparing the capture with itself -/

/-- The capture as the referee loads it: no command carries a pairing key. -/
def stream : CompareStreams.LoadedStream where
  commands := [⟨0, 1, 1500, .read, 8, 1024, none, none, none, false⟩, ⟨1, 2, 3250, .datasync, 0, 0, none, none, none, false⟩]
  latenciesUs := []
  lbaBytes := some 512
  drops := 0
  captureScope := some ("nvme0n1".toList, 1)
  completionPairing := ⟨false, 0, 0, 0, 0, 0, 2⟩

theorem load_capture : CompareStreams.load sampleHost "capture.jsonl" capture false = .ok stream := by
  unfold CompareStreams.load
  rw [loadRecords_capture]
  decide +kernel

def comparison : CompareStreams.Comparison :=
  ⟨true, true, true, true, true, true, true, true, false, false, 0, 0, false, false, false, ⟨none, none, none⟩,
    ⟨some 0, some 0, some 0⟩⟩

theorem exactComparison_stream : CompareStreams.exactComparison stream stream 512 = .ok comparison := by decide +kernel

end EbpfSyscall.Sample
