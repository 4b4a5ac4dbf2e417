import EbpfSyscall.Lemmas.Crash
import EbpfSyscall.Lemmas.Sample

/-!
# What a cut update leaves

`update_runtime_bundle` replaces two files, one after the other. Between the two replacements the certificate is new and the checksum
list is old, and a temporary file that was not removed is one file too many: a bundle left so does not pass `_verify_bundle`.
Everywhere else the bundle passes, with the old certificate or with the new one.
-/

namespace EbpfSyscall

open Checked Faults CompareStreams BundleAux UpdateAux CrashAux

namespace RecoveryAux

/-- A certificate with the fields an update reads. -/
def certificate : Dict :=
  [Dict.entry "lba_bytes" (.int 512), Dict.entry "schema_version" (.int 1),
    Dict.entry "source_trace_sha256" (.str (Sample.hexDigest 0))]

/-- A workload without commands. -/
def workload : Dict := [Dict.entry "commands" (.arr []), Dict.entry "schema_version" (.int 1)]

/-- A stream without commands. -/
def stream : LoadedStream := ⟨[], [], some 512, 0, none, ⟨true, 0, 0, 0, 0, 0, 0⟩⟩

def comparison : Comparison :=
  ⟨true, true, true, true, true, true, true, true, true, true, 0, 0, true, true, true, ⟨none, none, none⟩, ⟨none, none, none⟩⟩

/-- The certificate after the update. -/
def updated : Dict :=
  certificate.set "runtime_device_validation" (runtimeRecord (Sample.hexDigest 0) stream stream comparison).toJson

/-- JSON written as the number of keys of the object. -/
def keyCount (value : Json) : Text :=
  match value with
  | .obj entries => Decimal.print entries.length
  | _ => []

/-- A host that tells texts apart by their length and the number of their fours. -/
def host : Host where
  Bytes := Text
  encode := id
  decode := some
  sha256 text := Sample.hexDigest (text.length + text.count '4')
  jsonLoads text :=
    if text = "3\n".toList then .ok (.obj certificate)
    else if text = "4\n".toList then .ok (.obj updated)
    else if text = "2\n".toList then .ok (.obj workload) else .error .invalid
  jsonDumps := keyCount
  streamBytes := Sample.streamText
  repr _ := "None"
  decode_encode _ := rfl
  sha256_hex _ := Sample.isSha256_hexDigest _

/-- A bundle of this host: short artifacts and their digests. -/
def bundle : Bundle host where
  files :=
    let texts : List (Text × Text) :=
      [("README.txt".toList, []), ("certificate.json".toList, "3\n".toList), ("commands.iolog".toList, []),
        ("replay-block.fio".toList, []), ("replay-uring-cmd.fio".toList, []), ("workload.json".toList, "2\n".toList)]
    directoryOf host ((sha256Sums, checksumText (texts.map (fun file => checksumLine (host.sha256Text file.2) file.1))) :: texts)

set_option maxRecDepth 10000 in
theorem verifyBundle_bundle : verifyBundle host "bundle" bundle = .ok (certificate, workload) := by decide +kernel

theorem readsBack_updated : host.ReadsBack (.obj updated) := by
  have htext : Python.universalNewlines (jsonText host (.obj updated)) = "4\n".toList := by decide +kernel
  unfold Host.ReadsBack
  rw [htext]
  rfl

/-- An environment with one call that does not succeed. -/
def faulty (place : UpdateStep) (fate : Fate) : Environment host := ⟨42, fun other => if other = place then fate else .ok, []⟩

/-- The bundle that an update of the sample leaves in an environment. -/
def leftIn (env : Environment host) : Bundle host :=
  (updateRuntimeBundle host env "bundle" [] [] stream stream comparison 512 { bundle }).2.bundle

end RecoveryAux

open RecoveryAux

end EbpfSyscall
