import EbpfSyscall.Lemmas.RuntimeRecord
import EbpfSyscall.Lemmas.SameStream
import EbpfSyscall.Lemmas.Sample
import EbpfSyscall.Lemmas.Update
import EbpfSyscall.Theorems.Exporter

/-!
# A comparison written into a bundle

`update_runtime_bundle` writes the record of a comparison into the certificate of an exported bundle. The record passes the
verifier's `validate_runtime_device` against the workload of the bundle, and the capture that was exported is never refused as not
matching that workload.
-/

namespace EbpfSyscall

open Checked Faults CompareStreams SameStreamAux ReparseAux Option Sample

namespace ComparisonAux

/-! ## Equality of Python values -/

mutual

/-- A value without `NaN` equals itself. -/
theorem eq_self : ∀ value : Json, Json.finite value = true → Python.eq value value = true
  | .null, _ => by simp [Python.eq]
  | .bool _, _ => by simp [Python.eq, Python.number?]
  | .int _, _ => by simp [Python.eq, Python.number?]
  | .float (.finite _), _ => by simp [Python.eq, Python.number?]
  | .float (.inf _), h => by simp [Json.finite] at h
  | .float .nan, h => by simp [Json.finite] at h
  | .str _, _ => by simp [Python.eq]
  | .arr items, h => by
    rw [Json.finite] at h
    rw [Python.eq]
    exact eqList_self items h
  | .obj entries, h => by
    rw [Json.finite] at h
    rw [Python.eq]
    exact eqEntries_self entries h

theorem eqList_self : ∀ items : List Json, Json.finiteList items = true → Python.eqList items items = true
  | [], _ => by simp [Python.eqList]
  | item :: items, h => by
    rw [Json.finiteList, Bool.and_eq_true] at h
    rw [Python.eqList, eq_self item h.1, eqList_self items h.2, Bool.and_self]

theorem eqEntries_self : ∀ entries : List (Text × Json), Json.finiteEntries entries = true → Python.eqEntries entries entries = true
  | [], _ => by simp [Python.eqEntries]
  | (key, value) :: entries, h => by
    rw [Json.finiteEntries, Bool.and_eq_true] at h
    rw [Python.eqEntries, eq_self value h.1, eqEntries_self entries h.2, decide_eq_true rfl, Bool.and_self, Bool.and_self]

end

theorem finite_workloadJson (normalized : List NormalizedCommand) : Json.finite (workloadJson normalized) = true := by
  have hlist : Json.finiteList (normalized.map NormalizedCommand.toJson) = true := by
    induction normalized with
    | nil => rfl
    | cons command normalized ih =>
      rw [List.map_cons, Json.finiteList, ih, Bool.and_true]
      rfl
  simp [workloadJson, Json.finite, Json.finiteEntries, Dict.entry, hlist]

/-- Two texts, or two integers, that do not differ are equal. -/
theorem eq_of_differs_str {a b : Text} (h : differs (some (.str a)) (.str b) = false) : a = b := by
  simpa [differs, Python.eq] using h

theorem eq_of_differs_int {a b : Int} (h : differs (some (.int a)) (.int b) = false) : a = b := by
  simpa [differs, Python.eq, Python.number?] using h

theorem differs_str_self (a : Text) : differs (some (.str a)) (.str a) = false := by
  simp [differs, Python.eq]

theorem differs_int_self (a : Int) : differs (some (.int a)) (.int a) = false := by
  simp [differs, Python.eq, Python.number?]

/-- A source whose normalized stream is the workload is refused only for its digest or its block size. -/
theorem checkUpdate_error {sha : Text} {certificate workload : Dict} {source : LoadedStream} {lbaBytes : Int} {e : PyError}
    (hequal : Python.eq (.obj workload) (workloadJson (normalizedCommands source lbaBytes)) = true)
    (h : checkUpdate sha certificate workload source lbaBytes = .error e) :
    e = .comparisonError "source capture does not match the runtime bundle" ∨
      e = .comparisonError "comparison LBA size does not match the runtime bundle" := by
  unfold checkUpdate at h
  by_cases htrace : differs (certificate.get "source_trace_sha256") (.str sha) = false
  · rw [ensure_of htrace, ok_bind] at h
    by_cases hlba : differs (certificate.get "lba_bytes") (.int lbaBytes) = false
    · rw [ensure_of hlba, ok_bind, ensure_of hequal] at h
      cases h
    · rw [ensure, if_neg hlba] at h
      cases h
      exact Or.inr rfl
  · rw [ensure, if_neg htrace] at h
    cases h
    exact Or.inl rfl

/-! ## The exported bundle -/

/-- What an export has found in the capture. -/
structure ExportFacts (Γ : Host) (path : String) (capture : Γ.Bytes) (options : LoadOptions) (exported : Export Γ)
    (rows : List Row) (captureMeta : CaptureMeta) (first : Row) : Prop where
  load : loadCapture Γ path capture options = .ok (rows, captureMeta)
  head : rows.head? = some first
  flushes : ∀ row ∈ rows, row.op = .datasync → row.offsetBytes = 0
  normalized : exported.normalized = normalizedRows rows first.timestampNs
  trace : exported.certificate.sourceTraceSha256 = Γ.sha256 capture
  lba : exported.certificate.lbaBytes = captureMeta.lbaBytes
  drops : exported.certificate.captureDrops = captureMeta.drops
  omitted : exported.certificate.unsupportedCommandsOmitted = captureMeta.unsupportedCommandsOmitted
  bundle : ∃ iolog, exported.bundle = writeBundle Γ iolog exported.certificate exported.normalized

theorem exportFacts {Γ : Host} {path : String} {capture : Γ.Bytes} {options : LoadOptions} {device : Text} {exported : Export Γ}
    (h : exportBundle Γ path capture options device = .ok exported) :
    ∃ rows captureMeta first, ExportFacts Γ path capture options exported rows captureMeta first := by
  simp only [exportBundle, bind_eq_ok] at h
  obtain ⟨⟨rows, captureMeta⟩, hload, iolog, hemit, ⟨certificate, normalized⟩, hcertify, h⟩ := h
  rw [pure_eq_ok, Except.ok.injEq] at h
  subst h
  have hloaded := loadedRows_of_loadCapture hload
  obtain ⟨first, last, hfirst, hlast, hmem, hle⟩ := ExporterAux.ends_of_loaded hloaded
  obtain rfl : iologOf (templates first.timestampNs last.timestampNs rows) device = iolog :=
    Except.ok.inj ((ExportAux.emitIolog_eq hfirst hlast device).symm.trans hemit)
  obtain ⟨hparse, maximum, -, hresult⟩ := (ExportAux.translationCertificate_eq_ok hfirst).mp hcertify
  obtain ⟨rfl, rfl⟩ := Prod.mk.inj hresult
  have hzero := ((reparse_iff last.timestampNs hmem rfl hloaded.rowOk hle device).mp hparse).1
  exact ⟨rows, captureMeta, first, hload, hfirst, hzero, rfl, rfl, rfl, rfl, rfl, _, rfl⟩

/-- The stream the referee normalizes is the one the exporter normalized. -/
theorem normalizedCommands_eq {source : LoadedStream} {lbaBytes : Int} {rows : List Row} {first : Row}
    (hrows : rows = source.commands.map (fun command => exportRow lbaBytes (asRow command)))
    (hfirst : rows.head? = some first) : normalizedCommands source lbaBytes = normalizedRows rows first.timestampNs := by
  unfold normalizedCommands
  cases hcommands : source.commands with
  | nil =>
    rw [hrows, hcommands] at hfirst
    cases hfirst
  | cons head tail =>
    rw [hrows, hcommands, List.map_cons, List.head?_cons, some.injEq] at hfirst
    subst hfirst
    rw [hrows, hcommands, normalizedRows]
    refine List.ext_getElem? fun i => ?_
    rw [List.getElem?_mapIdx, List.getElem?_mapIdx, List.getElem?_map, map_map]
    rfl

/-! ## The updated certificate -/

open Serde

/-- The fields of a certificate that the runtime record is checked with. -/
theorem sourceCertificate_fields {d : Dict} {s : SourceCertificate} (h : SourceCertificate.ofJson? (.obj d) = some s) :
    field? d "capture_drops" u64? = some s.captureDrops ∧
      field? d "unsupported_commands_omitted" usize? = some s.unsupportedCommandsOmitted ∧
      optional? d "runtime_device_validation" RuntimeDeviceValidation.ofJson? = some s.runtimeDeviceValidation := by
  have hd : SourceCertificate.ofJson? (.obj d) = SourceCertificate.ofDict? d := rfl
  rw [hd, SourceCertificate.ofDict?] at h
  obtain ⟨_, -, h⟩ := bind_eq_some_iff.mp h
  obtain ⟨_, -, h⟩ := bind_eq_some_iff.mp h
  obtain ⟨_, -, h⟩ := bind_eq_some_iff.mp h
  obtain ⟨_, -, h⟩ := bind_eq_some_iff.mp h
  obtain ⟨_, -, h⟩ := bind_eq_some_iff.mp h
  obtain ⟨_, -, h⟩ := bind_eq_some_iff.mp h
  obtain ⟨_, -, h⟩ := bind_eq_some_iff.mp h
  obtain ⟨_, -, h⟩ := bind_eq_some_iff.mp h
  obtain ⟨_, -, h⟩ := bind_eq_some_iff.mp h
  obtain ⟨drops, hdrops, h⟩ := bind_eq_some_iff.mp h
  obtain ⟨omitted, homitted, h⟩ := bind_eq_some_iff.mp h
  obtain ⟨_, -, h⟩ := bind_eq_some_iff.mp h
  obtain ⟨runtime, hruntime, h⟩ := bind_eq_some_iff.mp h
  rw [pure_def, some.injEq] at h
  subst h
  exact ⟨hdrops, homitted, hruntime⟩

theorem usize_eq_some {n m : Nat} (h : usize? (.int n) = some m) : m = n := by
  simp only [usize?, unsigned?, ite_none_right_eq_some, some.injEq, Int.toNat_natCast] at h
  exact h.2.symm

/-- Rust finds the source complete exactly when the exporter recorded no drops and no omitted commands. -/
theorem sourceComplete_of_updated {certificate : Certificate} {runtime : Json} {s : SourceCertificate}
    (h : SourceCertificate.ofJson? (.obj (certificate.toDict.set "runtime_device_validation" runtime)) = some s) :
    s.sourceComplete = (decide (certificate.captureDrops = 0) && decide (certificate.unsupportedCommandsOmitted = 0)) := by
  obtain ⟨hdrops, homitted, -⟩ := sourceCertificate_fields h
  obtain ⟨-, -, -, -, -, -, -, -, -, g10, g11, -⟩ := SerdeAux.get_toDict certificate
  rw [field?, Dict.get_set, if_neg (by decide), g10, bind_some] at hdrops
  rw [field?, Dict.get_set, if_neg (by decide), g11, bind_some] at homitted
  have hd := SerdeAux.u64_eq_some.mp hdrops
  have ho := usize_eq_some homitted
  have hzero : s.captureDrops = 0 ↔ certificate.captureDrops = 0 := by
    rw [← UInt64.toNat_inj, UInt64.toNat_zero]
    omega
  rw [SourceCertificate.sourceComplete, ho]
  simp only [hzero]

end ComparisonAux

open ComparisonAux

/-- When an update of an exported bundle returns, the certificate holds its record, Rust reads the record back, and the record
passes `validate_runtime_device` against the workload of the bundle. The capture that was exported is never refused as not matching
the workload. What the host's libraries must do: read back the certificate and the workload they wrote, and not hash two different
captures alike. -/
theorem updateRuntimeBundle_validates (Γ : Host) (env : Environment Γ) (capturePath sourcePath replayPath root : String)
    (capture sourceContent replayContent : Γ.Bytes) (options : LoadOptions) (device : Text) (exported : Export Γ)
    (legacy : Bool) (source replay : LoadedStream) (lbaBytes : Int) (comparison : Comparison)
    (hexport : exportBundle Γ capturePath capture options device = .ok exported)
    (hcertificate : Γ.ReadsBack (.obj exported.certificate.toDict)) (hworkload : Γ.ReadsBack (workloadJson exported.normalized))
    (hsha : Γ.sha256 sourceContent = Γ.sha256 capture → sourceContent = capture)
    (hsource : CompareStreams.load Γ sourcePath sourceContent legacy = .ok source)
    (hreplay : CompareStreams.load Γ replayPath replayContent legacy = .ok replay)
    (hcomparison : exactComparison source replay lbaBytes = .ok comparison) (outcome : Outcome PyError RuntimeDeviceValidation)
    (left : Machine Γ)
    (hrun : updateRuntimeBundle Γ env root sourceContent replayContent source replay comparison lbaBytes
      { bundle := exported.bundle } = (outcome, left)) :
    (∀ runtime, outcome = .returned runtime →
      left.bundle.files.lookup "certificate.json".toList = some (.regular (Γ.encode (jsonText Γ
        (.obj (exported.certificate.toDict.set "runtime_device_validation" runtime.toJson))))) ∧
      (runtime.sourceCommandCount < 2 ^ 64 → runtime.replayCommandCount < 2 ^ 64 →
        RuntimeDeviceValidation.ofJson? runtime.toJson = some runtime) ∧
      ∀ workload certificate, Workload.ofJson? (workloadJson exported.normalized) = some workload →
        SourceCertificate.ofJson? (.obj (exported.certificate.toDict.set "runtime_device_validation" runtime.toJson)) =
          some certificate →
        validateRuntimeDevice runtime workload certificate.sourceComplete = .ok ()) ∧
    (sourceContent = capture → lbaBytes = exported.certificate.lbaBytes →
      outcome ≠ .raised (.comparisonError "source capture does not match the normalized workload")) := by
  obtain ⟨rows, captureMeta, first, facts⟩ := exportFacts hexport
  obtain ⟨iolog, hbundle⟩ := facts.bundle
  have hverify := verifyBundle_writeBundle root iolog hcertificate hworkload
  rw [← hbundle] at hverify
  refine ⟨?_, ?_⟩
  · intro runtime houtcome
    subst houtcome
    obtain ⟨text, certificate, workload, hreturned, hwritten⟩ := UpdateAux.updateRuntimeBundle_returned hrun
    obtain ⟨rfl, rfl⟩ := Prod.mk.inj (Except.ok.inj (hverify.symm.trans hreturned.verified))
    have hchecked := hreturned.checked
    simp only [checkUpdate, check_bind_eq_ok, ensure_eq_ok] at hchecked
    obtain ⟨-, -, -, -, -, -, -, -, hlba, -, -, -, -, htrace⟩ := SerdeAux.get_toDict exported.certificate
    rw [htrace, hlba] at hchecked
    have hcontent : sourceContent = capture :=
      hsha ((eq_of_differs_str hchecked.1).symm.trans facts.trace)
    have hlbaBytes : captureMeta.lbaBytes = lbaBytes := facts.lba.symm.trans (eq_of_differs_int hchecked.2.1)
    subst hcontent
    subst hlbaBytes
    obtain ⟨homitted, hdrops, hrows⟩ := rows_eq_of_load facts.load hsource facts.flushes
    have hsourceOk := streamOk_of_load hsource
    have hreplayOk := streamOk_of_load hreplay
    have hstatus : ∀ {status : CompletionStatusResult} {stream : LoadedStream}, StreamOk stream →
        status.errorCount = (completionStatus stream).errorCount → stream.commands.length < 2 ^ 64 →
        status.errorCount < 2 ^ 64 := by
      intro status stream hok heq hfits
      rw [heq]
      exact lt_of_le_of_lt ((RuntimeRecordAux.errors_le hok).trans (RuntimeRecordAux.samples_le hok)) hfits
    have hrecord := hreturned.record
    refine ⟨by rw [hwritten, hreturned.text], ?_, ?_⟩
    · subst hrecord
      intro hsourceCount hreplayCount
      have herrors : comparison.sourceCompletionErrorCount = (completionStatus source).errorCount ∧
          comparison.replayCompletionErrorCount = (completionStatus replay).errorCount := by
        simp only [exactComparison, bind_eq_ok] at hcomparison
        obtain ⟨timing, -, latency, -, h⟩ := hcomparison
        rw [pure_eq_ok, Except.ok.injEq] at h
        subst h
        exact ⟨rfl, rfl⟩
      exact RuntimeRecordAux.runtimeDeviceValidation_ofJson rfl hsourceCount hreplayCount
        (lt_of_le_of_lt (RuntimeRecordAux.samples_le hsourceOk) hsourceCount)
        (lt_of_le_of_lt (RuntimeRecordAux.samples_le hreplayOk) hreplayCount) (hstatus hsourceOk herrors.1 hsourceCount)
        (hstatus hreplayOk herrors.2 hreplayCount)
    · intro workload certificate hw hc
      have hcomplete := sourceComplete_of_updated hc
      rw [facts.omitted, homitted, decide_eq_true rfl, Bool.and_true, facts.drops, hdrops] at hcomplete
      have hcount : source.commands.length = workload.commands.length := by
        have hnormalized := (SerdeAux.workload_ofJson_iff.mp hw).2
        rw [facts.normalized, hrows] at hnormalized
        have := congrArg List.length hnormalized
        simpa [normalizedRows] using this.symm
      rw [hcomplete, hrecord]
      exact validateRuntimeDevice_runtimeRecord hsourceOk hreplayOk hcomparison (Γ.sha256_hex _) hcount
  · intro hcontent hlba houtcome
    subst hcontent
    subst houtcome
    obtain ⟨-, -, hrows⟩ := rows_eq_of_load facts.load hsource facts.flushes
    have hnormalized := normalizedCommands_eq hrows facts.head
    rw [← facts.normalized, ← facts.lba, ← hlba] at hnormalized
    generalize hmessage : PyError.comparisonError "source capture does not match the normalized workload" = e at hrun
    have herror := UpdateAux.updateRuntimeBundle_raised hverify hrun
    cases herror with
    | os => cases hmessage
    | schema => simp at hmessage
    | notFinite => cases hmessage
    | write h =>
      rcases h with rfl | rfl
      · exact absurd (PyError.comparisonError.inj hmessage) (by decide)
      · exact absurd (PyError.comparisonError.inj hmessage) (by decide)
    | source h =>
      rcases checkUpdate_error (by rw [hnormalized]; exact eq_self _ (finite_workloadJson _)) h with rfl | rfl
      · simp at hmessage
      · simp at hmessage

namespace ComparisonAux

/-- The bundle of the sample capture. -/
def sampleExport : Export Sample.sampleHost where
  certificate := Sample.certificate
  normalized := normalizedRows Sample.rows 1500
  bundle := writeBundle Sample.sampleHost (iologOf (templates 1500 3250 Sample.rows) "nvme0n1".toList) Sample.certificate
    (normalizedRows Sample.rows 1500)

theorem exportBundle_sample : exportBundle Sample.sampleHost "capture.jsonl" Sample.capture {} "nvme0n1".toList = .ok sampleExport := by
  have hrows := (loadedRows_of_loadCapture loadCapture_capture).rowOk
  have hfirst : rows.head? = some ⟨0, 1, 1500, .read, 4096, 1024⟩ := rfl
  have hparse : parseIolog (iologOf (templates 1500 3250 rows) "nvme0n1".toList) =
      .ok (rows.map (expectedRow 1500)) :=
    (reparse_iff 3250 (List.mem_of_mem_head? hfirst) rfl hrows (by decide) _).mpr
      ⟨by decide, Or.inl ⟨"nvme0n1".toList, by decide⟩⟩
  have hlast : rows.getLast? = some ⟨1, 2, 3250, .datasync, 0, 0⟩ := rfl
  have hemit : emitIolog rows "nvme0n1".toList = .ok (iologOf (templates 1500 3250 rows) "nvme0n1".toList) :=
    ExportAux.emitIolog_eq hfirst hlast _
  have hcertify : translationCertificate sampleHost rows
      (iologOf (templates 1500 3250 rows) "nvme0n1".toList) capture captureMeta =
        .ok (certificate, normalizedRows rows 1500) :=
    (ExportAux.translationCertificate_eq_ok hfirst).mpr ⟨hparse, 750, by decide, rfl⟩
  unfold exportBundle
  rw [loadCapture_capture, ok_bind]
  dsimp only
  rw [hemit, ok_bind, hcertify]
  rfl

/-- An environment in which every call succeeds. -/
def calm : Environment Sample.sampleHost := ⟨42, fun _ => .ok, []⟩

theorem updateRuntimeBundle_sample :
    ∃ left, updateRuntimeBundle Sample.sampleHost calm "bundle" Sample.capture Sample.capture Sample.stream Sample.stream
      Sample.comparison 512 { bundle := sampleExport.bundle } =
        (.returned (runtimeRecord (sampleHost.sha256 capture) stream stream comparison), left) := by
  obtain ⟨-, -, -, -, -, -, -, -, hlba, -, -, -, -, htrace⟩ := SerdeAux.get_toDict certificate
  refine UpdateAux.updateRuntimeBundle_calm (fun _ => rfl)
    (verifyBundle_writeBundle "bundle" _ readsBack_certificate readsBack_workload) ?_ ?_ ?_
  · rw [(SerdeAux.get_toDict certificate).1]
    decide +kernel
  · have hstream : normalizedCommands stream 512 = normalizedRows rows 1500 := by decide
    simp only [checkUpdate, check_bind_eq_ok, ensure_eq_ok]
    rw [htrace, hlba, hstream]
    exact ⟨differs_str_self _, differs_int_self _, eq_self _ (finite_workloadJson _)⟩
  · decide +kernel

end ComparisonAux

theorem updateRuntimeBundle_validates_sample : ∃ runtime left,
      updateRuntimeBundle Sample.sampleHost calm "bundle" Sample.capture Sample.capture Sample.stream Sample.stream
        Sample.comparison 512 { bundle := sampleExport.bundle } = (.returned runtime, left) ∧
      ∀ workload certificate, Workload.ofJson? (workloadJson sampleExport.normalized) = some workload →
        SourceCertificate.ofJson? (.obj (sampleExport.certificate.toDict.set "runtime_device_validation" runtime.toJson)) =
          some certificate →
        validateRuntimeDevice runtime workload certificate.sourceComplete = .ok () := by
  obtain ⟨left, hrun⟩ := updateRuntimeBundle_sample
  have hvalid := updateRuntimeBundle_validates Sample.sampleHost calm "capture.jsonl" "capture.jsonl" "capture.jsonl" "bundle"
    Sample.capture Sample.capture Sample.capture {} "nvme0n1".toList sampleExport false Sample.stream Sample.stream 512
    Sample.comparison exportBundle_sample Sample.readsBack_certificate Sample.readsBack_workload (fun _ => rfl)
    Sample.load_capture Sample.load_capture Sample.exactComparison_stream _ left hrun
  exact ⟨_, left, hrun, (hvalid.1 _ rfl).2.2⟩

end EbpfSyscall
