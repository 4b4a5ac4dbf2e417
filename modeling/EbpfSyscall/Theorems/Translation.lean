import EbpfSyscall.Lemmas.Translation

/-!
# The verifier accepts exactly the canonical translations

The facts a reader may conclude from an accepted translation (`TranslationFacts`), the bookkeeping the verifier checks besides
(`CertificateChecks`), and that the two together are the verifier's verdict. The parser and the emitter are inverse to each
other on every filename that is one word.
-/

namespace EbpfSyscall

open Checked TranslationAux

/-- What an accepted translation says about the workload, the iolog and the certificate. -/
structure TranslationFacts (workload : Workload) (iolog : Text) (source : SourceCertificate) (constraints : Constraints) : Prop where
  canonical : ∃ filename : Text, filename ≠ [] ∧ (∀ c ∈ filename, Rust.isWhitespace c = false) ∧
    emitFioIolog workload.commands filename = .ok iolog
  numbered : ∀ (i : Nat) (c : Command), workload.commands[i]? = some c → c.seq.toNat = i
  ordered : workload.commands.Pairwise (fun a b => a.atNs ≤ b.atNs)
  lba : source.lbaBytes.toNat.isPowerOfTwo
  fits : ∀ c ∈ workload.commands, CommandFits source.lbaBytes constraints c
  loss : LargestLoss workload.commands source.maximumTimestampQuantizationErrorNs
  level : source.equivalenceLevel = "stream-translation".toList ↔
    source.captureDrops = 0 ∧ source.unsupportedCommandsOmitted = 0

/-- The verifier's other checks: schemas, counts, flags, digests, the form of the constraints and the optional runtime
record. -/
structure CertificateChecks (Γ : Host) (workload : Workload) (iolog : Text) (source : SourceCertificate) (constraints : Constraints) : Prop where
  workloadSchema : workload.schemaVersion = 1
  sourceSchema : source.schemaVersion = 1
  sourceCount : source.sourceCommandCount = workload.commands.length
  emittedCount : source.emittedCommandCount = workload.commands.length
  sequenceEqual : source.operationOffsetLengthSequenceEqual = true
  noPerformanceClaim : source.performanceEquivalenceClaimed = false
  partialLevel : ¬(source.captureDrops = 0 ∧ source.unsupportedCommandsOmitted = 0) →
    source.equivalenceLevel = "partial-stream-translation".toList
  streamDigest : Γ.sha256 (Γ.streamBytes (workload.commands.map Command.toNormalized)) = source.normalizedStreamSha256
  iologDigest : Γ.sha256Text iolog = source.emittedIologSha256
  region : RegionOk source.lbaBytes constraints
  limit : LimitOk source.lbaBytes constraints
  runtime : ∀ runtime, source.runtimeDeviceValidation = some runtime →
    validateRuntimeDevice runtime workload source.sourceComplete = .ok ()

/-- The level the verifier expects is the one the two level conditions describe. -/
theorem equivalenceLevel_eq_expectedLevel (source : SourceCertificate) : source.equivalenceLevel = expectedLevel source.sourceComplete ↔
      (source.equivalenceLevel = "stream-translation".toList ↔
        source.captureDrops = 0 ∧ source.unsupportedCommandsOmitted = 0) ∧
      (¬(source.captureDrops = 0 ∧ source.unsupportedCommandsOmitted = 0) →
        source.equivalenceLevel = "partial-stream-translation".toList) := by
  rw [← sourceComplete_iff, expectedLevel]
  have hne : ¬("partial-stream-translation".toList = "stream-translation".toList) := by decide
  cases hc : source.sourceComplete with
  | true => simp
  | false =>
    simp only [Bool.false_eq_true, if_false, iff_false, not_false_eq_true, forall_true_left]
    constructor
    · intro h
      rw [h]
      exact ⟨hne, rfl⟩
    · exact fun h => h.2

/-- `validate_translation` returns exactly on the canonical translations of valid workloads with a consistent certificate. -/
theorem validateTranslation_iff (Γ : Host) (workload : Workload) (iolog : Text) (source : SourceCertificate) (constraints : Constraints) :
    (∃ certificate, validateTranslation Γ workload iolog source constraints = .ok certificate) ↔
      TranslationFacts workload iolog source constraints ∧ CertificateChecks Γ workload iolog source constraints := by
  rw [validateTranslation_isOk, equivalenceLevel_eq_expectedLevel]
  constructor
  · rintro ⟨hw, hschema, hperf, hseq, ⟨hsc, hec⟩, ⟨hlevel, hpartial⟩, hstream, hiolog, ⟨filename, hemit⟩, hloss, hruntime⟩
    have hf := (emitFioIolog_eq_ok.mp hemit).1
    exact ⟨⟨⟨filename, hf.1, hf.2, hemit⟩, hw.numbered, hw.ordered, hw.lba, hw.fits, hloss, hlevel⟩,
      ⟨hw.schema, hschema, hsc, hec, hseq, hperf, hpartial, hstream, hiolog, hw.region, hw.limit, hruntime⟩⟩
  · rintro ⟨facts, checks⟩
    obtain ⟨filename, -, -, hemit⟩ := facts.canonical
    have hw : WorkloadOk workload source.lbaBytes constraints :=
      ⟨checks.workloadSchema, facts.lba, checks.region, checks.limit, facts.numbered, facts.fits, facts.ordered⟩
    exact ⟨hw, checks.sourceSchema, checks.noPerformanceClaim, checks.sequenceEqual,
      ⟨checks.sourceCount, checks.emittedCount⟩, ⟨facts.level, checks.partialLevel⟩, checks.streamDigest, checks.iologDigest,
      ⟨filename, hemit⟩, facts.loss, checks.runtime⟩

/-- Every accepted command list is emitted for every filename that is one word, and the parser reads it back, with the
timestamps rounded down to microseconds. -/
theorem parseFioIolog_emitFioIolog (commands : List Command) (filename : Text) (constraints : Constraints)
    (hvalid : validateWorkload { schemaVersion := 1, commands } 1 constraints = .ok ())
    (hne : filename ≠ []) (hword : ∀ c ∈ filename, Rust.isWhitespace c = false) :
    ∃ iolog, emitFioIolog commands filename = .ok iolog ∧
      parseFioIolog iolog = .ok {
        filename
        commands := commands.map fun c =>
          { op := c.op, offsetBytes := c.offsetBytes, lengthBytes := c.lengthBytes, atUs := c.atNs / 1000 } } := by
  have hw := validateWorkload_eq_ok.mp hvalid
  refine ⟨iologText commands filename, emitFioIolog_eq_ok.mpr ⟨⟨hne, hword⟩, hw.toBytes, rfl⟩, ?_⟩
  exact parseFioIolog_iologText ⟨hne, hword⟩ (fun c hc => (hw.fits c hc).syncZero) hw.ordered

theorem parseFioIolog_emitFioIolog_add : ∃ iolog, emitFioIolog [⟨1999, 4096, 512, .read, 0⟩, ⟨2500, 0, 0, .sync, 1⟩] "add".toList = .ok iolog ∧
      parseFioIolog iolog = .ok ⟨"add".toList, [⟨1, 4096, 512, .read⟩, ⟨2, 0, 0, .sync⟩]⟩ :=
  parseFioIolog_emitFioIolog [⟨1999, 4096, 512, .read, 0⟩, ⟨2500, 0, 0, .sync, 1⟩] "add".toList {} (by decide) (by decide)
    (Fields.free_iff_all.mpr (by decide))

end EbpfSyscall
