import EbpfSyscall.Lemmas.Iolog

/-!
# What an accepted translation satisfies

`validateTranslation` parses the iolog and emits the workload again for the filename it read. Since the parser reads every
emitted text back, the two steps together accept exactly the texts the emitter writes for some filename
(`canonical_iff`), and the whole verdict is a conjunction of closed conditions (`validateTranslation_isOk`).
-/

namespace EbpfSyscall

open Checked

/-- `error` is the largest number of nanoseconds a timestamp loses to microseconds, zero for no command. -/
structure LargestLoss (commands : List Command) (error : UInt64) : Prop where
  empty : commands = [] → error = 0
  attained : commands ≠ [] → ∃ c ∈ commands, error.toNat = c.atNs.toNat % 1000
  bound : ∀ c ∈ commands, c.atNs.toNat % 1000 ≤ error.toNat

namespace TranslationAux

instance lawfulOrderMaxUInt64 : Std.LawfulOrderMax UInt64 where
  max_le_iff a b c := by
    change (if a ≤ b then b else a) ≤ c ↔ _
    split <;> simp only [UInt64.le_iff_toNat_le] at * <;> omega
  max_eq_or a b := by
    change (if a ≤ b then b else a) = a ∨ (if a ≤ b then b else a) = b
    split <;> simp

theorem toNat_quantize (n : UInt64) : (quantizeTimestampNs n).2.toNat = n.toNat % 1000 := by
  simp [quantizeTimestampNs, UInt64.toNat_mod]

/-- Two numbers that are the largest loss of one stream are equal. -/
theorem largestLoss_unique {commands : List Command} {a b : UInt64} (ha : LargestLoss commands a) (hb : LargestLoss commands b) : a = b := by
  by_cases hne : commands = []
  · rw [ha.empty hne, hb.empty hne]
  · obtain ⟨c, hc, hca⟩ := ha.attained hne
    obtain ⟨d, hd, hdb⟩ := hb.attained hne
    have h1 := hb.bound c hc
    have h2 := ha.bound d hd
    rw [← UInt64.toNat_inj]
    omega

theorem largestLoss_maximumError (commands : List Command) : LargestLoss commands (maximumError commands) := by
  unfold maximumError
  cases hmax : (commands.map fun command => (quantizeTimestampNs command.atNs).2).max? with
  | none =>
    obtain rfl : commands = [] := by simpa using hmax
    exact ⟨fun _ => rfl, by simp, by simp⟩
  | some m =>
    obtain ⟨hmem, hle⟩ := List.max?_eq_some_iff.mp hmax
    obtain ⟨c, hc, rfl⟩ := List.mem_map.mp hmem
    refine ⟨?_, fun _ => ⟨c, hc, toNat_quantize _⟩, fun d hd => ?_⟩
    · rintro rfl
      cases hc
    · have := UInt64.le_iff_toNat_le.mp (hle _ (List.mem_map.mpr ⟨d, hd, rfl⟩))
      rwa [toNat_quantize] at this

theorem maximumError_eq_iff {commands : List Command} {error : UInt64} : maximumError commands = error ↔ LargestLoss commands error := by
  constructor
  · rintro rfl
    exact largestLoss_maximumError commands
  · exact largestLoss_unique (largestLoss_maximumError commands)

/-- Parsing the text, comparing the commands and emitting them again accepts exactly the texts the emitter writes. -/
theorem canonical_iff {workload : Workload} {lbaBytes : UInt64} {constraints : Constraints} {iolog : Text}
    (hw : WorkloadOk workload lbaBytes constraints) :
    (∃ parsed, parseFioIolog iolog = .ok parsed ∧ parsed.commands = workload.commands.map Command.toFio ∧
        emitFioIolog workload.commands parsed.filename = .ok iolog) ↔
      ∃ filename, emitFioIolog workload.commands filename = .ok iolog := by
  constructor
  · rintro ⟨parsed, -, -, hemit⟩
    exact ⟨parsed.filename, hemit⟩
  · rintro ⟨filename, hemit⟩
    obtain ⟨hf, -, rfl⟩ := emitFioIolog_eq_ok.mp hemit
    exact ⟨_, parseFioIolog_iologText hf (fun c hc => (hw.fits c hc).syncZero) hw.ordered, rfl, hemit⟩

theorem sourceComplete_iff (source : SourceCertificate) :
    source.sourceComplete = true ↔ source.captureDrops = 0 ∧ source.unsupportedCommandsOmitted = 0 := by
  simp [SourceCertificate.sourceComplete]

/-- The verifier's verdict, check by check. -/
theorem validateTranslation_isOk {Γ : Host} {workload : Workload} {iolog : Text} {source : SourceCertificate} {constraints : Constraints} :
    (∃ certificate, validateTranslation Γ workload iolog source constraints = .ok certificate) ↔
      WorkloadOk workload source.lbaBytes constraints ∧ source.schemaVersion = 1 ∧
      source.performanceEquivalenceClaimed = false ∧ source.operationOffsetLengthSequenceEqual = true ∧
      (source.sourceCommandCount = workload.commands.length ∧ source.emittedCommandCount = workload.commands.length) ∧
      source.equivalenceLevel = expectedLevel source.sourceComplete ∧
      Γ.sha256 (Γ.streamBytes (workload.commands.map Command.toNormalized)) = source.normalizedStreamSha256 ∧
      Γ.sha256Text iolog = source.emittedIologSha256 ∧
      (∃ filename, emitFioIolog workload.commands filename = .ok iolog) ∧
      LargestLoss workload.commands source.maximumTimestampQuantizationErrorNs ∧
      ∀ runtime, source.runtimeDeviceValidation = some runtime →
        validateRuntimeDevice runtime workload source.sourceComplete = .ok () := by
  unfold validateTranslation
  simp only [check_bind_eq_ok, validateWorkload_eq_ok, ensure_eq_ok, exists_and_left]
  refine and_congr_right fun hw => ?_
  rw [← canonical_iff hw]
  iterate 7 refine and_congr_right fun _ => ?_
  simp only [bind_eq_ok (α := ParsedIolog), bind_eq_ok (α := Text), check_bind_eq_ok, ensure_eq_ok, whenSome_eq_ok,
    maximumError_eq_iff, pure_eq_ok, Except.ok.injEq]
  constructor
  · rintro ⟨_, parsed, hparse, hcommands, canonical, hemit, rfl, herror, hruntime, -⟩
    exact ⟨⟨parsed, hparse, hcommands, hemit⟩, herror, hruntime⟩
  · rintro ⟨⟨parsed, hparse, hcommands, hemit⟩, herror, hruntime⟩
    exact ⟨_, parsed, hparse, hcommands, iolog, hemit, rfl, herror, hruntime, rfl⟩

end TranslationAux

end EbpfSyscall
