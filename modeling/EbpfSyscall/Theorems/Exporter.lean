import EbpfSyscall.Lemmas.Export
import EbpfSyscall.Lemmas.Sample

/-!
# The exporter and the verifier agree

Every capture the exporter loads, whose numbers fit in 64 bits and whose flushes carry block zero, is exported for every device
name without a blank to a bundle the verifier accepts. For other names the exporter's own check is weaker than the verifier's: it
certifies names with blanks around or inside that the verifier calls non-canonical.
-/

namespace EbpfSyscall

open Checked ReparseAux ExportAux SerdeAux TranslationAux List

/-- The integers of a loaded capture fit in a `u64`. -/
structure CaptureFits (rows : List Row) (captureMeta : CaptureMeta) : Prop where
  timestamps : ∀ row ∈ rows, row.timestampNs < 2 ^ 64
  lba : captureMeta.lbaBytes < 2 ^ 64
  drops : captureMeta.drops < 2 ^ 64
  commands : rows.length < 2 ^ 64
  omitted : captureMeta.unsupportedCommandsOmitted < 2 ^ 64

/-- A flush record reads as block zero. -/
def FlushSlbaZero (records : List NumberedRecord) : Prop :=
  ∀ numbered ∈ records, numbered.2.isText "event_type" "nvme_cmd" = true → numbered.2.isText "op_name" "flush" = true →
    numbered.2.intOf "slba" (some 0) = .ok 0

/-- A name without a character that Python or Rust takes as a blank or a line break. -/
def BlankFree (name : Text) : Prop :=
  ∀ c ∈ name, Python.isSpace c = false ∧ Python.isLineBreak c = false ∧ Rust.isWhitespace c = false

namespace ExporterAux

variable {captureMeta : CaptureMeta} {rows : List Row} {name : Text}

/-- The first and the last row of a capture, and that no row is before the first. -/
theorem ends_of_loaded (h : LoadedRows rows captureMeta) : ∃ first last, rows.head? = some first ∧ rows.getLast? = some last ∧ first ∈ rows ∧
      ∀ row ∈ rows, first.timestampNs ≤ row.timestampNs := by
  obtain ⟨first, rest, hrows⟩ := exists_cons_of_ne_nil h.nonempty
  have hordered := h.ordered
  rw [hrows, pairwise_cons] at hordered
  refine ⟨first, rows.getLast h.nonempty, by simp [hrows], getLast?_eq_some_getLast _, by simp [hrows], ?_⟩
  intro row hrow
  rw [hrows] at hrow
  rcases mem_cons.mp hrow with rfl | hrow
  · exact le_refl _
  · exact hordered.1 row hrow

/-- The rows of a capture whose flush records carry block zero have their flushes at offset zero. -/
theorem flushOffset_of_load {Γ : Host} {path : String} {content : Γ.Bytes} {options : LoadOptions} (h : loadCapture Γ path content options = .ok (rows, captureMeta))
    (hflush : ∀ records, loadRecords Γ path content = .ok records → FlushSlbaZero records) :
    ∀ row ∈ rows, row.op = .datasync → row.offsetBytes = 0 := by
  obtain ⟨records, envelope, st, hrecords, -, hst, hfinish⟩ := CaptureAux.loadCapture_ok h
  obtain ⟨-, -, -, hrows, -, -⟩ := CaptureAux.finishCapture_ok hfinish
  intro row hrow hop
  obtain ⟨captured, hcaptured, hfin⟩ := Checked.exists_of_forall₂_right hrows row hrow
  obtain ⟨rfl, -, -⟩ := CaptureAux.finishRow_ok hfin
  have hzero := CaptureAux.flushZero_of_fold (hflush records hrecords) hst captured (CaptureAux.mem_sortByKey.mp hcaptured) hop
  simp [hzero]

/-- A name without blanks is one piece of one field. -/
theorem toleratedName_of_blankFree (hne : name ≠ []) (h : BlankFree name) (burst : Prop) : ToleratedName burst name := by
  have hcr : '\r' ∉ name := fun hmem => absurd (h _ hmem).2.1 (by decide)
  refine Or.inl ⟨name, ?_⟩
  rw [pieces, PythonTextAux.joinCrLf_of_not_mem hcr, splitOnP_eq_singleton (fun c hc => (h c hc).2.1), map_singleton,
    Python.split, Fields.fields_word hne (fun c hc => (h c hc).1)]

/-- The exporter does not tolerate the empty name. -/
theorem ne_nil_of_toleratedName {burst : Prop} (h : ToleratedName burst name) : name ≠ [] := by
  rintro rfl
  have hnil : (pieces []).map Python.split = [[]] := by decide
  rcases h with ⟨word, hword⟩ | ⟨word, action, mids, y, z, hword, -⟩
  · rw [hnil] at hword
    simp at hword
  · rw [hnil] at hword
    simp at hword

theorem rustWord_of_blankFree (hne : name ≠ []) (h : BlankFree name) : RustWord name :=
  ⟨hne, fun c hc => (h c hc).2.2⟩

theorem isPowerOfTwo_toNat {lba : UInt64} {lbaBytes : Int} (h : (lba.toNat : Int) = lbaBytes)
    (hpow : ∃ k : Nat, lbaBytes = 2 ^ k) : lba.toNat.isPowerOfTwo := by
  obtain ⟨k, rfl⟩ := hpow
  refine ⟨k, ?_⟩
  have : ((2 : Int) ^ k) = ((2 ^ k : Nat) : Int) := by push_cast; rfl
  omega

theorem exists_maximum (h : rows ≠ []) (t0 : Int) :
    ∃ maximum, ((normalizedRows rows t0).map (fun c => c.atNs % 1000)).max? = some maximum ∧ 0 ≤ maximum ∧
      maximum < 2 ^ 64 := by
  obtain ⟨maximum, hmax⟩ : ∃ maximum, ((normalizedRows rows t0).map (fun c => c.atNs % 1000)).max? = some maximum := by
    rw [← Option.isSome_iff_exists, Option.isSome_iff_ne_none, ne_eq, max?_eq_none_iff]
    simpa [normalizedRows] using h
  obtain ⟨hmem, -⟩ := max?_eq_some_iff.mp hmax
  obtain ⟨c, -, rfl⟩ := mem_map.mp hmem
  exact ⟨_, hmax, by omega, by omega⟩

/-- The verifier accepts a certified export whose numbers fit. -/
theorem validateTranslation_export {Γ : Host} {first last : Row}
    {content : Γ.Bytes} {device : Text} {commands : List Command} {maximum : Int} (hloaded : LoadedRows rows captureMeta)
    (hlast : rows.getLast? = some last) (hfits : CaptureFits rows captureMeta)
    (hzero : ∀ row ∈ rows, row.op = .datasync → row.offsetBytes = 0) (hword : RustWord device)
    (hcommands : commands.map Command.toNormalized = normalizedRows rows first.timestampNs)
    (hmax : ((normalizedRows rows first.timestampNs).map (fun c => c.atNs % 1000)).max? = some maximum)
    (h0 : 0 ≤ maximum) (h1 : maximum < 2 ^ 64) :
    ∃ source,
      SourceCertificate.ofJson? (.obj (certificateOf Γ rows (normalizedRows rows first.timestampNs)
        (rows.map (expectedRow first.timestampNs)) maximum
        (iologOf (templates first.timestampNs last.timestampNs rows) device) content captureMeta).toDict) = some source ∧
      ∃ validation, validateTranslation Γ ⟨1, commands⟩
        (iologOf (templates first.timestampNs last.timestampNs rows) device) source {} = .ok validation := by
  obtain ⟨k, hk⟩ := hloaded.lba
  have hlba : ((UInt64.ofNat captureMeta.lbaBytes.toNat).toNat : Int) = captureMeta.lbaBytes :=
    toNat_ofNat_toNat (by rw [hk]; positivity) hfits.lba
  have hdrops := toNat_ofNat_toNat hloaded.drops hfits.drops
  have herror := toNat_ofNat_toNat h0 h1
  have hcount : rows.length = commands.length := by
    have := congrArg length hcommands
    simpa [normalizedRows] using this.symm
  have hread := sourceCertificate_ofJson (c := certificateOf Γ rows (normalizedRows rows first.timestampNs)
    (rows.map (expectedRow first.timestampNs)) maximum
    (iologOf (templates first.timestampNs last.timestampNs rows) device) content captureMeta) rfl rfl hfits.commands
    (by rw [certificateOf, length_map]; exact hfits.commands) hfits.omitted herror hlba hdrops
  have hw := workloadOk_of_rows _ hcommands hloaded.rowOk hloaded.ordered hzero (isPowerOfTwo_toNat hlba ⟨k, hk⟩)
    (by rw [hlba])
  have hcomplete : captureMeta.drops = 0 ↔ UInt64.ofNat captureMeta.drops.toNat = 0 := by
    rw [← UInt64.toNat_inj]
    simp only [UInt64.toNat_zero]
    omega
  refine ⟨_, hread, validateTranslation_isOk.mpr ⟨hw, rfl, rfl, ?_, ⟨hcount, ?_⟩, ?_, ?_, rfl, ⟨device, ?_⟩, ?_, by simp⟩⟩
  · rw [certificateOf, map_expected]
    exact decide_eq_true rfl
  · rw [certificateOf, length_map]
    exact hcount
  · simp only [certificateOf, expectedLevel, SourceCertificate.sourceComplete, ← hcomplete, Bool.and_eq_true,
      decide_eq_true_eq]
    by_cases hd : captureMeta.drops = 0
    · by_cases ho : captureMeta.unsupportedCommandsOmitted = 0
      · rw [if_neg (by omega), if_pos ⟨hd, decide_eq_true ho⟩]
      · rw [if_pos (Or.inr ho), if_neg (fun h => ho (of_decide_eq_true h.2))]
    · rw [if_pos (Or.inl hd), if_neg (fun h => hd h.1)]
  · rw [hcommands]
    rfl
  · refine emitFioIolog_eq_ok.mpr ⟨hword, hw.toBytes, ?_⟩
    exact iologText_eq_iologOf (sameCommand_of_toNormalized hcommands) hloaded.rowOk hlast device
  · exact largestLoss_of_max hcommands hmax herror

end ExporterAux

open ExporterAux

/-- The flushes of the stream stand at offset zero. -/
def FlushesAtZero (rows : List Row) : Prop := ∀ row ∈ rows, row.op = .datasync → row.offsetBytes = 0

/-- Every row comes less than a microsecond after the first. -/
def Burst (rows : List Row) : Prop := ∀ first ∈ rows.head?, ∀ row ∈ rows, row.timestampNs - first.timestampNs < 1000

/-- The stream is one Rust can read: less than 2^64 nanoseconds long, and at most 2^64 commands. -/
def Readable (rows : List Row) : Prop :=
  (∀ first ∈ rows.head?, ∀ row ∈ rows, row.timestampNs - first.timestampNs < 2 ^ 64) ∧ rows.length ≤ 2 ^ 64

/-- The exporter never certifies a text the verifier calls non-canonical exactly when a name it tolerates is one word for Rust and
the stream is one Rust can read. -/
theorem exporter_canonical_iff (Γ : Host) (path : String) (content : Γ.Bytes) (options : LoadOptions) (rows : List Row)
    (captureMeta : CaptureMeta) (device : Text) (hload : loadCapture Γ path content options = .ok (rows, captureMeta)) :
    (∀ iolog certificate normalized, emitIolog rows device = .ok iolog →
        translationCertificate Γ rows iolog content captureMeta = .ok (certificate, normalized) →
        CanonicalForRust normalized iolog) ↔
      (FlushesAtZero rows → ToleratedName (Burst rows) device →
        (∀ c ∈ device, Rust.isWhitespace c = false) ∧ Readable rows) := by
  have hloaded := loadedRows_of_loadCapture hload
  obtain ⟨first, last, hfirst, hlast, hmem, hle⟩ := ends_of_loaded hloaded
  have hreparse := reparse_iff last.timestampNs hmem rfl hloaded.rowOk hle device
  have hburst : Burst rows ↔ ∀ row ∈ rows, row.timestampNs - first.timestampNs < 1000 := by simp [Burst, hfirst]
  have hreadable : Readable rows ↔ (∀ row ∈ rows, row.timestampNs - first.timestampNs < 2 ^ 64) ∧ rows.length ≤ 2 ^ 64 := by
    simp [Readable, hfirst]
  obtain ⟨maximum, hmax, -, -⟩ := exists_maximum hloaded.nonempty first.timestampNs
  rw [propext hburst, hreadable]
  constructor
  · intro hcanonical hzero htolerated
    have htext := hcanonical _ _ _ (emitIolog_eq hfirst hlast device)
      ((translationCertificate_eq_ok hfirst).mpr ⟨hreparse.mpr ⟨hzero, htolerated⟩, maximum, hmax, rfl⟩)
    obtain ⟨hword, hfits⟩ := (canonicalForRust_iff hloaded.rowOk hloaded.ordered hle hzero hlast device).mp htext
    exact ⟨hword.2, hfits⟩
  · intro hsafe iolog certificate normalized hemit hcertificate
    rw [emitIolog_eq hfirst hlast, Except.ok.injEq] at hemit
    subst hemit
    obtain ⟨hparse, _, _, hresult⟩ := (translationCertificate_eq_ok hfirst).mp hcertificate
    obtain ⟨hzero, htolerated⟩ := hreparse.mp hparse
    obtain ⟨hword, hfits⟩ := hsafe hzero htolerated
    obtain ⟨rfl, rfl⟩ := Prod.mk.inj hresult
    exact (canonicalForRust_iff hloaded.rowOk hloaded.ordered hle hzero hlast device).mpr
      ⟨⟨ne_nil_of_toleratedName htolerated, hword⟩, hfits⟩

theorem exporter_canonical_iff_sample : (∀ iolog certificate normalized, emitIolog Sample.rows "nvme0n1".toList = .ok iolog →
        translationCertificate Sample.sampleHost Sample.rows iolog Sample.capture Sample.captureMeta =
          .ok (certificate, normalized) →
        CanonicalForRust normalized iolog) ↔
      (FlushesAtZero Sample.rows → ToleratedName (Burst Sample.rows) "nvme0n1".toList →
        (∀ c ∈ "nvme0n1".toList, Rust.isWhitespace c = false) ∧ Readable Sample.rows) :=
  exporter_canonical_iff Sample.sampleHost "capture.jsonl" Sample.capture {} Sample.rows Sample.captureMeta
    "nvme0n1".toList Sample.loadCapture_capture

/-- A blank before the device name: the exporter certifies the iolog, and the verifier refuses it. -/
theorem exporter_blank_name : loadCapture Sample.sampleHost "capture.jsonl" Sample.capture {} = .ok (Sample.rows, Sample.captureMeta) ∧
    ∃ iolog certificate normalized, emitIolog Sample.rows " dev".toList = .ok iolog ∧
      translationCertificate Sample.sampleHost Sample.rows iolog Sample.capture Sample.captureMeta =
        .ok (certificate, normalized) ∧
      ¬CanonicalForRust normalized iolog := by
  refine ⟨Sample.loadCapture_capture, ?_⟩
  have hloaded := loadedRows_of_loadCapture Sample.loadCapture_capture
  have hfirst : Sample.rows.head? = some ⟨0, 1, 1500, .read, 4096, 1024⟩ := rfl
  have hlast : Sample.rows.getLast? = some ⟨1, 2, 3250, .datasync, 0, 0⟩ := rfl
  have hzero : ∀ row ∈ Sample.rows, row.op = .datasync → row.offsetBytes = 0 := by decide
  have hle : ∀ row ∈ Sample.rows, 1500 ≤ row.timestampNs := by decide
  obtain ⟨maximum, hmax, -, -⟩ := exists_maximum hloaded.nonempty 1500
  have hparse := (reparse_iff 3250 (List.mem_of_mem_head? hfirst) rfl hloaded.rowOk hle " dev".toList).mpr
    ⟨hzero, Or.inl ⟨"dev".toList, by decide⟩⟩
  refine ⟨_, _, _, emitIolog_eq hfirst hlast _, (translationCertificate_eq_ok hfirst).mpr ⟨hparse, maximum, hmax, rfl⟩, ?_⟩
  intro hcanonical
  obtain ⟨hword, -⟩ := (canonicalForRust_iff hloaded.rowOk hloaded.ordered hle hzero hlast _).mp hcanonical
  exact absurd (hword.2 ' ' (by decide)) (by decide)

end EbpfSyscall
