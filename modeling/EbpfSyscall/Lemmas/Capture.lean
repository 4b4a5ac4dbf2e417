import EbpfSyscall.Replay.Exporter

/-!
# What a loaded capture satisfies

The loop of `load_capture` takes one of four steps for a record (`captureStep_cases`). From them every row read from a command
has a time, a block and a length that fit its operation (`CapturedOk`), and the rows of a loaded capture are in order of time and
made of whole blocks inside 64-bit offsets (`LoadedRows`).
-/

namespace EbpfSyscall

open Checked List

/-- The record reads as the row, field by field. -/
structure ReadsAs (numbered : NumberedRecord) (sourceSeq : Nat) (opName : Text) (row : CapturedRow) : Prop where
  seq : numbered.2.intOf "seq" (some sourceSeq) = .ok row.seq
  timestamp : numbered.2.intOf "ts" none = .ok row.timestampNs
  slba : numbered.2.intOf "slba" (some 0) = .ok row.slba
  flushLength : opName = "flush".toList → row.lengthBytes = 0
  dataLength : opName ≠ "flush".toList → numbered.2.intOf "bytes" none = .ok row.lengthBytes
  sourceSeq : row.sourceSeq = sourceSeq
  op : row.op = operationOf opName

/-- A row the loop keeps: nothing negative, a positive length for data and no length for a flush. -/
structure CapturedOk (row : CapturedRow) : Prop where
  seq : 0 ≤ row.seq
  timestamp : 0 ≤ row.timestampNs
  slba : 0 ≤ row.slba
  notSync : row.op ≠ .sync
  dataLength : row.op ≠ .datasync → 0 < row.lengthBytes
  flushLength : row.op = .datasync → row.lengthBytes = 0

namespace CaptureAux

theorem operationOf_eq_datasync {opName : Text} : operationOf opName = .datasync ↔ opName = "flush".toList := by
  unfold operationOf
  by_cases hflush : opName = "flush".toList
  · simp only [hflush, if_true]
  · rw [if_neg hflush]
    by_cases hwrite : opName = "write".toList
    · rw [if_pos hwrite]
      exact ⟨nofun, fun h => absurd h hflush⟩
    · rw [if_neg hwrite]
      exact ⟨nofun, fun h => absurd h hflush⟩

theorem operationOf_ne_sync (opName : Text) : operationOf opName ≠ .sync := by
  unfold operationOf
  split
  · simp
  · split <;> simp

variable {st : CaptureState} {path : String}

/-- A command step appends one row, read from the record, with a sequence number not seen before. -/
theorem captureCommandStep_ok {opName : Text} {st' : CaptureState} {sourceSeq : Nat}
    {numbered : NumberedRecord} (h : captureCommandStep path opName st sourceSeq numbered = .ok st') :
    ∃ row, ReadsAs numbered sourceSeq opName row ∧ CapturedOk row ∧ row.seq ∉ st.seenSeq ∧
      st' = { st with seenSeq := st.seenSeq ++ [row.seq], rows := st.rows ++ [row] } := by
  unfold captureCommandStep at h
  simp only [bind_eq_ok (β := CaptureState)] at h
  obtain ⟨seq, hseq, ts, hts, slba, hslba, length, hlength, _, hnew, _, hneg, _, hpos, h⟩ := h
  simp only [ensure_eq_ok, pure_eq_ok, Except.ok.injEq] at hnew hneg hpos h
  have hflush : opName = "flush".toList → length = 0 := by
    intro hop
    rw [commandLength, if_pos hop, Except.ok.injEq] at hlength
    exact hlength.symm
  have hdata : opName ≠ "flush".toList → numbered.2.intOf "bytes" none = .ok length := by
    intro hop
    rwa [commandLength, if_neg hop] at hlength
  refine ⟨⟨seq, sourceSeq, ts, operationOf opName, slba, length⟩, ⟨hseq, hts, hslba, hflush, hdata, rfl, rfl⟩,
    ⟨by simp only; omega, by simp only; omega, by simp only; omega, operationOf_ne_sync opName, ?_, ?_⟩, hnew, h.symm⟩
  · intro hop
    have hne : opName ≠ "flush".toList := fun hf => hop (operationOf_eq_datasync.mpr hf)
    have : ¬(length ≤ 0) := fun hle => hpos ⟨hne, hle⟩
    simp only
    omega
  · exact fun hop => hflush (operationOf_eq_datasync.mp hop)

/-- What one record does to the loop of `load_capture`: it sets the block size, appends a command, notes an unsupported one, or
changes nothing. -/
theorem captureStep_cases {st' : CaptureState} {sourceSeq : Nat} {numbered : NumberedRecord} (h : captureStep path st sourceSeq numbered = .ok st') :
    (∃ lba, numbered.2.isText "event_type" "capture_meta" = true ∧ Python.present (numbered.2.get "lba_bytes") = true ∧
      numbered.2.intOf "lba_bytes" none = .ok lba ∧ (st.metadataLba = none ∨ st.metadataLba = some lba) ∧
      st' = { st with metadataLba := some lba }) ∨
    (∃ opName row, numbered.2.isText "event_type" "nvme_cmd" = true ∧ opName ∈ supported ∧
      numbered.2.get "op_name" = some (.str opName) ∧ ReadsAs numbered sourceSeq opName row ∧ CapturedOk row ∧
      row.seq ∉ st.seenSeq ∧ st' = { st with seenSeq := st.seenSeq ++ [row.seq], rows := st.rows ++ [row] }) ∨
    (numbered.2.isText "event_type" "nvme_cmd" = true ∧
      (∀ opName ∈ supported, numbered.2.get "op_name" ≠ some (.str opName)) ∧
      st' = { st with unsupported := st.unsupported ++ [(numbered.1, numbered.2.get "op_name")] }) ∨
    ((numbered.2.isText "event_type" "capture_meta" && Python.present (numbered.2.get "lba_bytes")) = false ∧
      numbered.2.isText "event_type" "nvme_cmd" = false ∧ st' = st) := by
  unfold captureStep at h
  split at h
  · rename_i hmeta
    rw [Bool.and_eq_true] at hmeta
    unfold captureMetaStep at h
    rw [bind_eq_ok] at h
    obtain ⟨lba, hlba, h⟩ := h
    simp only [check_bind_eq_ok, ensure_eq_ok, pure_eq_ok, Except.ok.injEq] at h
    exact Or.inl ⟨lba, hmeta.1, hmeta.2, hlba, h.1, h.2.symm⟩
  · rename_i hmeta
    split at h
    · rename_i hcmd
      rw [bind_eq_ok] at h
      obtain ⟨known, hknown, h⟩ := h
      cases hop : numbered.2.get "op_name" with
      | none =>
        rw [hop] at hknown h
        obtain rfl : false = known := by simpa [Python.inTexts] using hknown
        simp only [Except.ok.injEq] at h
        exact Or.inr (Or.inr (Or.inl ⟨hcmd, by simp, h.symm⟩))
      | some value =>
        rw [hop] at hknown h
        cases value with
        | str opName =>
          simp only [Python.inTexts, Except.ok.injEq] at hknown
          cases known with
          | true =>
            obtain ⟨row, hrow⟩ := captureCommandStep_ok h
            exact Or.inr (Or.inl ⟨opName, row, hcmd, of_decide_eq_true hknown, rfl, hrow⟩)
          | false =>
            simp only [Except.ok.injEq] at h
            refine Or.inr (Or.inr (Or.inl ⟨hcmd, ?_, h.symm⟩))
            intro other hmem heq
            obtain rfl : opName = other := by simpa using heq
            exact of_decide_eq_false hknown hmem
        | null | bool _ | int _ | float _ =>
          obtain rfl : false = known := by simpa [Python.inTexts] using hknown
          simp only [Except.ok.injEq] at h
          exact Or.inr (Or.inr (Or.inl ⟨hcmd, by simp, h.symm⟩))
        | arr _ | obj _ => simp [Python.inTexts] at hknown
    · rename_i hcmd
      simp only [Except.ok.injEq] at h
      exact Or.inr (Or.inr (Or.inr ⟨by simpa using hmeta, by simpa using hcmd, h.symm⟩))

/-- Every row the loop collects is one it keeps. -/
theorem capturedOk_of_fold {records : List NumberedRecord}
    (h : foldFrom (captureStep path) 0 {} records = .ok st) : ∀ row ∈ st.rows, CapturedOk row := by
  refine foldFrom_invariant (fun _ s => ∀ row ∈ s.rows, CapturedOk row) ?_ (by simp) h
  intro i s numbered s' _ hs hstep
  rcases captureStep_cases hstep with ⟨_, -, -, -, -, rfl⟩ | ⟨_, new, -, -, -, -, hok, -, rfl⟩ | ⟨-, -, rfl⟩ | ⟨-, -, rfl⟩
  · exact hs
  · intro row hrow
    rcases mem_append.mp hrow with hrow | hrow
    · exact hs row hrow
    · obtain rfl := mem_singleton.mp hrow
      exact hok
  · exact hs
  · exact hs

/-- In a capture whose flush records carry block 0, so do the rows read from them. -/
theorem flushZero_of_fold {records : List NumberedRecord} (hflush : ∀ numbered ∈ records, numbered.2.isText "event_type" "nvme_cmd" = true →
      numbered.2.isText "op_name" "flush" = true → numbered.2.intOf "slba" (some 0) = .ok 0)
    (h : foldFrom (captureStep path) 0 {} records = .ok st) : ∀ row ∈ st.rows, row.op = .datasync → row.slba = 0 := by
  refine foldFrom_invariant (fun _ s => ∀ row ∈ s.rows, row.op = .datasync → row.slba = 0) ?_ (by simp) h
  intro i s numbered s' hmem hs hstep
  rcases captureStep_cases hstep with
    ⟨_, -, -, -, -, rfl⟩ | ⟨opName, new, hcmd, -, hop, hreads, -, -, rfl⟩ | ⟨-, -, rfl⟩ | ⟨-, -, rfl⟩
  · exact hs
  · intro row hrow hsync
    rcases mem_append.mp hrow with hrow | hrow
    · exact hs row hrow hsync
    · obtain rfl := mem_singleton.mp hrow
      obtain rfl := operationOf_eq_datasync.mp (hreads.op ▸ hsync)
      have hzero := hflush numbered hmem hcmd (by simp [Dict.isText, hop])
      rw [hreads.slba, Except.ok.injEq] at hzero
      exact hzero
  · exact hs
  · exact hs

/-! ## Sorting -/

theorem sortKey_le_iff (a b : SortKey) : a.le b = true ↔ a.timestampNs < b.timestampNs ∨ (a.timestampNs = b.timestampNs ∧
    (a.seq < b.seq ∨ (a.seq = b.seq ∧ a.sourceSeq ≤ b.sourceSeq))) := by
  simp [SortKey.le]

theorem mem_sortByKey {α : Type} {key : α → SortKey} {rows : List α} {row : α} :
    row ∈ sortByKey key rows ↔ row ∈ rows := (perm_insertionSort _ rows).mem_iff

/-- Sorted rows are in order of time. -/
theorem pairwise_sortByKey {α : Type} (key : α → SortKey) (rows : List α) :
    (sortByKey key rows).Pairwise (fun a b => (key a).timestampNs ≤ (key b).timestampNs) := by
  have htotal : Std.Total (fun a b : α => (key a).le (key b) = true) := by
    refine ⟨fun a b => ?_⟩
    rw [sortKey_le_iff, sortKey_le_iff]
    omega
  have htrans : IsTrans α (fun a b : α => (key a).le (key b) = true) := by
    refine ⟨fun a b c => ?_⟩
    rw [sortKey_le_iff, sortKey_le_iff, sortKey_le_iff]
    omega
  refine (pairwise_insertionSort (fun a b : α => (key a).le (key b) = true) rows).imp ?_
  intro a b hab
  rw [sortKey_le_iff] at hab
  omega

theorem powerOfTwo_iff {i : Int} : Python.powerOfTwo i = true ↔ ∃ k : Nat, i = 2 ^ k := by
  unfold Python.powerOfTwo
  rw [Bool.and_eq_true, decide_eq_true_eq, beq_iff_eq]
  constructor
  · rintro ⟨hpos, hand⟩
    obtain ⟨k, hk⟩ := (Nat.and_sub_one_eq_zero_iff_isPowerOfTwo (by omega)).mp hand
    refine ⟨k, ?_⟩
    have : (i.toNat : Int) = ((2 ^ k : Nat) : Int) := by rw [hk]
    rw [Int.toNat_of_nonneg (by omega)] at this
    rw [this]
    push_cast
    rfl
  · rintro ⟨k, rfl⟩
    have hnat : ((2 : Int) ^ k).toNat = 2 ^ k := by
      have : ((2 : Int) ^ k) = ((2 ^ k : Nat) : Int) := by push_cast; rfl
      rw [this, Int.toNat_natCast]
    refine ⟨by positivity, ?_⟩
    rw [hnat]
    exact (Nat.and_sub_one_eq_zero_iff_isPowerOfTwo (by positivity)).mpr ⟨k, rfl⟩

end CaptureAux

open CaptureAux

/-! ## A loaded capture -/

/-- A row of an export: whole blocks inside 64-bit offsets. -/
structure RowOk (lbaBytes : Int) (row : Row) : Prop where
  timestamp : 0 ≤ row.timestampNs
  offset : 0 ≤ row.offsetBytes
  range : row.offsetBytes + row.lengthBytes < 2 ^ 64
  notSync : row.op ≠ .sync
  dataLength : row.op ≠ .datasync → 0 < row.lengthBytes
  flushLength : row.op = .datasync → row.lengthBytes = 0
  offsetAligned : lbaBytes ∣ row.offsetBytes
  lengthAligned : row.op ≠ .datasync → lbaBytes ∣ row.lengthBytes

/-- What `load_capture` returns. -/
structure LoadedRows (rows : List Row) (captureMeta : CaptureMeta) : Prop where
  nonempty : rows ≠ []
  lba : ∃ k : Nat, captureMeta.lbaBytes = 2 ^ k
  drops : 0 ≤ captureMeta.drops
  ordered : rows.Pairwise (fun a b => a.timestampNs ≤ b.timestampNs)
  rowOk : ∀ row ∈ rows, RowOk captureMeta.lbaBytes row

namespace CaptureAux

theorem finishRow_ok {lbaBytes : Int} {captured : CapturedRow} {row : Row} (h : finishRow lbaBytes captured = .ok row) :
    row = ⟨captured.seq, captured.sourceSeq, captured.timestampNs, captured.op, captured.slba * lbaBytes,
      captured.lengthBytes⟩ ∧
    (captured.op ≠ .datasync → lbaBytes ∣ captured.lengthBytes) ∧
    captured.slba * lbaBytes + captured.lengthBytes < 2 ^ 64 := by
  simp only [finishRow, check_bind_eq_ok, ensure_eq_ok, pure_eq_ok, Except.ok.injEq] at h
  obtain ⟨halign, hrange, hrow⟩ := h
  refine ⟨hrow.symm, fun hop => ?_, by omega⟩
  by_contra hdvd
  exact halign ⟨hop, fun hmod => hdvd (Int.dvd_of_emod_eq_zero hmod)⟩

/-- A row the loop keeps becomes a row of whole blocks. -/
theorem rowOk_of_finishRow {lbaBytes : Int} (hlba : 0 < lbaBytes) {captured : CapturedRow} {row : Row}
    (hok : CapturedOk captured) (h : finishRow lbaBytes captured = .ok row) : RowOk lbaBytes row := by
  obtain ⟨rfl, halign, hrange⟩ := finishRow_ok h
  have hoffset : 0 ≤ captured.slba * lbaBytes := Int.mul_nonneg hok.slba hlba.le
  exact ⟨hok.timestamp, hoffset, hrange, hok.notSync, hok.dataLength, hok.flushLength, Int.dvd_mul_left _ _, halign⟩

/-- The envelope's drops are those of the drops record, and not negative. -/
theorem validateEnvelope_dropped {Γ : Host} {path : String} {records : List NumberedRecord} {allowLegacy : Bool}
    {envelope : CaptureEnvelope} (h : validateEnvelope Γ path records allowLegacy = .ok envelope) :
    ((records.filter (fun numbered => numbered.2.isText "event_type" "drops")).head?.bind
      (fun numbered => numbered.2.int? "dropped")) = some envelope.drops ∧ 0 ≤ envelope.drops := by
  unfold validateEnvelope at h
  simp only [check_bind_eq_ok] at h
  obtain ⟨-, -, -, -, -, -, -, h⟩ := h
  rw [bind_eq_ok] at h
  obtain ⟨drops, hdrops, h⟩ := h
  rw [bind_eq_ok] at h
  obtain ⟨scope, -, h⟩ := h
  rw [pure_eq_ok, Except.ok.injEq] at h
  subst h
  rw [require_eq_ok, Option.filter_eq_some_iff] at hdrops
  exact ⟨hdrops.1, of_decide_eq_true hdrops.2⟩

/-- Lists related item by item look alike through functions that agree on related items. -/
theorem map_eq_of_forall₂ {α β γ : Type} {R : α → β → Prop} {as : List α} {bs : List β} {f : α → γ} {g : β → γ}
    (h : List.Forall₂ R as bs) (hR : ∀ a b, R a b → f a = g b) : as.map f = bs.map g := by
  induction h with
  | nil => rfl
  | cons hab _ ih => rw [map_cons, map_cons, hR _ _ hab, ih]

theorem mapError_eq_ok {ε ε' α : Type} {f : ε → ε'} {x : Except ε α} {a : α} : x.mapError f = .ok a ↔ x = .ok a := by
  cases x <;> simp [Except.mapError]

/-- The end of `load_capture`, once it returns. -/
theorem finishCapture_ok {Γ : Host} {options : LoadOptions} {envelope : CaptureEnvelope} {st : CaptureState}
    {rows : List Row} {captureMeta : CaptureMeta} (h : finishCapture Γ options envelope st = .ok (rows, captureMeta)) :
    (options.requestedLba <|> st.metadataLba) = some captureMeta.lbaBytes ∧
      Python.powerOfTwo captureMeta.lbaBytes = true ∧ st.rows ≠ [] ∧
      List.Forall₂ (fun captured row => finishRow captureMeta.lbaBytes captured = .ok row)
        (sortByKey CapturedRow.key st.rows) rows ∧
      captureMeta.drops = envelope.drops ∧ captureMeta.unsupportedCommandsOmitted = st.unsupported.length := by
  unfold finishCapture at h
  simp only [check_bind_eq_ok] at h
  obtain ⟨-, -, h⟩ := h
  rw [bind_eq_ok] at h
  obtain ⟨lba, hlba, h⟩ := h
  simp only [check_bind_eq_ok] at h
  obtain ⟨hpow, -, hrows, h⟩ := h
  rw [bind_eq_ok] at h
  obtain ⟨finished, hfinished, h⟩ := h
  rw [pure_eq_ok, Except.ok.injEq, Prod.mk.injEq] at h
  obtain ⟨rfl, rfl⟩ := h
  exact ⟨require_eq_ok.mp hlba, ensure_eq_ok.mp hpow, ensure_eq_ok.mp hrows, mapM_eq_ok.mp hfinished, rfl, rfl⟩

theorem loadCapture_ok {Γ : Host} {path : String} {content : Γ.Bytes} {options : LoadOptions} {rows : List Row}
    {captureMeta : CaptureMeta} (h : loadCapture Γ path content options = .ok (rows, captureMeta)) :
    ∃ records envelope st, loadRecords Γ path content = .ok records ∧
      validateEnvelope Γ path records options.allowLegacyCapture = .ok envelope ∧
      foldFrom (captureStep path) 0 {} records = .ok st ∧ finishCapture Γ options envelope st = .ok (rows, captureMeta) := by
  unfold loadCapture at h
  simp only [bind_eq_ok, mapError_eq_ok] at h
  obtain ⟨records, hrecords, envelope, henvelope, st, hst, h⟩ := h
  exact ⟨records, envelope, st, hrecords, henvelope, hst, h⟩

end CaptureAux

/-- The rows of a loaded capture are whole blocks in order of time. -/
theorem loadedRows_of_loadCapture {Γ : Host} {path : String} {content : Γ.Bytes} {options : LoadOptions} {rows : List Row}
    {captureMeta : CaptureMeta} (h : loadCapture Γ path content options = .ok (rows, captureMeta)) :
    LoadedRows rows captureMeta := by
  obtain ⟨records, envelope, st, -, henvelope, hst, hfinish⟩ := loadCapture_ok h
  obtain ⟨-, hpow, hne, hrows, hdrops, -⟩ := finishCapture_ok hfinish
  obtain ⟨k, hk⟩ := powerOfTwo_iff.mp hpow
  have hpos : 0 < captureMeta.lbaBytes := by
    rw [hk]
    positivity
  have hsorted : (sortByKey CapturedRow.key st.rows).Pairwise (fun a b => a.timestampNs ≤ b.timestampNs) :=
    pairwise_sortByKey CapturedRow.key st.rows
  refine ⟨?_, ⟨k, hk⟩, ?_, ?_, ?_⟩
  · rintro rfl
    have hempty : sortByKey CapturedRow.key st.rows = [] := forall₂_nil_right_iff.mp hrows
    obtain ⟨row, rest, hrow⟩ := exists_cons_of_ne_nil hne
    have hmem : row ∈ sortByKey CapturedRow.key st.rows := mem_sortByKey.mpr (by simp [hrow])
    rw [hempty] at hmem
    cases hmem
  · rw [hdrops]
    exact (validateEnvelope_dropped henvelope).2
  · have htimes : rows.map (·.timestampNs) = (sortByKey CapturedRow.key st.rows).map (·.timestampNs) := by
      refine (map_eq_of_forall₂ hrows ?_).symm
      intro captured row hrow
      rw [(finishRow_ok hrow).1]
    have := pairwise_map.mpr hsorted
    rw [← htimes] at this
    exact pairwise_map.mp this
  · intro row hrow
    obtain ⟨captured, hcaptured, hfin⟩ := exists_of_forall₂_right hrows row hrow
    exact rowOk_of_finishRow hpos (capturedOk_of_fold hst captured (mem_sortByKey.mp hcaptured)) hfin


end EbpfSyscall
