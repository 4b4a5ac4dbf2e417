import EbpfSyscall.Lemmas.Compare
import EbpfSyscall.Lemmas.Export
import EbpfSyscall.Replay.Update

/-!
# One capture, two readers

The exporter's `load_capture` and the referee's `load` read the same capture. Where both accept it, the referee has refused
unsupported commands, so the exporter omitted none, and both find the same commands in the same order.
-/

namespace EbpfSyscall

open Checked CompareStreams CompareAux List

namespace SameStreamAux

/-! ## The records -/

variable {path' path : String} {Γ : Host}

theorem loadRecord_congr {s t u : List NumberedRecord} {i : Nat} {line : Text}
    (h : loadRecord Γ path s i line = .ok t) (h' : loadRecord Γ path' s i line = .ok u) : t = u := by
  unfold loadRecord at h h'
  split at h
  · rename_i hblank
    rw [if_pos hblank] at h'
    exact (Except.ok.inj h).symm.trans (Except.ok.inj h')
  · rename_i hblank
    rw [if_neg hblank] at h'
    cases hjson : Γ.jsonLoads line with
    | error failure =>
      rw [hjson] at h
      cases failure <;> cases h
    | ok value =>
      rw [hjson] at h h'
      cases value with
      | obj record => exact (Except.ok.inj h).symm.trans (Except.ok.inj h')
      | null | bool _ | int _ | float _ | str _ | arr _ => cases h

/-- The records of a capture do not depend on the path it is read from. -/
theorem loadRecords_congr {content : Γ.Bytes} {records records' : List NumberedRecord}
    (h : loadRecords Γ path content = .ok records) (h' : loadRecords Γ path' content = .ok records') : records = records' := by
  unfold loadRecords at h h'
  simp only [bind_eq_ok, ensure_eq_ok, pure_eq_ok, Except.ok.injEq] at h h'
  obtain ⟨text, htext, found, hfound, -, -, rfl⟩ := h
  obtain ⟨text', htext', found', hfound', -, -, rfl⟩ := h'
  obtain rfl : text = text' := Except.ok.inj (htext.symm.trans htext')
  refine foldFrom_simulation (fun s t => s = t) ?_ rfl hfound hfound'
  intro i s t line s' t' hst hs ht
  subst hst
  exact loadRecord_congr hs ht

/-- The drops of an envelope are those of the only drops record. -/
theorem validateEnvelope_congr {records : List NumberedRecord} {legacy legacy' : Bool}
    {envelope envelope' : CaptureEnvelope} (h : validateEnvelope Γ path records legacy = .ok envelope)
    (h' : validateEnvelope Γ path' records legacy' = .ok envelope') : envelope.drops = envelope'.drops := by
  have h₁ := (CaptureAux.validateEnvelope_dropped h).1
  have h₂ := (CaptureAux.validateEnvelope_dropped h').1
  exact Option.some.inj (h₁.symm.trans h₂)

/-! ## The two loops -/

/-- The row of a command of the referee. -/
def asRow (command : StreamCommand) : CapturedRow :=
  ⟨command.seq, command.sourceSeq, command.ts, command.op, command.slba, command.bytes⟩

/-- A row as the referee reads it: a flush has block 0, whatever its record carries. -/
def settled (row : CapturedRow) : CapturedRow := if row.op = .datasync then { row with slba := 0 } else row

/-- The states of the two loops after the same records. -/
structure SameRead (st : CaptureState) (t : StreamState) : Prop where
  supported : st.unsupported = []
  rows : st.rows.map settled = t.commands.map asRow

theorem isText_unique {d : Dict} {key a b : String} (h : d.isText key a = true) (hab : a ≠ b) : d.isText key b = false := by
  simp only [Dict.isText, decide_eq_true_eq, decide_eq_false_iff_not] at h ⊢
  rw [h, Option.some.injEq, Json.str.injEq, String.toList_inj]
  exact hab

/-- Both readers read a command record as the same row. -/
theorem settled_eq_asRow {numbered : NumberedRecord} {sourceSeq : Nat} {opName opName' : Text} {row : CapturedRow}
    {command : StreamCommand} (hop : numbered.2.get "op_name" = some (.str opName)) (h : ReadsAs numbered sourceSeq opName row)
    (h' : StreamReadsAs numbered sourceSeq opName' command) : settled row = asRow command := by
  obtain rfl : opName = opName' := by
    have := hop.symm.trans h'.name
    simpa using this
  have hseq : row.seq = command.seq := Except.ok.inj (h.seq.symm.trans h'.seq)
  have hts : row.timestampNs = command.ts := Except.ok.inj (h.timestamp.symm.trans (intOf_of_get h'.ts))
  have hop' : row.op = command.op := h.op.trans h'.op.symm
  have hsource : row.sourceSeq = command.sourceSeq := h.sourceSeq.trans h'.sourceSeq.symm
  unfold settled asRow
  by_cases hflush : opName = "flush".toList
  · have hsync : row.op = .datasync := h.op.trans (CaptureAux.operationOf_eq_datasync.mpr hflush)
    rw [if_pos hsync, CapturedRow.mk.injEq]
    exact ⟨hseq, hsource, hts, hop', (h'.flush hflush).1.symm, (h.flushLength hflush).trans (h'.flush hflush).2.symm⟩
  · have hsync : row.op ≠ .datasync := fun hs => hflush (CaptureAux.operationOf_eq_datasync.mp (h.op.symm.trans hs))
    have hslba : row.slba = command.slba := Except.ok.inj (h.slba.symm.trans (intOf_of_get (h'.data hflush).1))
    have hbytes : row.lengthBytes = command.bytes :=
      Except.ok.inj ((h.dataLength hflush).symm.trans (intOf_of_get (h'.data hflush).2))
    rw [if_neg hsync]
    obtain ⟨_, _, _, _, _, _⟩ := row
    simp only at hseq hsource hts hop' hslba hbytes
    rw [hseq, hsource, hts, hop', hslba, hbytes]

theorem sameRead_step (i : Nat) (st : CaptureState) (t : StreamState)
    (numbered : NumberedRecord) (st' : CaptureState) (t' : StreamState) (h : SameRead st t)
    (hst : captureStep path st i numbered = .ok st') (ht : streamStep Γ path' t i numbered = .ok t') : SameRead st' t' := by
  rcases CaptureAux.captureStep_cases hst with
    ⟨lba, hmeta, hlba, -, -, rfl⟩ | ⟨opName, row, hcmd, hknown, hop, hreads, -, -, rfl⟩ | ⟨hcmd, hunknown, rfl⟩ |
    ⟨hmeta, hcmd, rfl⟩
  · rcases streamStep_cases ht with ⟨-, hc, -⟩ | ⟨hnot, -⟩ | ⟨-, value, -, rfl⟩ | ⟨-, rfl⟩
    · exact ⟨h.supported, by rw [hc]; exact h.rows⟩
    · rw [hmeta, hlba] at hnot
      cases hnot
    · exact ⟨h.supported, h.rows⟩
    · exact ⟨h.supported, h.rows⟩
  · have hmeta : numbered.2.isText "event_type" "capture_meta" = false := isText_unique hcmd (by decide)
    rcases streamStep_cases ht with ⟨hm, -, -⟩ | ⟨-, -, opName', command, hreads', hc, -⟩ | ⟨hnot, -⟩ | ⟨hnot, -⟩
    · rw [hmeta] at hm
      cases hm
    · refine ⟨h.supported, ?_⟩
      rw [hc, map_append, map_append, h.rows, map_singleton, map_singleton,
        settled_eq_asRow hop hreads hreads']
    · rw [hcmd] at hnot
      cases hnot
    · rw [hcmd] at hnot
      cases hnot
  · have hmeta : numbered.2.isText "event_type" "capture_meta" = false := isText_unique hcmd (by decide)
    rcases streamStep_cases ht with ⟨hm, -, -⟩ | ⟨-, -, opName', command, hreads', hc, -⟩ | ⟨hnot, -⟩ | ⟨hnot, -⟩
    · rw [hmeta] at hm
      cases hm
    · exact absurd hreads'.name (hunknown opName' hreads'.known)
    · rw [hcmd] at hnot
      cases hnot
    · rw [hcmd] at hnot
      cases hnot
  · rcases streamStep_cases ht with ⟨-, hc, -⟩ | ⟨-, hcmd', -⟩ | ⟨-, value, -, rfl⟩ | ⟨-, rfl⟩
    · exact ⟨h.supported, by rw [hc]; exact h.rows⟩
    · rw [hcmd] at hcmd'
      cases hcmd'
    · exact ⟨h.supported, h.rows⟩
    · exact h

/-! ## The streams -/

/-- Sorting commands sorts their rows. -/
theorem map_asRow_sortByKey (commands : List StreamCommand) :
    (sortByKey StreamCommand.key commands).map asRow = sortByKey CapturedRow.key (commands.map asRow) :=
  map_insertionSort _ _ asRow commands fun _ _ _ _ => Iff.rfl

/-- Pairing leaves the rows of the commands as they are. -/
theorem map_asRow_of_bare {commands commands' : List StreamCommand} (h : commands.map bare = commands'.map bare) :
    commands.map asRow = commands'.map asRow := by
  have hfactor : ∀ cs : List StreamCommand, cs.map asRow = (cs.map bare).map asRow := by
    intro cs
    rw [map_map]
    rfl
  rw [hfactor, hfactor commands', h]

/-- The row of an export. -/
def exportRow (lbaBytes : Int) (row : CapturedRow) : Row :=
  ⟨row.seq, row.sourceSeq, row.timestampNs, row.op, row.slba * lbaBytes, row.lengthBytes⟩

end SameStreamAux

open SameStreamAux

/-- The exporter and the referee find the same commands in a capture that both accept and whose flushes are at offset 0. -/
theorem rows_eq_of_load {Γ : Host} {path path' : String} {content : Γ.Bytes} {options : LoadOptions} {rows : List Row}
    {captureMeta : CaptureMeta} {legacy : Bool} {source : LoadedStream}
    (hload : loadCapture Γ path content options = .ok (rows, captureMeta))
    (hsource : CompareStreams.load Γ path' content legacy = .ok source)
    (hzero : ∀ row ∈ rows, row.op = .datasync → row.offsetBytes = 0) :
    captureMeta.unsupportedCommandsOmitted = 0 ∧ captureMeta.drops = source.drops ∧
      rows = source.commands.map (fun command => exportRow captureMeta.lbaBytes (asRow command)) := by
  obtain ⟨records, envelope, st, hrecords, henvelope, hst, hfinish⟩ := CaptureAux.loadCapture_ok hload
  obtain ⟨-, hpow, -, hrows, hdrops, homitted⟩ := CaptureAux.finishCapture_ok hfinish
  obtain ⟨records', envelope', t, hrecords', henvelope', ht, hcommands, -, -, hdrops'⟩ := load_ok hsource
  obtain rfl := loadRecords_congr hrecords hrecords'
  have hsame : SameRead st t := foldFrom_simulation SameRead sameRead_step ⟨rfl, rfl⟩ hst ht
  have hlba : captureMeta.lbaBytes ≠ 0 := by
    obtain ⟨k, hk⟩ := CaptureAux.powerOfTwo_iff.mp hpow
    rw [hk]
    positivity
  have hsettled : st.rows.map settled = st.rows := by
    refine (map_congr_left fun row hrow => ?_).trans (map_id _)
    obtain ⟨out, hout, hfin⟩ := Checked.exists_of_forall₂_left hrows row (CaptureAux.mem_sortByKey.mpr hrow)
    obtain ⟨rfl, -, -⟩ := CaptureAux.finishRow_ok hfin
    unfold settled
    split
    · rename_i hsync
      have hslba : row.slba = 0 := (mul_eq_zero.mp (hzero _ hout hsync)).resolve_right hlba
      obtain ⟨_, _, _, _, _, _⟩ := row
      simp only at hslba
      rw [hslba]
      rfl
    · rfl
  have hpaired : source.commands.map asRow = sortByKey CapturedRow.key st.rows := by
    obtain ⟨paired, hpaired, hinv⟩ := pairCompletions_paired t.events fun c hc => ((collected_of_fold ht).commands c hc).1
    rw [hcommands, map_asRow_sortByKey, hpaired, map_asRow_of_bare hinv.bare, ← hsame.rows, hsettled]
  refine ⟨by rw [homitted, hsame.supported]; rfl, ?_, ?_⟩
  · rw [hdrops, hdrops', validateEnvelope_congr henvelope henvelope']
  · have hmap : (sortByKey CapturedRow.key st.rows).map (exportRow captureMeta.lbaBytes) = rows.map id :=
      CaptureAux.map_eq_of_forall₂ hrows fun captured row hrow => (CaptureAux.finishRow_ok hrow).1.symm
    rw [map_id, ← hpaired, map_map] at hmap
    exact hmap.symm

end EbpfSyscall
