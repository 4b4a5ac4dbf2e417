import EbpfSyscall.Lemmas.Serde
import EbpfSyscall.Lemmas.Tolerated
import EbpfSyscall.Lemmas.Translation

/-!
# The exporter's stream and the verifier's workload

The exporter's rows and the commands Rust reads from the exported workload are the same list (`SameCommand`), so the two emitters
write the same text and the verifier's checks hold of what `load_capture` returned.
-/

namespace EbpfSyscall

open Checked ReparseAux SerdeAux List

/-- The verifier's check of the iolog text: it parses, and the workload emitted again for the parsed filename is the text. -/
def CanonicalForRust (normalized : List NormalizedCommand) (iolog : Text) : Prop :=
  ∃ workload parsed, Workload.ofJson? (workloadJson normalized) = some workload ∧ parseFioIolog iolog = .ok parsed ∧
    emitFioIolog workload.commands parsed.filename = .ok iolog

/-- The command Rust read for a row of a stream that starts at `t0`. -/
structure SameCommand (t0 : Int) (row : Row) (c : Command) : Prop where
  atNs : (c.atNs.toNat : Int) = row.timestampNs - t0
  op : c.op = row.op
  offset : (c.offsetBytes.toNat : Int) = row.offsetBytes
  length : (c.lengthBytes.toNat : Int) = row.lengthBytes

namespace ExportAux

/-! ## The emitted text -/

theorem intercalate_newline {ls : List Text} (h : ls ≠ []) : ['\n'].intercalate ls ++ ['\n'] = ls.flatMap (fun l => l ++ ['\n']) := by
  induction ls with
  | nil => exact absurd rfl h
  | cons l ls ih =>
    cases ls with
    | nil => simp
    | cons m ls =>
      rw [intercalate_cons_cons, append_assoc, ih (by simp), flatMap_cons (x := l)]

theorem rowLine_eq (t0 : Int) (name : Text) (row : Row) :
    rowLine t0 name row = LineTemplate.fill name ⟨printed ((row.timestampNs - t0) / 1000), rowWords row⟩ := by
  unfold rowLine LineTemplate.fill rowWords fieldLine
  split <;> simp [intercalate]

variable {rows : List Row} {last : Row} {commands : List Command} {t0 : Int} {c : Command} {row : Row} {lbaBytes : Int}

/-- The exporter emits the lines around the device name. -/
theorem emitIolog_eq {first : Row} (hfirst : rows.head? = some first) (hlast : rows.getLast? = some last) (name : Text) :
    emitIolog rows name = .ok (iologOf (templates first.timestampNs last.timestampNs rows) name) := by
  have hline : ∀ word stamp : Text, stamp ++ [' '] ++ name ++ (' ' :: word) = LineTemplate.fill name ⟨stamp, [word]⟩ := by
    intro word stamp
    simp [LineTemplate.fill, fieldLine, intercalate]
  have hadd : "0 ".toList ++ name ++ " add".toList = LineTemplate.fill name ⟨"0".toList, ["add".toList]⟩ :=
    hline "add".toList "0".toList
  have hopen : "0 ".toList ++ name ++ " open".toList = LineTemplate.fill name ⟨"0".toList, ["open".toList]⟩ :=
    hline "open".toList "0".toList
  have hclose : ∀ i : Int, printed i ++ [' '] ++ name ++ " close".toList =
      LineTemplate.fill name ⟨printed i, ["close".toList]⟩ := fun i => hline "close".toList (printed i)
  unfold emitIolog
  rw [hfirst, hlast]
  simp only [require, ok_bind, pure_eq_ok, Except.ok.injEq]
  rw [intercalate_newline (by simp), iologOf, templates, hadd, hopen, hclose]
  simp only [flatMap_cons, flatMap_append, flatMap_map, flatMap_nil, cons_append, nil_append,
    append_assoc, rowLine_eq]

/-! ## The same commands -/

theorem forall₂_of_mapIdx {f : Nat → Row → NormalizedCommand} (h : commands.map Command.toNormalized = rows.mapIdx f) :
    List.Forall₂ (fun row c => ∃ i, Command.toNormalized c = f i row) rows commands := by
  induction rows generalizing commands f with
  | nil =>
    obtain rfl : commands = [] := by simpa using h
    exact Forall₂.nil
  | cons row rows ih =>
    cases commands with
    | nil => simp at h
    | cons c commands =>
      rw [map_cons, mapIdx_cons, cons.injEq] at h
      refine Forall₂.cons ⟨0, h.1⟩ ((ih h.2).imp ?_)
      rintro row c ⟨i, hi⟩
      exact ⟨i + 1, hi⟩

theorem sameCommand_of_toNormalized
    (h : commands.map Command.toNormalized = normalizedRows rows t0) : List.Forall₂ (SameCommand t0) rows commands := by
  refine (forall₂_of_mapIdx h).imp ?_
  rintro row c ⟨i, hi⟩
  rw [Command.toNormalized, NormalizedCommand.mk.injEq] at hi
  exact ⟨hi.2.1, hi.2.2.1, hi.2.2.2.1, hi.2.2.2.2⟩

theorem seq_of_toNormalized (h : commands.map Command.toNormalized = normalizedRows rows t0) {i : Nat} (hc : commands[i]? = some c) :
    c.seq.toNat = i := by
  have hi : (normalizedRows rows t0)[i]? = some c.toNormalized := by
    rw [← h, getElem?_map, hc, Option.map_some]
  rw [normalizedRows, getElem?_mapIdx, Option.map_eq_some_iff] at hi
  obtain ⟨row, -, hrow⟩ := hi
  have := congrArg NormalizedCommand.seq hrow
  simp only [Command.toNormalized] at this
  omega

theorem printed_natCast (n : Nat) : printed n = Decimal.print n := by
  rw [printed, Decimal.printInt_natCast]

/-- Both emitters stamp a row alike. -/
theorem display_quantize (h : SameCommand t0 row c) : Rust.display (quantizeTimestampNs c.atNs).1 = printed ((row.timestampNs - t0) / 1000) := by
  have hdiv : ((quantizeTimestampNs c.atNs).1.toNat : Int) = (row.timestampNs - t0) / 1000 := by
    rw [← h.atNs, quantizeTimestampNs, UInt64.toNat_div]
    rfl
  rw [← hdiv, printed_natCast]
  rfl

theorem display_toNat {n : UInt64} {i : Int} (h : (n.toNat : Int) = i) : Rust.display n = printed i := by
  rw [← h, printed_natCast]
  rfl

/-- Both emitters write the same words for a row. -/
theorem commandWords_eq (h : SameCommand t0 row c) (hrow : RowOk lbaBytes row) (name : Text) :
    commandWords name c = printed ((row.timestampNs - t0) / 1000) :: name :: rowWords row := by
  unfold commandWords rowWords
  rw [display_quantize h, display_toNat h.offset, display_toNat h.length, h.op]
  cases hop : row.op with
  | read => rfl
  | write => rfl
  | sync => exact absurd hop hrow.notSync
  | datasync => rfl

theorem map_commandWords_eq (h : List.Forall₂ (SameCommand t0) rows commands) (hrows : ∀ row ∈ rows, RowOk lbaBytes row) (name : Text) :
    commands.map (commandWords name) =
      rows.map (fun row => printed ((row.timestampNs - t0) / 1000) :: name :: rowWords row) := by
  induction h with
  | nil => rfl
  | cons hrc _ ih =>
    rw [map_cons, map_cons, commandWords_eq hrc (hrows _ (by simp)), ih (fun row hrow => hrows row (by simp [hrow]))]

theorem display_closeUs (h : List.Forall₂ (SameCommand t0) rows commands) (hlast : rows.getLast? = some last) :
    Rust.display (closeUs commands) = printed ((last.timestampNs - t0) / 1000) := by
  have hmap := CaptureAux.map_eq_of_forall₂ h (fun row c hrc => (display_quantize hrc).symm)
  have hends := congrArg getLast? hmap
  rw [getLast?_map, getLast?_map, hlast, Option.map_some, eq_comm, Option.map_eq_some_iff] at hends
  obtain ⟨c, hc, hdisplay⟩ := hends
  rw [closeUs, hc]
  exact hdisplay

/-- The exporter and the verifier emit the same text for the same stream, whatever the device name is. -/
theorem iologText_eq_iologOf (h : List.Forall₂ (SameCommand t0) rows commands) (hrows : ∀ row ∈ rows, RowOk lbaBytes row)
    (hlast : rows.getLast? = some last) (name : Text) :
    iologText commands name = iologOf (templates t0 last.timestampNs rows) name := by
  have hbody : iologBody commands name =
      (templates t0 last.timestampNs rows).map (fun t => t.stamp :: name :: t.words) := by
    rw [iologBody, map_commandWords_eq h hrows, display_closeUs h hlast, templates]
    simp
  rw [IologAux.iologText_eq, hbody, flatMap_map]
  rfl

/-! ## The verifier's workload -/

theorem commandFits_of_row {lba : UInt64} (h : SameCommand t0 row c)
    (hrow : RowOk lbaBytes row) (hflush : row.op = .datasync → row.offsetBytes = 0) (hdvd : (lba.toNat : Int) ∣ lbaBytes) :
    CommandFits lba {} c := by
  have hoffset := h.offset
  have hlength := h.length
  have hrange := hrow.range
  have hdata : c.op.isData = true → row.op ≠ .datasync := by
    intro hd hop
    rw [h.op, hop] at hd
    cases hd
  refine ⟨fun hd hz => ?_, fun _ => ?_, fun hd => ?_, fun _ => by omega, by simp, by simp, fun hd => ?_⟩
  · have := hrow.dataLength (hdata hd)
    rw [hz] at hlength
    simp at hlength
    omega
  · have := hdvd.trans hrow.offsetAligned
    rw [← hoffset] at this
    exact Int.natCast_dvd_natCast.mp this
  · have := hdvd.trans (hrow.lengthAligned (hdata hd))
    rw [← hlength] at this
    exact Int.natCast_dvd_natCast.mp this
  · have hop : row.op = .datasync := by
      rw [h.op] at hd
      cases hcase : row.op with
      | read | write => rw [hcase] at hd; cases hd
      | sync => exact absurd hcase hrow.notSync
      | datasync => rfl
    rw [hflush hop] at hoffset
    rw [hrow.flushLength hop] at hlength
    exact ⟨UInt64.toNat_inj.mp (by simpa using hoffset), UInt64.toNat_inj.mp (by simpa using hlength)⟩

/-- The commands read from an export are a workload the verifier accepts. -/
theorem workloadOk_of_rows (lba : UInt64) (h : commands.map Command.toNormalized = normalizedRows rows t0) (hrows : ∀ row ∈ rows, RowOk lbaBytes row)
    (hordered : rows.Pairwise (fun a b => a.timestampNs ≤ b.timestampNs))
    (hflush : ∀ row ∈ rows, row.op = .datasync → row.offsetBytes = 0) (hlba : lba.toNat.isPowerOfTwo)
    (hdvd : (lba.toNat : Int) ∣ lbaBytes) : WorkloadOk { schemaVersion := 1, commands } lba {} := by
  have hsame := sameCommand_of_toNormalized h
  refine ⟨rfl, hlba, by simp [RegionOk], by simp [LimitOk], fun i c hc => seq_of_toNormalized h hc, fun c hc => ?_, ?_⟩
  · obtain ⟨row, hrow, hrc⟩ := Checked.exists_of_forall₂_right hsame c hc
    exact commandFits_of_row hrc (hrows row hrow) (hflush row hrow) hdvd
  · have htimes : rows.map (fun row => row.timestampNs - t0) = commands.map (fun c => (c.atNs.toNat : Int)) :=
      CaptureAux.map_eq_of_forall₂ hsame (fun _ _ hrc => hrc.atNs.symm)
    have hshift : (rows.map (fun row => row.timestampNs - t0)).Pairwise (· ≤ ·) := by
      rw [pairwise_map]
      exact hordered.imp (fun hab => by omega)
    rw [htimes, pairwise_map] at hshift
    refine hshift.imp fun hab => ?_
    rw [UInt64.le_iff_toNat_le]
    omega

/-! ## The certificate -/

theorem map_expected (rows : List Row) (t0 : Int) : (normalizedRows rows t0).map NormalizedCommand.expected = rows.map (expectedRow t0) := by
  refine ext_getElem? fun i => ?_
  rw [normalizedRows, getElem?_map, getElem?_mapIdx, getElem?_map, Option.map_map]
  rfl

/-- The exporter certifies exactly the iologs it reads its stream from. -/
theorem translationCertificate_eq_ok {Γ : Host} {first : Row} (hfirst : rows.head? = some first)
    {iolog : Text} {capture : Γ.Bytes} {captureMeta : CaptureMeta} {result : Certificate × List NormalizedCommand} :
    translationCertificate Γ rows iolog capture captureMeta = .ok result ↔
      parseIolog iolog = .ok (rows.map (expectedRow first.timestampNs)) ∧
      ∃ maximum, ((normalizedRows rows first.timestampNs).map (fun c => c.atNs % 1000)).max? = some maximum ∧
        result = (certificateOf Γ rows (normalizedRows rows first.timestampNs) (rows.map (expectedRow first.timestampNs))
          maximum iolog capture captureMeta, normalizedRows rows first.timestampNs) := by
  have hequal : ∀ reparsed maximum, (certificateOf Γ rows (normalizedRows rows first.timestampNs) reparsed maximum iolog
      capture captureMeta).operationOffsetLengthSequenceEqual = true ↔
      reparsed = rows.map (expectedRow first.timestampNs) := by
    intro reparsed maximum
    rw [certificateOf, map_expected, decide_eq_true_eq]
  unfold translationCertificate
  rw [hfirst]
  constructor
  · intro h
    rw [require, ok_bind, bind_eq_ok] at h
    obtain ⟨reparsed, hparse, h⟩ := h
    rw [bind_eq_ok] at h
    obtain ⟨maximum, hmax, h⟩ := h
    rw [check_bind_eq_ok, ensure_eq_ok, hequal, pure_eq_ok, Except.ok.injEq] at h
    obtain ⟨rfl, rfl⟩ := h
    exact ⟨hparse, maximum, require_eq_ok.mp hmax, rfl⟩
  · rintro ⟨hparse, maximum, hmax, rfl⟩
    rw [require, ok_bind, hparse, ok_bind, hmax, require, ok_bind]
    exact check_bind_eq_ok.mpr ⟨ensure_eq_ok.mpr ((hequal _ _).mpr rfl), rfl⟩

/-! ## Numbers that fit -/

/-- The Rust command with the numbers of a command of the stream. -/
def toCommand (command : NormalizedCommand) : Command where
  atNs := UInt64.ofNat command.atNs.toNat
  lengthBytes := UInt64.ofNat command.lengthBytes.toNat
  offsetBytes := UInt64.ofNat command.offsetBytes.toNat
  op := command.op
  seq := UInt64.ofNat command.seq.toNat

theorem toNat_ofNat_toNat {i : Int} (h0 : 0 ≤ i) (h1 : i < 2 ^ 64) : ((UInt64.ofNat i.toNat).toNat : Int) = i := by
  rw [UInt64.toNat_ofNat', Nat.mod_eq_of_lt (by omega)]
  omega

theorem mem_normalizedRows {command : NormalizedCommand} (h : command ∈ normalizedRows rows t0) : ∃ i row, i < rows.length ∧ row ∈ rows ∧
      command = ⟨i, row.timestampNs - t0, row.op, row.offsetBytes, row.lengthBytes⟩ := by
  rw [normalizedRows, mem_mapIdx] at h
  obtain ⟨i, hi, rfl⟩ := h
  exact ⟨i, rows[i], hi, getElem_mem hi, rfl⟩

/-- A stream whose numbers fit in 64 bits is one Rust can read. -/
theorem exists_commands (hrows : ∀ row ∈ rows, RowOk lbaBytes row)
    (hle : ∀ row ∈ rows, t0 ≤ row.timestampNs) (hspan : ∀ row ∈ rows, row.timestampNs - t0 < 2 ^ 64)
    (hcount : rows.length ≤ 2 ^ 64) :
    ∃ commands : List Command, commands.map Command.toNormalized = normalizedRows rows t0 := by
  refine ⟨(normalizedRows rows t0).map toCommand, ?_⟩
  have hid : ∀ command ∈ normalizedRows rows t0, (toCommand command).toNormalized = command := by
    intro command hcommand
    obtain ⟨i, row, hi, hrow, rfl⟩ := mem_normalizedRows hcommand
    have h1 := hle row hrow
    have h2 := hspan row hrow
    have hok := hrows row hrow
    have hoffset := hok.offset
    have hrange := hok.range
    have hlength : 0 ≤ row.lengthBytes := by
      by_cases hop : row.op = .datasync
      · rw [hok.flushLength hop]
      · exact (hok.dataLength hop).le
    rw [Command.toNormalized, toCommand, NormalizedCommand.mk.injEq]
    exact ⟨toNat_ofNat_toNat (by simp only; omega) (by simp only; omega), toNat_ofNat_toNat (by simp only; omega) h2, rfl,
      toNat_ofNat_toNat hoffset (by simp only; omega), toNat_ofNat_toNat hlength (by simp only; omega)⟩
  rw [map_map]
  exact (map_congr_left hid).trans (map_id _)

/-- A stream Rust can read has numbers that fit in 64 bits. -/
theorem fits_of_commands (h : commands.map Command.toNormalized = normalizedRows rows t0) :
    (∀ row ∈ rows, row.timestampNs - t0 < 2 ^ 64) ∧ rows.length ≤ 2 ^ 64 := by
  have hsame := sameCommand_of_toNormalized h
  constructor
  · intro row hrow
    obtain ⟨c, hc, hrc⟩ := exists_of_forall₂_left hsame row hrow
    have := hrc.atNs
    have := c.atNs.toNat_lt
    omega
  · rw [hsame.length_eq]
    by_contra hlong
    obtain ⟨c, hc⟩ : ∃ c, commands[2 ^ 64]? = some c := ⟨_, getElem?_eq_getElem (by omega)⟩
    have hseq := seq_of_toNormalized h hc
    have := c.seq.toNat_lt
    omega

theorem largestLoss_of_max {maximum : Int} {error : UInt64} (h : commands.map Command.toNormalized = normalizedRows rows t0)
    (hmax : ((normalizedRows rows t0).map (fun c => c.atNs % 1000)).max? = some maximum)
    (herror : (error.toNat : Int) = maximum) : LargestLoss commands error := by
  rw [← h, map_map] at hmax
  obtain ⟨hmem, hle⟩ := max?_eq_some_iff.mp hmax
  obtain ⟨c, hc, hcmax⟩ := mem_map.mp hmem
  simp only [Function.comp_apply, Command.toNormalized] at hcmax
  refine ⟨?_, fun _ => ⟨c, hc, by omega⟩, fun d hd => ?_⟩
  · rintro rfl
    cases hc
  · have := hle _ (mem_map.mpr ⟨d, hd, rfl⟩)
    simp only [Function.comp_apply, Command.toNormalized] at this
    omega

/-! ## The filename of a text -/

theorem length_commandLine (filename : Text) (c : Command) : (commandLine filename c).length = (commandLine [] c).length + filename.length := by
  unfold commandLine
  dsimp only
  split <;> simp only [length_append, length_nil] <;> omega

theorem length_iologText (commands : List Command) (filename : Text) :
    (iologText commands filename).length = (iologText commands []).length + (commands.length + 3) * filename.length := by
  have hlines : (commands.flatMap (commandLine filename)).length =
      (commands.flatMap (commandLine [])).length + commands.length * filename.length := by
    induction commands with
    | nil => simp
    | cons c commands ih =>
      rw [flatMap_cons, flatMap_cons, length_append, length_append, ih, length_commandLine,
        length_cons, Nat.succ_mul]
      omega
  unfold iologText
  simp only [length_append, length_nil]
  rw [hlines, Nat.add_mul]
  omega

/-- A text names its file: the same commands with another filename are another text. -/
theorem iologText_injective {f g : Text} (h : iologText commands f = iologText commands g) : f = g := by
  have hlength : f.length = g.length := by
    have hf := length_iologText commands f
    have hg := length_iologText commands g
    rw [h] at hf
    have hmul : (commands.length + 3) * f.length = (commands.length + 3) * g.length := by omega
    exact Nat.eq_of_mul_eq_mul_left (by omega) hmul
  unfold iologText at h
  simp only [append_assoc] at h
  have hrest := append_cancel_left (append_cancel_left (append_cancel_left h))
  exact (append_inj hrest hlength).1

/-- The verifier finds the text of an export canonical exactly when the device name is one word and the numbers fit. -/
theorem canonicalForRust_iff (hrows : ∀ row ∈ rows, RowOk lbaBytes row)
    (hordered : rows.Pairwise (fun a b => a.timestampNs ≤ b.timestampNs)) (hle : ∀ row ∈ rows, t0 ≤ row.timestampNs)
    (hflush : ∀ row ∈ rows, row.op = .datasync → row.offsetBytes = 0) (hlast : rows.getLast? = some last)
    (name : Text) :
    CanonicalForRust (normalizedRows rows t0) (iologOf (templates t0 last.timestampNs rows) name) ↔
      RustWord name ∧ (∀ row ∈ rows, row.timestampNs - t0 < 2 ^ 64) ∧ rows.length ≤ 2 ^ 64 := by
  constructor
  · rintro ⟨workload, parsed, hread, -, hemit⟩
    obtain ⟨-, hcommands⟩ := workload_ofJson_iff.mp hread
    obtain ⟨hword, -, htext⟩ := emitFioIolog_eq_ok.mp hemit
    rw [← iologText_eq_iologOf (sameCommand_of_toNormalized hcommands) hrows hlast] at htext
    rw [iologText_injective htext] at hword
    exact ⟨hword, fits_of_commands hcommands⟩
  · rintro ⟨hword, hspan, hcount⟩
    obtain ⟨commands, hcommands⟩ := exists_commands hrows hle hspan hcount
    have hw := workloadOk_of_rows 1 hcommands hrows hordered hflush Nat.isPowerOfTwo_one (one_dvd _)
    rw [← iologText_eq_iologOf (sameCommand_of_toNormalized hcommands) hrows hlast]
    exact ⟨⟨1, commands⟩, _, workload_ofJson_iff.mpr ⟨rfl, hcommands⟩,
      parseFioIolog_iologText hword (fun c hc => (hw.fits c hc).syncZero) hw.ordered,
      emitFioIolog_eq_ok.mpr ⟨hword, hw, rfl⟩⟩

end ExportAux

end EbpfSyscall
