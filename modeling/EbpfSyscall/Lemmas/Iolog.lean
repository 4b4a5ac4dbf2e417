import EbpfSyscall.Ir.Translation
import EbpfSyscall.Lemmas.Workload

/-!
# The emitted iolog, line by line

The text `emit_fio_iolog` writes is a list of lines of words joined by single blanks (`iologText_eq`). Each of the parser's
splitters reads such a text back, whatever the filename is as long as it is one word: the state machine then goes through the
add line, the open line, the commands and the close line (`parseFioIolog_iologText`).
-/

namespace EbpfSyscall

open Checked List Fields

/-- One word of an iolog line, as Rust splits it. -/
abbrev RustWord (w : Text) : Prop := Fields.Word Rust.isWhitespace w

/-- Words joined by single blanks. -/
def fieldLine (words : List Text) : Text := [' '].intercalate words

/-- The words of the line of one command. -/
def commandWords (filename : Text) (command : Command) : List Text :=
  if command.op.isData = true then
    [Rust.display (quantizeTimestampNs command.atNs).1, filename, command.op.fioName, Rust.display command.offsetBytes,
      Rust.display command.lengthBytes]
  else
    [Rust.display (quantizeTimestampNs command.atNs).1, filename, command.op.fioName]

/-- The lines of an iolog after the header. -/
def iologBody (commands : List Command) (filename : Text) : List (List Text) :=
  ["0".toList, filename, "add".toList] :: ["0".toList, filename, "open".toList] ::
    (commands.map (commandWords filename) ++ [[Rust.display (closeUs commands), filename, "close".toList]])

namespace IologAux

/-! ## Words -/

theorem rustWord_of_digits {w : Text} (hne : w ≠ []) (h : ∀ c ∈ w, c.isDigit = true) : RustWord w := by
  refine ⟨hne, fun c hc => ?_⟩
  have hd := h c hc
  rw [Char.isDigit, Bool.and_eq_true, decide_eq_true_eq, decide_eq_true_eq] at hd
  have h1 : 48 ≤ c.toNat := UInt32.le_iff_toNat_le.mp hd.1
  have h2 : c.toNat ≤ 57 := UInt32.le_iff_toNat_le.mp hd.2
  simp only [Rust.isWhitespace, Bool.or_eq_false_iff, Bool.and_eq_false_iff, decide_eq_false_iff_not, beq_eq_false_iff_ne]
  omega

theorem rustWord_display (n : UInt64) : RustWord (Rust.display n) :=
  rustWord_of_digits (Decimal.print_ne_nil _) (fun _ => Decimal.isDigit_of_mem_print)

theorem rustWord_fioName (op : Operation) : RustWord op.fioName := by
  cases op <;> exact word_iff_all.mpr ⟨by decide, by decide⟩

theorem parse_display (n : UInt64) : Rust.parse (Rust.display n) = some n := by
  have hread : Decimal.read (Rust.display n) = some n.toNat := Decimal.read_print _
  have hplus : ∀ rest, Rust.display n ≠ '+' :: rest := by
    intro rest h
    have hc : ('+' : Char).isDigit = true := Decimal.isDigit_of_mem_print (n := n.toNat) (by rw [← Rust.display, h]; simp)
    exact absurd hc (by decide)
  unfold Rust.parse
  split
  · rename_i rest heq
    exact absurd heq (hplus rest)
  · simp only [hread, Option.bind_some, if_pos n.toNat_lt, UInt64.ofNat_toNat]

theorem parse_zero : Rust.parse "0".toList = some 0 := parse_display 0

/-! ## Lines -/

variable {ws : List Text} {filename : Text} {commands : List Command}

/-- A line of words holds no line break. -/
theorem not_newline_of_mem_fieldLine (h : ∀ w ∈ ws, RustWord w) {c : Char} (hc : c ∈ fieldLine ws) : c ≠ '\n' ∧ c ≠ '\r' := by
  rcases mem_intercalate hc with rfl | ⟨w, hw, hcw⟩
  · decide
  · have := (h w hw).2 c hcw
    constructor
    · rintro rfl
      exact absurd this (by decide)
    · rintro rfl
      exact absurd this (by decide)

theorem stripCr_fieldLine (h : ∀ w ∈ ws, RustWord w) : Rust.stripCr (fieldLine ws) = fieldLine ws := by
  unfold Rust.stripCr
  split
  · rename_i hl
    exact absurd rfl (not_newline_of_mem_fieldLine h (mem_of_getLast? hl)).2
  · rfl

/-- The words of a line are read back. -/
theorem splitWhitespace_fieldLine (h : ∀ w ∈ ws, RustWord w) : Rust.splitWhitespace (fieldLine ws) = ws :=
  fields_intercalate (by decide) h

/-- A text of lines of words is read back. -/
theorem lines_flatMap_fieldLine {ls : List (List Text)} (h : ∀ ws ∈ ls, ∀ w ∈ ws, RustWord w) :
    Rust.lines (ls.flatMap (fun ws => fieldLine ws ++ ['\n'])) = ls.map fieldLine := by
  have hmap : ls.flatMap (fun ws => fieldLine ws ++ ['\n']) = (ls.map fieldLine).flatMap (fun l => l ++ ['\n']) := by
    rw [flatMap_map]
  rw [hmap, Rust.lines, lines_flatMap (by decide)]
  · rw [map_map]
    exact map_congr_left (fun ws hws => stripCr_fieldLine (h ws hws))
  · intro l hl c hc
    obtain ⟨ws, hws, rfl⟩ := mem_map.mp hl
    have := (not_newline_of_mem_fieldLine (h ws hws) hc).1
    simpa using this

/-! ## The emitted text -/

theorem commandLine_eq (filename : Text) (command : Command) :
    commandLine filename command = fieldLine (commandWords filename command) ++ ['\n'] := by
  unfold commandLine commandWords fieldLine
  split <;> simp [intercalate]

/-- The emitted text is the header and the lines of words. -/
theorem iologText_eq (commands : List Command) (filename : Text) : iologText commands filename =
      fioV3Header ++ '\n' :: (iologBody commands filename).flatMap (fun ws => fieldLine ws ++ ['\n']) := by
  have hcmds : commands.flatMap (commandLine filename) =
      (commands.map (commandWords filename)).flatMap (fun ws => fieldLine ws ++ ['\n']) := by
    rw [flatMap_map]
    exact flatMap_congr (fun c _ => commandLine_eq filename c)
  have hopen : ("0 ".toList ++ filename ++ " add\n0 ".toList ++ filename ++ " open\n".toList) =
      fieldLine ["0".toList, filename, "add".toList] ++ '\n' :: fieldLine ["0".toList, filename, "open".toList] ++ ['\n'] := by
    simp [fieldLine, intercalate]
  have hclose : (Rust.display (closeUs commands) ++ [' '] ++ filename ++ " close\n".toList) =
      fieldLine [Rust.display (closeUs commands), filename, "close".toList] ++ ['\n'] := by
    simp [fieldLine, intercalate]
  unfold iologText iologBody
  rw [hcmds, hopen, hclose]
  simp

/-- Every field of the emitted lines is a word. -/
theorem rustWord_of_mem_iologBody (commands : List Command) (hf : RustWord filename) : ∀ ws ∈ iologBody commands filename, ∀ w ∈ ws, RustWord w := by
  have hlit : ∀ w ∈ ["0".toList, "add".toList, "open".toList, "close".toList], RustWord w := by
    intro w hw
    simp only [mem_cons, not_mem_nil, or_false] at hw
    rcases hw with rfl | rfl | rfl | rfl <;> exact word_iff_all.mpr ⟨by decide, by decide⟩
  have hcmd : ∀ c : Command, ∀ w ∈ commandWords filename c, RustWord w := by
    intro c w hw
    unfold commandWords at hw
    split at hw
    · simp only [mem_cons, not_mem_nil, or_false] at hw
      rcases hw with rfl | rfl | rfl | rfl | rfl
      · exact rustWord_display _
      · exact hf
      · exact rustWord_fioName _
      · exact rustWord_display _
      · exact rustWord_display _
    · simp only [mem_cons, not_mem_nil, or_false] at hw
      rcases hw with rfl | rfl | rfl
      · exact rustWord_display _
      · exact hf
      · exact rustWord_fioName _
  intro ws hws w hw
  simp only [iologBody, mem_cons, mem_append, mem_map, not_mem_nil, or_false] at hws
  rcases hws with rfl | rfl | ⟨c, -, rfl⟩ | rfl
  · simp only [mem_cons, not_mem_nil, or_false] at hw
    rcases hw with rfl | rfl | rfl
    · exact hlit _ (by simp)
    · exact hf
    · exact hlit _ (by simp)
  · simp only [mem_cons, not_mem_nil, or_false] at hw
    rcases hw with rfl | rfl | rfl
    · exact hlit _ (by simp)
    · exact hf
    · exact hlit _ (by simp)
  · exact hcmd c w hw
  · simp only [mem_cons, not_mem_nil, or_false] at hw
    rcases hw with rfl | rfl | rfl
    · exact rustWord_display _
    · exact hf
    · exact hlit _ (by simp)

/-- The lines of the emitted text. -/
theorem lines_iologText (hf : RustWord filename) :
    Rust.lines (iologText commands filename) = fioV3Header :: (iologBody commands filename).map fieldLine := by
  have hhdr : ∀ c ∈ fioV3Header, (c == '\n') = false := free_iff_all.mpr (by decide)
  rw [iologText_eq, Rust.lines, lines_word_sep hhdr (by decide), ← Rust.lines,
    lines_flatMap_fieldLine (rustWord_of_mem_iologBody _ hf)]
  have : Rust.stripCr fioV3Header = fioV3Header := by decide
  rw [this]

/-! ## The parser on the emitted lines -/

/-- A line of words whose first word is a number and whose second is the target. -/
theorem parseLine_fieldLine (st : ParseState) (i : Nat) {stamp name action : Text} {rest : List Text}
    {t : UInt64} (hws : ws = stamp :: name :: action :: rest) (hw : ∀ w ∈ ws, RustWord w) (hp : Rust.parse stamp = some t)
    (hn : st.filename = none ∨ st.filename = some name) :
    parseLine st i (fieldLine ws) = applyAction { st with filename := some name } (i + 2) t (actionOf ws) := by
  have hname : some (st.filename.getD name) = some name := by
    rcases hn with h | h <;> simp [h]
  have hsame : st.filename.all (fun known => known = name) = true := by
    rcases hn with h | h <;> simp [h]
  unfold parseLine
  rw [splitWhitespace_fieldLine hw, hws]
  simp only [parseU64, hp, require, ok_bind, ensure_of hsame, hname]

/-- A command line appends its command. -/
theorem parseLine_command {st : ParseState} {i : Nat} {c : Command} (hf : RustWord filename)
    (hn : st.filename = some filename) (ho : st.sawOpen = true) (hc : st.sawClose = false)
    (hsync : c.op.isData = false → c.offsetBytes = 0 ∧ c.lengthBytes = 0) :
    parseLine st i (fieldLine (commandWords filename c)) = .ok { st with commands := st.commands ++ [c.toFio] } := by
  have hst : { st with filename := some filename } = st := by rw [← hn]
  have hwords : ∀ w ∈ commandWords filename c, RustWord w := by
    refine rustWord_of_mem_iologBody [c] hf _ ?_
    simp [iologBody]
  cases hop : c.op.isData with
  | true =>
    have hcw : commandWords filename c = [Rust.display (quantizeTimestampNs c.atNs).1, filename, c.op.fioName,
        Rust.display c.offsetBytes, Rust.display c.lengthBytes] := by rw [commandWords, if_pos hop]
    have hact : actionOf (commandWords filename c) =
        .data c.op (Rust.display c.offsetBytes) (Rust.display c.lengthBytes) := by
      rw [hcw]
      cases hcop : c.op with
      | read => rfl
      | write => rfl
      | sync | datasync => rw [hcop] at hop; cases hop
    rw [parseLine_fieldLine _ _ hcw hwords (parse_display _) (Or.inr hn), hst, hact]
    simp only [applyAction, ho, hc, and_self, if_true, parseU64, parse_display, require, ok_bind, pure_eq_ok]
    rfl
  | false =>
    obtain ⟨hz, hl⟩ := hsync hop
    have hcw : commandWords filename c = [Rust.display (quantizeTimestampNs c.atNs).1, filename, c.op.fioName] := by
      rw [commandWords, if_neg (by simp [hop])]
    have hact : actionOf (commandWords filename c) = .sync c.op := by
      rw [hcw]
      cases hcop : c.op with
      | read | write => rw [hcop] at hop; cases hop
      | sync => rfl
      | datasync => rfl
    rw [parseLine_fieldLine _ _ hcw hwords (parse_display _) (Or.inr hn), hst, hact]
    simp only [applyAction, ho, hc, and_self, if_true, Command.toFio, hz, hl]

/-- The command lines append their commands in order. -/
theorem foldFrom_commands (hf : RustWord filename) (hsync : ∀ c ∈ commands, c.op.isData = false → c.offsetBytes = 0 ∧ c.lengthBytes = 0) :
    ∀ (i : Nat) (st : ParseState), st.filename = some filename → st.sawOpen = true → st.sawClose = false →
      foldFrom parseLine i st (commands.map (fun c => fieldLine (commandWords filename c))) =
        .ok { st with commands := st.commands ++ commands.map Command.toFio } := by
  induction commands with
  | nil => intro i st _ _ _; simp
  | cons c cs ih =>
    intro i st hn ho hc
    have hrest := ih (fun d hd => hsync d (by simp [hd])) (i + 1) { st with commands := st.commands ++ [c.toFio] } hn ho hc
    rw [map_cons, foldFrom_cons, parseLine_command hf hn ho hc (hsync c (by simp)), ok_bind, hrest]
    simp

/-- The state of the parser after the open line, with some commands read. -/
def opened (filename : Text) (commands : List FioCommand) : ParseState where
  filename := some filename
  sawAdd := true
  sawOpen := true
  commands := commands

/-- The close line carries the last command's timestamp, so it is accepted. -/
theorem parseLine_close (hf : RustWord filename) (commands : List Command) (i : Nat) : parseLine (opened filename (commands.map Command.toFio)) i
        (fieldLine [Rust.display (closeUs commands), filename, "close".toList]) =
      .ok { opened filename (commands.map Command.toFio) with sawClose := true } := by
  have hwords := rustWord_of_mem_iologBody commands hf
  have hact : actionOf [Rust.display (closeUs commands), filename, "close".toList] = .close := rfl
  have hstamp : closeUs commands = ((commands.map Command.toFio).getLast?.map (·.atUs)).getD 0 := by
    rw [closeUs, getLast?_map, Option.map_map]
    rfl
  rw [parseLine_fieldLine _ _ rfl (hwords _ (by simp [iologBody])) (parse_display _) (Or.inr rfl), hact]
  simp only [applyAction, opened, and_self, if_true, ← hstamp, ensure_of, ok_bind, pure_eq_ok]

/-- The timestamps of a stream in order of time stay in order after rounding. -/
theorem timestampsNondecreasing_toFio (h : commands.Pairwise (fun a b => a.atNs ≤ b.atNs)) :
    timestampsNondecreasing (commands.map Command.toFio) = true := by
  unfold timestampsNondecreasing
  induction commands with
  | nil => rfl
  | cons c cs ih =>
    rw [pairwise_cons] at h
    cases cs with
    | nil => rfl
    | cons d cs =>
      have := ih h.2
      simp only [map_cons, tail_cons, zip_cons_cons, all_cons, Bool.and_eq_true, decide_eq_true_eq]
        at this ⊢
      refine ⟨?_, this⟩
      have hcd := UInt64.le_iff_toNat_le.mp (h.1 d (by simp))
      simp only [Command.toFio, quantizeTimestampNs, UInt64.le_iff_toNat_le, UInt64.toNat_div]
      exact Nat.div_le_div_right hcd

end IologAux

open IologAux

/-- The parser reads an emitted text back: the filename and the commands, rounded to microseconds. -/
theorem parseFioIolog_iologText {commands : List Command} {filename : Text} (hf : RustWord filename)
    (hsync : ∀ c ∈ commands, c.op.isData = false → c.offsetBytes = 0 ∧ c.lengthBytes = 0)
    (hord : commands.Pairwise (fun a b => a.atNs ≤ b.atNs)) :
    parseFioIolog (iologText commands filename) = .ok { filename, commands := commands.map Command.toFio } := by
  have hwords := rustWord_of_mem_iologBody commands hf
  have hadd := parseLine_fieldLine {} 0 rfl (hwords ["0".toList, filename, "add".toList] (by simp [iologBody]))
    parse_zero (Or.inl rfl)
  have hopen := parseLine_fieldLine { filename := some filename, sawAdd := true } 1 rfl
    (hwords ["0".toList, filename, "open".toList] (by simp [iologBody])) parse_zero (Or.inr rfl)
  unfold parseFioIolog
  rw [lines_iologText hf]
  simp only [iologBody, map_cons, map_append, map_map, map_nil, Function.comp_def, ensure_of, ok_bind]
  have h1 : applyAction { filename := some filename } 2 0 (actionOf ["0".toList, filename, "add".toList]) =
      .ok { filename := some filename, sawAdd := true } := rfl
  have h2 : applyAction { filename := some filename, sawAdd := true } 3 0
      (actionOf ["0".toList, filename, "open".toList]) = .ok (opened filename []) := rfl
  have hread : ∀ i, foldFrom parseLine i (opened filename []) (commands.map fun c => fieldLine (commandWords filename c)) =
      .ok (opened filename (commands.map Command.toFio)) := fun i => foldFrom_commands hf hsync i _ rfl rfl rfl
  rw [foldFrom_cons, hadd, h1, ok_bind, foldFrom_cons, hopen, h2, ok_bind, foldFrom_append, hread, ok_bind,
    foldFrom_cons, parseLine_close hf]
  simp only [ok_bind, foldFrom_nil, opened, and_self, timestampsNondecreasing_toFio hord, ensure_of, require, pure_eq_ok]

/-- The emitter succeeds exactly on a filename that is one word and a workload of bytes. -/
theorem emitFioIolog_eq_ok {commands : List Command} {filename text : Text} : emitFioIolog commands filename = .ok text ↔
      RustWord filename ∧ WorkloadOk { schemaVersion := 1, commands } 1 {} ∧ iologText commands filename = text := by
  unfold emitFioIolog
  simp only [check_bind_eq_ok, ensure_eq_ok, validateWorkload_eq_ok, pure_eq_ok, Except.ok.injEq]
  have : RustWord filename ↔ filename ≠ [] ∧ filename.any Rust.isWhitespace = false := by
    rw [RustWord, Word, any_eq_false]
    simp
  rw [this]

end EbpfSyscall
