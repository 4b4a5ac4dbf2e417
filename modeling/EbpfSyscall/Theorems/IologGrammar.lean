import EbpfSyscall.Lemmas.Iolog

/-!
# The language of the iolog parser

`parse_fio_iolog` accepts exactly the texts of a header line, an add line, an open line, command lines and a close line, and returns
their target and their commands. The state of the parser between two lines is one of four phases, and in each phase one lemma says
which lines it takes.
-/

namespace EbpfSyscall

open Checked List

/-! ## The grammar -/

/-- The word is a numeral of the number: ASCII digits after an optional plus sign. -/
def IsU64 (word : Text) (n : UInt64) : Prop :=
  ∃ digits, (word = digits ∨ word = '+' :: digits) ∧ digits ≠ [] ∧ (∀ c ∈ digits, c.isDigit = true) ∧
    Nat.ofDigitChars 10 digits 0 = n.toNat

/-- The fields of an add, open or close line. -/
def IsMarkLine (fields : List Text) (target : Text) (word : String) (atUs : UInt64) : Prop :=
  ∃ stamp, fields = [stamp, target, word.toList] ∧ IsU64 stamp atUs

/-- The fields of the line of a command. -/
inductive IsCommandLine (target : Text) : List Text → FioCommand → Prop where
  | data {stamp offset length : Text} {atUs offsetBytes lengthBytes : UInt64} {op : Operation} (hop : op = .read ∨ op = .write)
      (hstamp : IsU64 stamp atUs) (hoffset : IsU64 offset offsetBytes) (hlength : IsU64 length lengthBytes) :
      IsCommandLine target [stamp, target, op.fioName, offset, length] ⟨atUs, lengthBytes, offsetBytes, op⟩
  | sync {stamp : Text} {atUs : UInt64} {op : Operation} (hop : op = .sync ∨ op = .datasync) (hstamp : IsU64 stamp atUs) :
      IsCommandLine target [stamp, target, op.fioName] ⟨atUs, 0, 0, op⟩

/-- The text is an iolog with this target and these commands. -/
structure IsIolog (text : Text) (parsed : ParsedIolog) : Prop where
  lines : ∃ addLine openLine commandLines closeLine, Rust.lines text = fioV3Header :: addLine :: openLine :: commandLines ++ [closeLine] ∧
    (∃ atUs, IsMarkLine (Rust.splitWhitespace addLine) parsed.filename "add" atUs) ∧
    (∃ atUs, IsMarkLine (Rust.splitWhitespace openLine) parsed.filename "open" atUs) ∧
    List.Forall₂ (fun line command => IsCommandLine parsed.filename (Rust.splitWhitespace line) command) commandLines parsed.commands ∧
    IsMarkLine (Rust.splitWhitespace closeLine) parsed.filename "close" ((parsed.commands.getLast?.map FioCommand.atUs).getD 0)
  nondecreasing : parsed.commands.Pairwise (fun command next => command.atUs ≤ next.atUs)

namespace IologGrammarAux

open IologAux

/-! ## Numbers and words -/

theorem parse_eq_some {word : Text} {n : UInt64} : Rust.parse word = some n ↔ IsU64 word n := by
  have hdigits : ∀ digits : Text, ((Decimal.read digits).bind fun m => if m < 2 ^ 64 then some (UInt64.ofNat m) else none) = some n ↔
      digits ≠ [] ∧ (∀ c ∈ digits, c.isDigit = true) ∧ Nat.ofDigitChars 10 digits 0 = n.toNat := by
    intro digits
    rw [Option.bind_eq_some_iff]
    constructor
    · rintro ⟨m, hread, hm⟩
      unfold Decimal.read at hread
      split at hread
      · rename_i hword
        cases hread
        split at hm
        · rename_i hlt
          cases hm
          exact ⟨hword.1, hword.2, (UInt64.toNat_ofNat_of_lt' hlt).symm⟩
        · cases hm
      · cases hread
    · rintro ⟨hne, hall, heq⟩
      refine ⟨n.toNat, ?_, ?_⟩
      · rw [Decimal.read, if_pos ⟨hne, hall⟩, heq]
      · rw [if_pos n.toNat_lt, UInt64.ofNat_toNat]
  unfold IsU64 Rust.parse
  constructor
  · intro h
    split at h
    · rename_i rest
      exact ⟨rest, Or.inr rfl, (hdigits rest).mp h⟩
    · exact ⟨word, Or.inl rfl, (hdigits word).mp h⟩
  · rintro ⟨digits, rfl | rfl, hgood⟩
    · split
      · exact absurd (hgood.2.1 '+' mem_cons_self) (by decide)
      · exact (hdigits _).mpr hgood
    · exact (hdigits digits).mpr hgood

variable {next : ParseState} {line : Text} {i : Nat} {target : Text} {commands : List FioCommand}

/-- What a line does: it has at least three fields, its stamp is a number, and it keeps the target. -/
theorem parseLine_eq_ok {st : ParseState} : parseLine st i line = .ok next ↔
    ∃ stamp name action rest atUs, Rust.splitWhitespace line = stamp :: name :: action :: rest ∧ Rust.parse stamp = some atUs ∧
      (∀ known ∈ st.filename, known = name) ∧
      applyAction { st with filename := some name } (i + 2) atUs (actionOf (stamp :: name :: action :: rest)) = .ok next := by
  have hname : ∀ name, (∀ known ∈ st.filename, known = name) → st.filename.getD name = name := by
    intro name hall
    cases hknown : st.filename with
    | none => rfl
    | some known => exact hall known hknown
  unfold parseLine
  constructor
  · intro h
    split at h
    · rename_i stamp name action rest hfields
      simp only [bind_eq_ok, exists_const, ensure_eq_ok, parseU64, require_eq_ok] at h
      obtain ⟨atUs, hstamp, hkept, h⟩ := h
      have hall : ∀ known ∈ st.filename, known = name := by
        intro known hknown
        rw [Option.mem_def] at hknown
        rw [hknown] at hkept
        simpa using hkept
      rw [hname name hall] at h
      exact ⟨stamp, name, action, rest, atUs, hfields, hstamp, hall, h⟩
    · cases h
  · rintro ⟨stamp, name, action, rest, atUs, hfields, hstamp, hall, h⟩
    have hkept : st.filename.all (fun known => known = name) = true := by
      cases hknown : st.filename with
      | none => rfl
      | some known => simpa using hall known hknown
    rw [hfields]
    simp only [parseU64, hstamp, require, ok_bind, ensure_of hkept, hname name hall]
    exact h

/-- The fields that a line with the action has after its stamp and its target. -/
def FieldsOf : Action → List Text → Prop
  | .add, fields => fields = ["add".toList]
  | .open, fields => fields = ["open".toList]
  | .close, fields => fields = ["close".toList]
  | .data op offset length, fields => fields = [op.fioName, offset, length] ∧ (op = .read ∨ op = .write)
  | .sync op, fields => fields = [op.fioName] ∧ (op = .sync ∨ op = .datasync)
  | .other, _ => True

theorem fieldsOf_actionOf (stamp name action : Text) (rest : List Text) : FieldsOf (actionOf (stamp :: name :: action :: rest)) (action :: rest) := by
  rcases rest with _ | ⟨offset, _ | ⟨length, _ | ⟨more, rest⟩⟩⟩
  · simp only [actionOf]
    split_ifs with h h h h h
    · exact h ▸ rfl
    · exact h ▸ rfl
    · exact h ▸ rfl
    · exact ⟨h ▸ rfl, Or.inl rfl⟩
    · exact ⟨h ▸ rfl, Or.inr rfl⟩
    · trivial
  · trivial
  · simp only [actionOf]
    split_ifs with h h
    · exact ⟨h ▸ rfl, Or.inl rfl⟩
    · exact ⟨h ▸ rfl, Or.inr rfl⟩
    · trivial
  · trivial

theorem actionOf_data {op : Operation} (hop : op = .read ∨ op = .write) (stamp name offset length : Text) :
    actionOf [stamp, name, op.fioName, offset, length] = .data op offset length := by
  rcases hop with rfl | rfl
  · rfl
  · rfl

theorem actionOf_sync {op : Operation} (hop : op = .sync ∨ op = .datasync) (stamp name : Text) : actionOf [stamp, name, op.fioName] = .sync op := by
  rcases hop with rfl | rfl
  · rfl
  · rfl

/-! ## The phases -/

/-- The state after the add line. -/
def added (target : Text) : ParseState := { filename := some target, sawAdd := true }

/-- The state after the close line. -/
def closed (target : Text) (commands : List FioCommand) : ParseState := { opened target commands with sawClose := true }

/-- The first line is an add line. -/
theorem parseLine_first : parseLine {} i line = .ok next ↔
    ∃ target atUs, IsMarkLine (Rust.splitWhitespace line) target "add" atUs ∧ next = added target := by
  rw [parseLine_eq_ok]
  constructor
  · rintro ⟨stamp, target, action, rest, atUs, hfields, hstamp, -, happly⟩
    have hline := fieldsOf_actionOf stamp target action rest
    cases haction : actionOf (stamp :: target :: action :: rest) with
    | add =>
      rw [haction] at happly hline
      obtain ⟨rfl, rfl⟩ := cons.inj hline
      exact ⟨target, atUs, ⟨stamp, hfields, parse_eq_some.mp hstamp⟩, (Except.ok.inj happly).symm⟩
    | _ =>
      rw [haction] at happly
      cases happly
  · rintro ⟨target, atUs, ⟨stamp, hfields, hstamp⟩, rfl⟩
    exact ⟨stamp, target, _, [], atUs, hfields, parse_eq_some.mpr hstamp, nofun, rfl⟩

/-- The second line is an open line. -/
theorem parseLine_added : parseLine (added target) i line = .ok next ↔
    ∃ atUs, IsMarkLine (Rust.splitWhitespace line) target "open" atUs ∧ next = opened target [] := by
  rw [parseLine_eq_ok]
  constructor
  · rintro ⟨stamp, name, action, rest, atUs, hfields, hstamp, hkept, happly⟩
    obtain rfl := hkept target rfl
    have hline := fieldsOf_actionOf stamp target action rest
    cases haction : actionOf (stamp :: target :: action :: rest) with
    | «open» =>
      rw [haction] at happly hline
      obtain ⟨rfl, rfl⟩ := cons.inj hline
      exact ⟨atUs, ⟨stamp, hfields, parse_eq_some.mp hstamp⟩, (Except.ok.inj happly).symm⟩
    | _ =>
      rw [haction] at happly
      cases happly
  · rintro ⟨atUs, ⟨stamp, hfields, hstamp⟩, rfl⟩
    refine ⟨stamp, target, _, [], atUs, hfields, parse_eq_some.mpr hstamp, ?_, rfl⟩
    rintro known ⟨⟩
    rfl

/-- The timestamp of the close line. -/
def closeStamp (commands : List FioCommand) : UInt64 := (commands.getLast?.map FioCommand.atUs).getD 0

/-- After the open line come commands or the close line. -/
theorem parseLine_opened : parseLine (opened target commands) i line = .ok next ↔
      (∃ command, IsCommandLine target (Rust.splitWhitespace line) command ∧ next = opened target (commands ++ [command])) ∨
      (IsMarkLine (Rust.splitWhitespace line) target "close" (closeStamp commands) ∧ next = closed target commands) := by
  rw [parseLine_eq_ok]
  constructor
  · rintro ⟨stamp, name, action, rest, atUs, hfields, hstamp, hkept, happly⟩
    obtain rfl := hkept target rfl
    rw [hfields]
    have hline := fieldsOf_actionOf stamp target action rest
    cases haction : actionOf (stamp :: target :: action :: rest) with
    | data op offset length =>
      rw [haction] at happly hline
      obtain ⟨hline, hop⟩ := hline
      obtain ⟨rfl, rfl⟩ := cons.inj hline
      simp only [applyAction, opened, and_self, if_true, bind_eq_ok, parseU64, require_eq_ok, pure_eq_ok, Except.ok.injEq] at happly
      obtain ⟨lengthBytes, hlength, offsetBytes, hoffset, rfl⟩ := happly
      exact Or.inl ⟨_, .data hop (parse_eq_some.mp hstamp) (parse_eq_some.mp hoffset) (parse_eq_some.mp hlength), rfl⟩
    | sync op =>
      rw [haction] at happly hline
      obtain ⟨hline, hop⟩ := hline
      obtain ⟨rfl, rfl⟩ := cons.inj hline
      exact Or.inl ⟨_, .sync hop (parse_eq_some.mp hstamp), (Except.ok.inj happly).symm⟩
    | close =>
      rw [haction] at happly hline
      obtain ⟨rfl, rfl⟩ := cons.inj hline
      rw [applyAction, if_pos ⟨rfl, rfl⟩, check_bind_eq_ok, ensure_eq_ok, pure_eq_ok, Except.ok.injEq] at happly
      obtain ⟨rfl, rfl⟩ := happly
      exact Or.inr ⟨⟨stamp, rfl, parse_eq_some.mp hstamp⟩, rfl⟩
    | _ =>
      rw [haction] at happly
      cases happly
  · have hkept : ∀ known ∈ (opened target commands).filename, known = target := by
      rintro known ⟨⟩
      rfl
    rintro (⟨command, hcommand, rfl⟩ | ⟨⟨stamp, hfields, hstamp⟩, rfl⟩)
    · generalize hfields : Rust.splitWhitespace line = fields at hcommand
      cases hcommand with
      | @data stamp offset length atUs offsetBytes lengthBytes op hop hstamp hoffset hlength =>
        refine ⟨stamp, target, _, [offset, length], atUs, rfl, parse_eq_some.mpr hstamp, hkept, ?_⟩
        rw [actionOf_data hop]
        simp only [applyAction, opened, and_self, if_true, parseU64, parse_eq_some.mpr hoffset, parse_eq_some.mpr hlength, require,
          ok_bind, pure_eq_ok]
      | @sync stamp atUs op hop hstamp =>
        refine ⟨stamp, target, _, [], atUs, rfl, parse_eq_some.mpr hstamp, hkept, ?_⟩
        rw [actionOf_sync hop]
        rfl
    · refine ⟨stamp, target, _, [], closeStamp commands, hfields, parse_eq_some.mpr hstamp, hkept, ?_⟩
      show applyAction _ (i + 2) (closeStamp commands) .close = _
      rw [applyAction, if_pos ⟨rfl, rfl⟩, check_bind_eq_ok, ensure_eq_ok]
      exact ⟨rfl, rfl⟩

/-- Nothing comes after the close line. -/
theorem parseLine_closed : parseLine (closed target commands) i line ≠ .ok next := by
  rw [Ne, parseLine_eq_ok]
  rintro ⟨stamp, name, action, rest, atUs, -, -, -, happly⟩
  cases haction : actionOf (stamp :: name :: action :: rest) with
  | _ =>
    rw [haction] at happly
    cases happly

/-- The lines that take an open iolog to its end. -/
theorem foldFrom_opened {lines : List Text} {st : ParseState} : ∀ (i : Nat) (commands : List FioCommand),
    foldFrom parseLine i (opened target commands) lines = .ok st ∧ st.sawClose = true ↔
      ∃ commandLines closeLine more, lines = commandLines ++ [closeLine] ∧
        List.Forall₂ (fun line command => IsCommandLine target (Rust.splitWhitespace line) command) commandLines more ∧
        IsMarkLine (Rust.splitWhitespace closeLine) target "close" (closeStamp (commands ++ more)) ∧
        st = closed target (commands ++ more) := by
  induction lines with
  | nil =>
    intro i commands
    simp only [foldFrom_nil, Except.ok.injEq]
    constructor
    · rintro ⟨rfl, hclose⟩
      cases hclose
    · rintro ⟨commandLines, closeLine, more, hnil, -⟩
      simp at hnil
  | cons line lines ih =>
    intro i commands
    rw [foldFrom_cons, bind_eq_ok]
    constructor
    · rintro ⟨⟨next, hnext, hrest⟩, hclose⟩
      rcases parseLine_opened.mp hnext with ⟨command, hcommand, rfl⟩ | ⟨hmark, rfl⟩
      · obtain ⟨commandLines, closeLine, more, rfl, hall, hmark, rfl⟩ := (ih _ _).mp ⟨hrest, hclose⟩
        rw [append_assoc, singleton_append] at hmark ⊢
        exact ⟨line :: commandLines, closeLine, command :: more, rfl, .cons hcommand hall, hmark, rfl⟩
      · cases lines with
        | nil =>
          rw [foldFrom_nil, Except.ok.injEq] at hrest
          exact ⟨[], line, [], rfl, .nil, by rwa [append_nil], by rw [append_nil, hrest]⟩
        | cons later lines =>
          rw [foldFrom_cons, bind_eq_ok] at hrest
          obtain ⟨last, hlast, -⟩ := hrest
          exact absurd hlast parseLine_closed
    · rintro ⟨commandLines, closeLine, more, heq, hall, hmark, rfl⟩
      cases hall with
      | nil =>
        obtain ⟨rfl, rfl⟩ := cons.inj heq
        rw [append_nil] at hmark ⊢
        exact ⟨⟨_, parseLine_opened.mpr (Or.inr ⟨hmark, rfl⟩), rfl⟩, rfl⟩
      | @cons first command commandLines more hcommand hall =>
        obtain ⟨rfl, rfl⟩ := cons.inj heq
        rw [append_cons] at hmark
        obtain ⟨hrest, hclose⟩ := (ih (i + 1) _).mpr
          ⟨commandLines, closeLine, more, rfl, hall, hmark, congrArg (closed target) (append_cons _ _ _)⟩
        exact ⟨⟨_, parseLine_opened.mpr (Or.inl ⟨command, hcommand, rfl⟩), hrest⟩, hclose⟩

theorem timestampsNondecreasing_iff : timestampsNondecreasing commands = true ↔ commands.Pairwise (fun command next => command.atUs ≤ next.atUs) := by
  have hchain : timestampsNondecreasing commands = true ↔ commands.IsChain (fun command next => command.atUs ≤ next.atUs) := by
    induction commands with
    | nil => simp [timestampsNondecreasing]
    | cons first rest ih =>
      cases rest with
      | nil => simp [timestampsNondecreasing]
      | cons second rest =>
        rw [isChain_cons_cons, ← ih]
        simp [timestampsNondecreasing]
  rw [hchain]
  exact ⟨fun h => isChain_iff_pairwise.mp h, fun h => isChain_iff_pairwise.mpr h⟩

end IologGrammarAux

open IologAux IologGrammarAux

/-- The parser accepts exactly the iologs, and returns the target and the commands of the text. -/
theorem parseFioIolog_eq_ok {text : Text} {parsed : ParsedIolog} : parseFioIolog text = .ok parsed ↔ IsIolog text parsed := by
  unfold parseFioIolog
  constructor
  · intro h
    split at h
    · cases h
    · rename_i header lines hlines
      simp only [bind_eq_ok, exists_const, ensure_eq_ok, require_eq_ok, pure_eq_ok, Except.ok.injEq, timestampsNondecreasing_iff] at h
      obtain ⟨rfl, st, hfold, ⟨hadd, hopen, hclose⟩, hordered, filename, hfilename, rfl⟩ := h
      rcases lines with _ | ⟨addLine, _ | ⟨openLine, lines⟩⟩
      · cases hfold
        cases hadd
      · rw [foldFrom_cons, bind_eq_ok] at hfold
        obtain ⟨next, hnext, hfold⟩ := hfold
        obtain ⟨target, atUs, hmark, rfl⟩ := parseLine_first.mp hnext
        cases hfold
        cases hopen
      · rw [foldFrom_cons, bind_eq_ok] at hfold
        obtain ⟨next, hnext, hfold⟩ := hfold
        obtain ⟨target, atUs, haddMark, rfl⟩ := parseLine_first.mp hnext
        rw [foldFrom_cons, bind_eq_ok] at hfold
        obtain ⟨next, hnext, hfold⟩ := hfold
        obtain ⟨atUs', hopenMark, rfl⟩ := parseLine_added.mp hnext
        obtain ⟨commandLines, closeLine, more, rfl, hall, hcloseMark, rfl⟩ := (foldFrom_opened _ _).mp ⟨hfold, hclose⟩
        cases hfilename
        exact ⟨⟨addLine, openLine, commandLines, closeLine, hlines, ⟨atUs, haddMark⟩, ⟨atUs', hopenMark⟩, hall, hcloseMark⟩, hordered⟩
  · rintro ⟨⟨addLine, openLine, commandLines, closeLine, hlines, ⟨atUs, haddMark⟩, ⟨atUs', hopenMark⟩, hall, hcloseMark⟩, hordered⟩
    have hfold : foldFrom parseLine 0 {} (addLine :: openLine :: (commandLines ++ [closeLine])) =
        .ok (closed parsed.filename parsed.commands) := by
      rw [foldFrom_cons, parseLine_first.mpr ⟨parsed.filename, atUs, haddMark, rfl⟩, ok_bind, foldFrom_cons,
        parseLine_added.mpr ⟨atUs', hopenMark, rfl⟩, ok_bind]
      exact ((foldFrom_opened _ []).mpr ⟨commandLines, closeLine, parsed.commands, rfl, hall, hcloseMark, rfl⟩).1
    rw [hlines]
    simp only [List.cons_append, ensure_of, ok_bind, hfold, closed, opened, and_self, timestampsNondecreasing_iff.mpr hordered, require,
      pure_eq_ok]

end EbpfSyscall
