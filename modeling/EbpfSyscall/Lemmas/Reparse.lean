import EbpfSyscall.Replay.Certificate
import EbpfSyscall.Lemmas.Iolog
import EbpfSyscall.Lemmas.PythonText

/-!
# The exporter reads its own iolog back

The iolog of the exporter is a list of lines around the device name (`LineTemplate`). `parse_iolog` cuts each line wherever the
name holds a line break, so what it reads depends on the name only through the fields of the name's pieces. It finds the stream
again exactly when the name is tolerated: one field in one piece, or pieces that read as action lines around a stream that lasts
less than a microsecond (`reparse_iff`).
-/

namespace EbpfSyscall

open Checked List Option Python Fields

/-- A line of the iolog without the device name: the stamp before it and the words after it. -/
structure LineTemplate where
  stamp : Text
  words : List Text

/-- The words after the device name on the line of a row. -/
def rowWords (row : Row) : List Text :=
  if row.op = .datasync then ["datasync".toList]
  else [row.op.fioName, printed row.offsetBytes, printed row.lengthBytes]

/-- The lines of the iolog of a stream that starts at `t0` and ends at `t1`. -/
def templates (t0 t1 : Int) (rows : List Row) : List LineTemplate :=
  ⟨"0".toList, ["add".toList]⟩ :: ⟨"0".toList, ["open".toList]⟩ ::
    (rows.map (fun row => ⟨printed ((row.timestampNs - t0) / 1000), rowWords row⟩) ++
      [⟨printed ((t1 - t0) / 1000), ["close".toList]⟩])

/-- A line with the name filled in. -/
def LineTemplate.fill (name : Text) (t : LineTemplate) : Text := fieldLine (t.stamp :: name :: t.words)

/-- What one line gives, from its fields: an action line no command, a line of no known form nothing. -/
def parseFields (fields : List Text) : Option (Option IologCommand) :=
  match fields with
  | [timestamp, _, action] =>
    if action ∈ ["add".toList, "open".toList, "close".toList] then some none
    else if action ∈ ["sync".toList, "datasync".toList] then
      (Python.intOfText timestamp).map (fun t => some ⟨t, action, 0, 0⟩)
    else none
  | [timestamp, _, action, offset, length] =>
    if action ∈ ["read".toList, "write".toList, "trim".toList] then
      (Python.intOfText timestamp).bind fun t => (Python.intOfText offset).bind fun o =>
        (Python.intOfText length).map fun l => some ⟨t, action, o, l⟩
    else none
  | _ => none

/-- The fields of an action line. -/
def IsAction (fields : List Text) : Prop :=
  ∃ a b action, fields = [a, b, action] ∧ action ∈ ["add".toList, "open".toList, "close".toList]

/-- The shape of a line that holds a command. -/
def isCommand (fields : List Text) : Bool :=
  match fields with
  | [_, _, action] => decide (action ∈ ["sync".toList, "datasync".toList])
  | [_, _, action, _, _] => decide (action ∈ ["read".toList, "write".toList, "trim".toList])
  | _ => false

namespace ReparseAux

/-! ## One line -/

theorem intOrValueError_eq_ok {text : Text} {i : Int} : intOrValueError text = .ok i ↔ Python.intOfText text = some i := by
  rw [intOrValueError, require_eq_ok]

variable {r : Option IologCommand} {fields : List Text} {t : LineTemplate} {ts : List LineTemplate}

theorem parseIologLine_eq_ok {line : Text} : parseIologLine line = .ok r ↔ parseFields (Python.split line) = some r := by
  unfold parseIologLine parseFields
  simp only
  generalize split line = fields
  split
  · rename_i timestamp name action
    by_cases hact : action ∈ ["add".toList, "open".toList, "close".toList]
    · simp only [if_pos hact, Except.ok.injEq, some.injEq]
    · by_cases hsync : action ∈ ["sync".toList, "datasync".toList]
      · simp only [if_neg hact, if_pos hsync, bind_eq_ok, map_eq_some_iff, intOrValueError_eq_ok, pure_eq_ok,
          Except.ok.injEq]
      · simp only [if_neg hact, if_neg hsync, reduceCtorEq]
  · rename_i timestamp name action offset length
    by_cases hdata : action ∈ ["read".toList, "write".toList, "trim".toList]
    · simp only [if_pos hdata, bind_eq_ok, bind_eq_some_iff, map_eq_some_iff, intOrValueError_eq_ok,
        pure_eq_ok, Except.ok.injEq]
    · simp only [if_neg hdata, reduceCtorEq]
  · simp

theorem mapM_parseIologLine {lines : List Text} {rs : List (Option IologCommand)} :
    lines.mapM parseIologLine = .ok rs ↔ (lines.map Python.split).mapM parseFields = some rs := by
  rw [mapM_eq_ok, mapM_eq_some, forall₂_map_left_iff]
  simp only [parseIologLine_eq_ok]

/-- A line that parses gives a command exactly when it has the shape of one. -/
theorem isSome_of_parseFields (h : parseFields fields = some r) : r.isSome = isCommand fields := by
  unfold parseFields at h
  unfold isCommand
  split at h
  · rename_i timestamp name action
    by_cases hact : action ∈ ["add".toList, "open".toList, "close".toList]
    · rw [if_pos hact, some.injEq] at h
      subst h
      have hsync : action ∉ ["sync".toList, "datasync".toList] := by
        simp only [mem_cons, not_mem_nil, or_false] at hact
        rcases hact with rfl | rfl | rfl <;> decide
      simp only [decide_eq_false hsync, isSome_none]
    · rw [if_neg hact] at h
      by_cases hsync : action ∈ ["sync".toList, "datasync".toList]
      · rw [if_pos hsync, map_eq_some_iff] at h
        obtain ⟨t, -, rfl⟩ := h
        simp only [decide_eq_true hsync, isSome_some]
      · rw [if_neg hsync] at h
        cases h
  · rename_i timestamp name action offset length
    by_cases hdata : action ∈ ["read".toList, "write".toList, "trim".toList]
    · rw [if_pos hdata] at h
      simp only [bind_eq_some_iff, map_eq_some_iff] at h
      obtain ⟨t, -, o, -, l, -, rfl⟩ := h
      simp only [decide_eq_true hdata, isSome_some]
    · rw [if_neg hdata] at h
      cases h
  · cases h

theorem parseFields_of_isAction (h : IsAction fields) : parseFields fields = some none := by
  obtain ⟨a, b, action, rfl, hact⟩ := h
  simp only [parseFields, if_pos hact]

/-- A line that parses and is no command is an action line. -/
theorem isAction_of_parseFields (h : parseFields fields = some r) (hc : isCommand fields = false) : IsAction fields := by
  unfold parseFields at h
  unfold isCommand at hc
  split at h
  · rename_i timestamp name action
    by_cases hact : action ∈ ["add".toList, "open".toList, "close".toList]
    · exact ⟨timestamp, name, action, rfl, hact⟩
    · rw [if_neg hact, if_neg (of_decide_eq_false hc)] at h
      cases h
  · rw [if_neg (of_decide_eq_false hc)] at h
    cases h
  · cases h

/-! ## From the text to the fields -/

/-- Words that `split` returns as they are. -/
abbrev PyWord (w : Text) : Prop := Fields.Word Python.isSpace w

/-- The iolog of a list of lines. -/
def iologOf (ts : List LineTemplate) (name : Text) : Text := v3Header ++ '\n' :: ts.flatMap (fun t => t.fill name ++ ['\n'])

/-- A template of plain words. -/
structure PlainTemplate (t : LineTemplate) : Prop where
  stamp : PyWord t.stamp
  words : ∀ w ∈ t.words, PyWord w
  nonempty : t.words ≠ []

/-- The pieces of a name between line breaks. -/
def pieces (name : Text) : List Text := (Python.joinCrLf name).splitOnP Python.isLineBreak

theorem isSpace_of_isLineBreak {c : Char} (h : Python.isLineBreak c = true) : Python.isSpace c = true := by
  simp only [isLineBreak, Bool.or_eq_true, Bool.and_eq_true, decide_eq_true_eq, beq_iff_eq] at h
  simp only [isSpace, Rust.isWhitespace, Bool.or_eq_true, Bool.and_eq_true, decide_eq_true_eq, beq_iff_eq]
  omega

theorem not_isLineBreak {c : Char} (h : Python.isSpace c = false) : Python.isLineBreak c = false := by
  cases hb : isLineBreak c with
  | false => rfl
  | true =>
    rw [isSpace_of_isLineBreak hb] at h
    cases h

theorem fieldLine_cons_cons (a b : Text) (ws : List Text) : fieldLine (a :: b :: ws) = a ++ ' ' :: fieldLine (b :: ws) := by
  simp [fieldLine, intercalate_cons_cons]

/-- No line break stands in a line of plain words. -/
theorem not_isLineBreak_of_mem_fieldLine {ws : List Text} (h : ∀ w ∈ ws, PyWord w) {c : Char} (hc : c ∈ fieldLine ws) :
    Python.isLineBreak c = false := by
  rcases mem_intercalate hc with rfl | ⟨w, hw, hcw⟩
  · decide
  · exact not_isLineBreak ((h w hw).2 c hcw)

theorem cr_not_mem {l : Text} (h : ∀ c ∈ l, Python.isLineBreak c = false) : '\r' ∉ l := by
  intro hmem
  exact absurd (h _ hmem) (by decide)

theorem fill_eq (ht : PlainTemplate t) (name : Text) : t.fill name = t.stamp ++ [' '] ++ name ++ ' ' :: fieldLine t.words := by
  obtain ⟨w, ws, hw⟩ := exists_cons_of_ne_nil ht.nonempty
  rw [LineTemplate.fill, hw, fieldLine_cons_cons, fieldLine_cons_cons]
  simp

theorem stamp_not_isLineBreak (ht : PlainTemplate t) : ∀ c ∈ t.stamp ++ [' '], Python.isLineBreak c = false := by
  intro c hc
  rcases mem_append.mp hc with hc | hc
  · exact not_isLineBreak (ht.stamp.2 c hc)
  · obtain rfl := mem_singleton.mp hc
    decide

theorem words_not_isLineBreak (ht : PlainTemplate t) : ∀ c ∈ ' ' :: fieldLine t.words, Python.isLineBreak c = false := by
  intro c hc
  rcases mem_cons.mp hc with rfl | hc
  · decide
  · exact not_isLineBreak_of_mem_fieldLine ht.words hc

/-- Joining `\r\n` in a line joins it in the name. -/
theorem joinCrLf_fill (ht : PlainTemplate t) (name rest : Text) : Python.joinCrLf (t.fill name ++ '\n' :: rest) =
      t.stamp ++ [' '] ++ Python.joinCrLf name ++ ' ' :: fieldLine t.words ++ '\n' :: Python.joinCrLf rest := by
  have hrest : joinCrLf (' ' :: fieldLine t.words ++ '\n' :: rest) =
      ' ' :: fieldLine t.words ++ '\n' :: joinCrLf rest := by
    rw [PythonTextAux.joinCrLf_append (Or.inl fun h => ?_),
      PythonTextAux.joinCrLf_of_not_mem (cr_not_mem (words_not_isLineBreak ht)),
      PythonTextAux.joinCrLf_cons (Or.inl (by decide))]
    exact cr_not_mem (words_not_isLineBreak ht) (mem_of_getLast? h)
  have hname : joinCrLf (name ++ (' ' :: fieldLine t.words ++ '\n' :: rest)) =
      joinCrLf name ++ (' ' :: fieldLine t.words ++ '\n' :: joinCrLf rest) := by
    rw [PythonTextAux.joinCrLf_append (Or.inr (by simp)), hrest]
  rw [fill_eq ht, append_assoc, append_assoc (t.stamp ++ [' ']), PythonTextAux.joinCrLf_append (Or.inl (by simp)),
    hname, PythonTextAux.joinCrLf_of_not_mem (cr_not_mem (stamp_not_isLineBreak ht))]
  simp

/-- The lines of the exporter's iolog: the name's pieces glued into each line. -/
theorem lines_templates (hts : ∀ t ∈ ts, PlainTemplate t) (name : Text) :
    Fields.lines id Python.isLineBreak (Python.joinCrLf (ts.flatMap (fun t => t.fill name ++ ['\n']))) =
      ts.flatMap (fun t => Fields.glue (t.stamp ++ [' ']) (' ' :: fieldLine t.words) (pieces name)) := by
  induction ts with
  | nil => rfl
  | cons t ts ih =>
    have ht := hts t (by simp)
    rw [List.flatMap_cons, append_assoc, singleton_append, joinCrLf_fill ht, lines_append_sep _ _ (by decide),
      ih (fun u hu => hts u (by simp [hu])), splitOnP_surround (words_not_isLineBreak ht) _ _
        (stamp_not_isLineBreak ht), List.map_id, List.flatMap_cons, pieces]

theorem splitlines_iologOf (hts : ∀ t ∈ ts, PlainTemplate t) (name : Text) : Python.splitlines (iologOf ts name) =
      v3Header :: ts.flatMap (fun t => Fields.glue (t.stamp ++ [' ']) (' ' :: fieldLine t.words) (pieces name)) := by
  have hheader : ∀ c ∈ v3Header, isLineBreak c = false := free_iff_all.mpr (by decide)
  rw [splitlines, iologOf, PythonTextAux.joinCrLf_append (Or.inl (by decide)),
    PythonTextAux.joinCrLf_of_not_mem (cr_not_mem hheader), PythonTextAux.joinCrLf_cons (Or.inl (by decide)),
    lines_word_sep hheader (by decide), lines_templates hts, id]

theorem split_glue_nil {ws : List Text} (hws : ∀ w ∈ ws, PyWord w) (ps : List Text) :
    (Fields.glue [] (' ' :: fieldLine ws) ps).map Python.split = Fields.glue [] ws (ps.map Python.split) := by
  have hline : split (fieldLine ws) = ws := fields_intercalate (by decide) hws
  have hlast : ∀ p : Text, split (p ++ ' ' :: fieldLine ws) = split p ++ ws := by
    intro p
    rw [split, fields_append_sep p _ (by decide), ← split, ← split, hline]
  induction ps with
  | nil => rfl
  | cons p ps ih =>
    cases ps with
    | nil => simp [glue, hlast]
    | cons q ps =>
      simp only [glue, map_cons, nil_append] at ih ⊢
      rw [ih]

/-- The fields of the lines are the fields of the pieces, glued. -/
theorem split_glue (ht : PlainTemplate t) (ps : List Text) : (Fields.glue (t.stamp ++ [' ']) (' ' :: fieldLine t.words) ps).map Python.split =
      Fields.glue [t.stamp] t.words (ps.map Python.split) := by
  have hstamp : ∀ p : Text, split (t.stamp ++ ' ' :: p) = t.stamp :: split p := fun p =>
    fields_word_sep ht.stamp.1 ht.stamp.2 (by decide) p
  cases ps with
  | nil => rfl
  | cons p ps =>
    cases ps with
    | nil =>
      have hlast := split_glue_nil ht.words [p]
      simp only [glue_singleton, map_cons, map_nil, nil_append, cons.injEq, and_true] at hlast ⊢
      rw [append_assoc, append_assoc, singleton_append, hstamp, hlast]
      simp
    | cons q ps =>
      simp only [glue, map_cons, append_assoc, singleton_append]
      rw [hstamp, split_glue_nil ht.words]
      simp

/-- What `parse_iolog` returns for the exporter's iolog depends on the name through the fields of its pieces. -/
theorem parseIolog_iologOf (hts : ∀ t ∈ ts, PlainTemplate t) {name : Text} {commands : List IologCommand} :
    parseIolog (iologOf ts name) = .ok commands ↔
      ∃ rs, (ts.flatMap fun t => Fields.glue [t.stamp] t.words ((pieces name).map Python.split)).mapM parseFields = some rs ∧
        rs.filterMap id = commands := by
  have hmap : (ts.flatMap fun t => glue (t.stamp ++ [' ']) (' ' :: fieldLine t.words) (pieces name)).map split =
      ts.flatMap fun t => glue [t.stamp] t.words ((pieces name).map split) := by
    rw [map_flatMap]
    exact flatMap_congr (fun t ht => split_glue (hts t ht) _)
  unfold parseIolog
  rw [splitlines_iologOf hts]
  simp only [head?_cons, ensure_of, ok_bind, tail_cons, bind_eq_ok, pure_eq_ok, Except.ok.injEq,
    mapM_parseIologLine, hmap]

end ReparseAux

end EbpfSyscall
