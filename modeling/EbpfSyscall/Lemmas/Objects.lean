import EbpfSyscall.Replayer.Objects

/-!
# The splitter over the lines of a file

A record is handed over at the first of its lines at whose end as many braces have been closed as opened. If that is the last line, the
splitter is between two records again. If it is an earlier line, a part of the record has been handed over; if there is none, what is
handed over next is longer than the record, or the record is given up.
-/

namespace EbpfSyscall.Replayer

open List

/-- Opening minus closing braces. -/
def braceSurplus (text : Text) : Int := (text.count '{' : Int) - text.count '}'

/-- The surplus at every line break of a text. -/
def breakSurpluses (before : Int) : Text → List Int
  | [] => []
  | c :: rest =>
    if c = '\n' then before :: breakSurpluses before rest
    else breakSurpluses (before + braceSurplus [c]) rest

/-- As many braces are opened as closed in the whole record, but not up to any line break inside it. -/
def BracesBalance (record : Record) : Prop := 0 ∉ breakSurpluses 0 (recordText record) ∧ braceSurplus (recordText record) = 0

instance (record : Record) : Decidable (BracesBalance record) := inferInstanceAs (Decidable (_ ∧ _))

namespace ObjectsAux

open Layout (keptLines)

/-! ## Reading lines -/

variable {lines : List Text} {text line : Text} {texts : List Text}

theorem takeLine_of_keptLines (h : keptLines text = line :: lines) {n : Nat}
    (hn : line.length ≤ n) : takeLine n text = (line, text.drop line.length) ∧ keptLines (text.drop line.length) = lines := by
  induction text generalizing line lines n with
  | nil => cases h
  | cons c rest ih =>
    rw [keptLines] at h
    split at h
    · rename_i hc
      obtain ⟨rfl, rfl⟩ := cons.inj h
      cases n with
      | zero => simp at hn
      | succ n => simp [takeLine, hc]
    · rename_i hc
      split at h
      · rename_i hnil
        obtain ⟨rfl, rfl⟩ := cons.inj h
        have hrest := Layout.keptLines_eq_nil hnil
        subst hrest
        cases n with
        | zero => simp at hn
        | succ n => cases n <;> simp [takeLine, hc, keptLines]
      · rename_i first others heq
        obtain ⟨rfl, rfl⟩ := cons.inj h
        cases n with
        | zero => simp at hn
        | succ n =>
          obtain ⟨htake, hkept⟩ := ih heq (Nat.le_of_succ_le_succ hn)
          refine ⟨?_, hkept⟩
          simp [takeLine, hc, htake]

/-- When every line fits into the line buffer, `fgets` returns the lines. -/
theorem readLines_eq {fuel : Nat} (hfuel : text.length ≤ fuel) (hlines : ∀ line ∈ keptLines text, line.length ≤ lineBuf - 1) :
    readLines fuel text = keptLines text := by
  induction fuel generalizing text with
  | zero =>
    obtain rfl := List.eq_nil_of_length_eq_zero (Nat.le_zero.mp hfuel)
    rfl
  | succ fuel ih =>
    cases hkept : keptLines text with
    | nil =>
      obtain rfl := Layout.keptLines_eq_nil hkept
      rfl
    | cons line lines =>
      rw [hkept] at hlines
      obtain ⟨htake, hrest⟩ := takeLine_of_keptLines hkept (hlines line List.mem_cons_self)
      have hpos : 0 < line.length := by
        refine List.length_pos_iff.mpr (Layout.ne_nil_of_mem_keptLines (?_ : line ∈ keptLines text))
        rw [hkept]
        exact List.mem_cons_self
      cases text with
      | nil => cases hkept
      | cons c rest =>
        rw [readLines, htake]
        simp only
        rw [ih ?_ ?_, hrest]
        · rw [List.length_drop]
          omega
        · rw [hrest]
          exact fun l hl => hlines l (List.mem_cons_of_mem _ hl)

/-! ## Braces -/

theorem braceSurplus_append (a b : Text) : braceSurplus (a ++ b) = braceSurplus a + braceSurplus b := by
  simp only [braceSurplus, count_append, Nat.cast_add]
  omega

theorem braceSurplus_cons (c : Char) (rest : Text) : braceSurplus (c :: rest) = braceSurplus [c] + braceSurplus rest :=
  braceSurplus_append [c] rest

theorem scanBraces_eq (braceCount : Int) (inObject : Bool) (line : Text) :
    scanBraces braceCount inObject line = (braceCount + braceSurplus line, inObject || decide ('{' ∈ line)) := by
  induction line generalizing braceCount inObject with
  | nil => simp [scanBraces, braceSurplus]
  | cons c rest ih =>
    rw [scanBraces, braceSurplus_cons]
    split
    · rename_i hc
      subst hc
      rw [ih, show braceSurplus ['{'] = 1 by decide, Int.add_assoc]
      simp
    · rename_i hopen
      split
      · rename_i hc
        subst hc
        rw [ih, show braceSurplus ['}'] = -1 by decide, Int.sub_eq_add_neg, Int.add_assoc]
        simp
      · rename_i hclose
        rw [ih]
        simp [braceSurplus, hopen, hclose, Ne.symm hopen]

/-- The surplus after each line. -/
def lineSurpluses (before : Int) : List Text → List Int
  | [] => []
  | line :: lines => (before + braceSurplus line) :: lineSurpluses (before + braceSurplus line) lines

theorem breakSurpluses_append (before : Int) (a b : Text) :
    breakSurpluses before (a ++ b) = breakSurpluses before a ++ breakSurpluses (before + braceSurplus a) b := by
  induction a generalizing before with
  | nil => simp [breakSurpluses, braceSurplus]
  | cons c rest ih =>
    rw [cons_append, breakSurpluses, breakSurpluses]
    split
    · rename_i hc
      subst hc
      rw [ih, braceSurplus_cons, show braceSurplus ['\n'] = 0 by decide, Int.zero_add]
      rfl
    · rw [ih, braceSurplus_cons c rest, Int.add_assoc]

/-- For a text that ends its last line, the breaks are the ends of the lines. -/
theorem breakSurpluses_eq (h : text.getLast? = none ∨ text.getLast? = some '\n') (before : Int) :
    breakSurpluses before text = lineSurpluses before (keptLines text) := by
  induction text generalizing before with
  | nil => rfl
  | cons c rest ih =>
    have hrest : rest.getLast? = none ∨ rest.getLast? = some '\n' := by
      cases rest with
      | nil => exact .inl rfl
      | cons d rest => exact h
    rw [breakSurpluses, keptLines]
    split
    · rename_i hc
      subst hc
      rw [lineSurpluses, show braceSurplus ['\n'] = 0 by decide, Int.add_zero, ih hrest]
    · rename_i hc
      rw [ih hrest]
      split
      · rename_i hnil
        rw [Layout.keptLines_eq_nil hnil] at h
        rcases h with h | h
        · simp at h
        · exact absurd (by simpa using h) hc
      · rename_i line lines heq
        rw [heq, lineSurpluses, lineSurpluses, braceSurplus_cons c line, Int.add_assoc]

theorem lineSurpluses_append (before : Int) (a b : List Text) :
    lineSurpluses before (a ++ b) = lineSurpluses before a ++ lineSurpluses (before + braceSurplus a.flatten) b := by
  induction a generalizing before with
  | nil => simp [lineSurpluses, braceSurplus]
  | cons line a ih =>
    rw [cons_append, lineSurpluses, lineSurpluses, ih, flatten_cons, braceSurplus_append, Int.add_assoc]
    rfl

/-- The first line after which the braces balance. -/
theorem exists_first_zero {before : Int} (h : 0 ∈ lineSurpluses before lines) :
    ∃ front line back, lines = front ++ line :: back ∧ 0 ∉ lineSurpluses before front ∧
      before + braceSurplus front.flatten + braceSurplus line = 0 := by
  induction lines generalizing before with
  | nil => cases h
  | cons line lines ih =>
    by_cases hzero : before + braceSurplus line = 0
    · exact ⟨[], line, lines, rfl, by simp [lineSurpluses], by simpa [braceSurplus] using hzero⟩
    · rw [lineSurpluses, mem_cons, or_iff_right (Ne.symm hzero)] at h
      obtain ⟨front, last, back, rfl, hnot, hsum⟩ := ih h
      refine ⟨line :: front, last, back, rfl, ?_, ?_⟩
      · rw [lineSurpluses, mem_cons, not_or]
        exact ⟨Ne.symm hzero, hnot⟩
      · rw [flatten_cons, braceSurplus_append, ← Int.add_assoc]
        exact hsum

/-! ## One line -/

/-- A line of the file: printable characters, and a line break unless it is the last. -/
def FileLine (line : Text) : Prop :=
  ∃ content, content ≠ [] ∧ (∀ c ∈ content, Layout.Printable c) ∧ (line = content ++ ['\n'] ∨ line = content)

theorem fileLine_of_neat (h : Layout.NeatLine line) : FileLine line := by
  obtain ⟨content, hne, hprintable, heq⟩ := h
  exact ⟨content, hne, hprintable, .inl heq⟩

/-- Nothing is trimmed after a printable character. -/
theorem trimEnds_content (front : Text) {content : Text} (hne : content ≠ []) (hprintable : ∀ c ∈ content, Layout.Printable c) :
    trimEnds (front ++ content) = front ++ content := by
  obtain ⟨init, last, rfl⟩ := (eq_nil_or_concat content).resolve_left hne
  have hprint := hprintable last (by simp)
  rw [concat_eq_append, ← List.append_assoc]
  refine rdropWhile_concat_neg _ _ _ ?_
  simp only [decide_eq_true_eq, not_or]
  refine ⟨?_, ?_⟩
  · intro hc
    subst hc
    exact absurd hprint (by decide)
  · intro hc
    subst hc
    exact absurd hprint (by decide)

theorem trimEnds_break (front : Text) : trimEnds (front ++ ['\n']) = trimEnds front := rdropWhile_concat_pos _ _ _ (by decide)

theorem trimEnds_neat (h : Layout.Neat text) (front : Text) : trimEnds (front ++ text) = front ++ text := by
  induction h generalizing front with
  | line hne hprintable => exact trimEnds_content front hne hprintable
  | @join a b ha hb iha ihb =>
    have hsplit : front ++ (a ++ '\n' :: b) = (front ++ a ++ ['\n']) ++ b := by simp
    rw [hsplit, ihb]

/-- Only the line break of the line is trimmed. -/
theorem trimEnds_append (buffer : Text) (h : FileLine line) :
    trimEnds (buffer ++ line) = buffer ++ trimEnds line ∧ trimEnds line ≠ [] ∧ line.length ≤ (trimEnds line).length + 1 := by
  obtain ⟨content, hne, hprintable, heq⟩ := h
  have hown : trimEnds content = content := trimEnds_content [] hne hprintable
  rcases heq with rfl | rfl
  · rw [← List.append_assoc, trimEnds_break, trimEnds_break, trimEnds_content buffer hne hprintable, hown]
    exact ⟨rfl, hne, by simp⟩
  · rw [trimEnds_content buffer hne hprintable, hown]
    exact ⟨rfl, hne, Nat.le_succ _⟩

/-- A line of the file is neither skipped nor cut at a zero byte. -/
theorem line_eq (s : Splitter) (h : FileLine line) : s.line line = if s.inObject = true ∨ '{' ∈ line then
        if jsonBufferSize - 1 ≤ s.jsonBuffer.length + line.length then ⟨0, false, [], s.handed⟩
        else if s.braceCount + braceSurplus line = 0 then ⟨0, false, [], s.handed ++ [s.jsonBuffer ++ trimEnds line]⟩
        else ⟨s.braceCount + braceSurplus line, true, s.jsonBuffer ++ line, s.handed⟩
      else ⟨s.braceCount + braceSurplus line, false, s.jsonBuffer, s.handed⟩ := by
  have htrim := (trimEnds_append s.jsonBuffer h).1
  obtain ⟨content, hne, hprintable, heq⟩ := h
  have hbyte : ∀ c ∈ line, c ≠ '\x00' := by
    intro c hc hzero
    subst hzero
    rcases heq with rfl | rfl
    · rcases mem_append.mp hc with hc | hc
      · exact absurd (hprintable _ hc) (by decide)
      · simp at hc
    · exact absurd (hprintable _ hc) (by decide)
  have htake : line.takeWhile (fun c => c ≠ '\x00') = line := takeWhile_eq_self_iff.mpr (by simpa using hbyte)
  have hhead : ¬(line.head? = none ∨ line.head? = some '\n' ∨ line.head? = some '\r') := by
    cases content with
    | nil => exact absurd rfl hne
    | cons first content =>
      have hprint := hprintable first mem_cons_self
      have hfirst : line.head? = some first := by
        rcases heq with rfl | rfl <;> rfl
      rw [hfirst]
      intro hor
      rcases hor with hor | hor | hor
      · cases hor
      · obtain rfl := Option.some.inj hor
        exact absurd hprint (by decide)
      · obtain rfl := Option.some.inj hor
        exact absurd hprint (by decide)
  simp only [Splitter.line, htake, if_neg hhead, scanBraces_eq, Bool.or_eq_true, decide_eq_true_eq]
  by_cases hopen : s.inObject = true ∨ '{' ∈ line
  · simp only [hopen, true_and, if_true]
    by_cases hfull : jsonBufferSize - 1 ≤ s.jsonBuffer.length + line.length
    · rw [if_pos hfull, if_pos hfull]
    · rw [if_neg hfull, if_neg hfull]
      by_cases hzero : s.braceCount + braceSurplus line = 0
      · rw [if_pos hzero, if_pos hzero, htrim, hzero]
      · rw [if_neg hzero, if_neg hzero]
        congr 1
        simpa using hopen
  · simp only [hopen, false_and, if_false]
    congr 1
    simpa using hopen

/-! ## Lines of one record -/

/-- While the braces do not balance, the lines are collected. -/
theorem foldl_open (s : Splitter) (hopen : s.inObject = true) (hlines : ∀ line ∈ lines, FileLine line)
    (hfit : s.jsonBuffer.length + lines.flatten.length < jsonBufferSize - 1) (hnot : 0 ∉ lineSurpluses s.braceCount lines) :
    lines.foldl Splitter.line s = ⟨s.braceCount + braceSurplus lines.flatten, true, s.jsonBuffer ++ lines.flatten, s.handed⟩ := by
  induction lines generalizing s with
  | nil =>
    cases s
    simp_all [braceSurplus]
  | cons line lines ih =>
    rw [flatten_cons, length_append] at hfit
    rw [lineSurpluses, mem_cons, not_or] at hnot
    rw [foldl_cons, line_eq s (hlines line mem_cons_self), if_pos (.inl hopen), if_neg (by omega), if_neg (Ne.symm hnot.1),
      ih _ rfl (fun l hl => hlines l (mem_cons_of_mem _ hl)) (by rw [length_append]; omega) hnot.2,
      flatten_cons, braceSurplus_append, Int.add_assoc, List.append_assoc]

/-- The splitter between two records. -/
def clean (handed : List Text) : Splitter := ⟨0, false, [], handed⟩

/-- From the first line on, which has a brace, the lines are collected while the braces do not balance. -/
theorem foldl_clean {first : Text} (handed : List Text) (hbrace : '{' ∈ first)
    (hlines : ∀ line ∈ first :: lines, FileLine line) (hfit : (first :: lines).flatten.length < jsonBufferSize - 1)
    (hnot : 0 ∉ lineSurpluses 0 (first :: lines)) :
    (first :: lines).foldl Splitter.line (clean handed) =
      ⟨braceSurplus (first :: lines).flatten, true, (first :: lines).flatten, handed⟩ := by
  rw [lineSurpluses, mem_cons, not_or, Int.zero_add] at hnot
  rw [flatten_cons, length_append] at hfit
  have hstep : (clean handed).line first = ⟨braceSurplus first, true, first, handed⟩ := by
    rw [line_eq _ (hlines first mem_cons_self), if_pos (.inr hbrace)]
    change (if jsonBufferSize - 1 ≤ 0 + first.length then _ else _) = _
    rw [if_neg (by omega)]
    change (if 0 + braceSurplus first = 0 then _ else _) = _
    rw [Int.zero_add, if_neg (Ne.symm hnot.1)]
    simp [clean]
  rw [foldl_cons, hstep, foldl_open _ rfl (fun l hl => hlines l (mem_cons_of_mem _ hl)) hfit hnot.2, flatten_cons,
    braceSurplus_append]

/-- At the first line at which the braces balance, what has been collected is handed over. -/
theorem foldl_balance {front : List Text} {last : Text} (handed : List Text) (hbrace : ∀ first ∈ (front ++ [last]).head?, '{' ∈ first)
    (hlines : ∀ line ∈ front ++ [last], FileLine line) (hfit : (front ++ [last]).flatten.length < jsonBufferSize - 1)
    (hnot : 0 ∉ lineSurpluses 0 front) (hzero : braceSurplus front.flatten + braceSurplus last = 0) :
    (front ++ [last]).foldl Splitter.line (clean handed) = clean (handed ++ [front.flatten ++ trimEnds last]) := by
  have hlast := hlines last (by simp)
  rw [flatten_append, length_append, flatten_singleton] at hfit
  rw [foldl_append, foldl_cons, foldl_nil]
  cases front with
  | nil =>
    have hopen := hbrace last rfl
    rw [foldl_nil, line_eq _ hlast, if_pos (.inr hopen)]
    change (if jsonBufferSize - 1 ≤ 0 + last.length then _ else if 0 + braceSurplus last = 0 then _ else _) = _
    rw [if_neg (by omega), if_pos (by simpa [braceSurplus] using hzero)]
    rfl
  | cons first front =>
    rw [foldl_clean handed (hbrace first rfl) (fun l hl => hlines l (mem_append_left _ hl)) (by omega) hnot, line_eq _ hlast,
      if_pos (.inl rfl)]
    change (if jsonBufferSize - 1 ≤ (first :: front).flatten.length + last.length then _ else _) = _
    rw [if_neg (by omega)]
    change (if braceSurplus (first :: front).flatten + braceSurplus last = 0 then _ else _) = _
    rw [if_pos hzero]
    rfl

/-! ## How much can be handed over -/

/-- The length of a line without its line break, and one. -/
def weight (line : Text) : Nat := (trimEnds line).length + 1

/-- The lengths of texts with their line breaks. -/
def total (texts : List Text) : Nat := (texts.map fun text => text.length + 1).sum

/-- A line adds at most its own weight to what is handed over or collected. -/
theorem line_count (s : Splitter) (h : FileLine line) :
    ∃ new, (s.line line).handed = s.handed ++ new ∧ total new + (s.line line).jsonBuffer.length ≤ s.jsonBuffer.length + weight line := by
  have hlength := (trimEnds_append s.jsonBuffer h).2.2
  rw [line_eq s h]
  split
  · split
    · exact ⟨[], by simp, by simp [total]⟩
    · split
      · refine ⟨[s.jsonBuffer ++ trimEnds line], rfl, ?_⟩
        simp only [total, weight, map_singleton, sum_singleton, length_append, length_nil]
        omega
      · refine ⟨[], by simp, ?_⟩
        simp only [total, weight, map_nil, sum_nil, length_append]
        omega
  · exact ⟨[], by simp, by simp [total]⟩

theorem foldl_count (s : Splitter) (hlines : ∀ line ∈ lines, FileLine line) : ∃ new, (lines.foldl Splitter.line s).handed = s.handed ++ new ∧
      total new + (lines.foldl Splitter.line s).jsonBuffer.length ≤ s.jsonBuffer.length + (lines.map weight).sum := by
  induction lines generalizing s with
  | nil => exact ⟨[], by simp, by simp [total]⟩
  | cons line lines ih =>
    obtain ⟨here, hhere, hcount⟩ := line_count s (hlines line mem_cons_self)
    obtain ⟨later, hlater, hrest⟩ := ih (s.line line) fun l hl => hlines l (mem_cons_of_mem _ hl)
    refine ⟨here ++ later, ?_, ?_⟩
    · rw [foldl_cons, hlater, hhere, List.append_assoc]
    · rw [foldl_cons, List.map_cons, sum_cons, total, map_append, sum_append]
      change total here + total later + _ ≤ _
      omega

/-- Once lines have been collected, what is handed over next is longer than they are, or they are given up. -/
theorem foldl_stuck (s : Splitter) (hopen : s.inObject = true) (hlines : ∀ line ∈ lines, FileLine line) :
    ∃ new, (lines.foldl Splitter.line s).handed = s.handed ++ new ∧
      (new = [] ∨ (∃ text rest, new = text :: rest ∧ s.jsonBuffer.length < text.length) ∨ total new ≤ (lines.map weight).sum) := by
  induction lines generalizing s with
  | nil => exact ⟨[], by simp, .inl rfl⟩
  | cons line lines ih =>
    have hline := hlines line mem_cons_self
    have hrest : ∀ l ∈ lines, FileLine l := fun l hl => hlines l (mem_cons_of_mem _ hl)
    obtain ⟨-, hne, -⟩ := trimEnds_append s.jsonBuffer hline
    have hpos := length_pos_iff.mpr hne
    rw [foldl_cons, line_eq s hline, if_pos (.inl hopen)]
    split
    · -- The collected lines are given up.
      obtain ⟨new, hnew, hcount⟩ := foldl_count ⟨0, false, [], s.handed⟩ hrest
      refine ⟨new, hnew, .inr (.inr ?_)⟩
      rw [List.map_cons, sum_cons]
      change total new + _ ≤ 0 + _ at hcount
      omega
    split
    · obtain ⟨new, hnew, -⟩ := foldl_count ⟨0, false, [], s.handed ++ [s.jsonBuffer ++ trimEnds line]⟩ hrest
      refine ⟨(s.jsonBuffer ++ trimEnds line) :: new, by rw [hnew, List.append_assoc]; rfl, .inr (.inl ⟨_, new, rfl, ?_⟩)⟩
      rw [length_append]
      omega
    · obtain ⟨new, hnew, hcases⟩ := ih ⟨s.braceCount + braceSurplus line, true, s.jsonBuffer ++ line, s.handed⟩ rfl hrest
      refine ⟨new, hnew, ?_⟩
      rcases hcases with hnil | ⟨text, rest, heq, hlong⟩ | hcount
      · exact .inl hnil
      · change (s.jsonBuffer ++ line).length < text.length at hlong
        rw [length_append] at hlong
        exact .inr (.inl ⟨text, rest, heq, by omega⟩)
      · rw [List.map_cons, sum_cons]
        exact .inr (.inr (by omega))

/-! ## All records -/

/-- What is known of the text of a record. -/
structure TextOk (text : Text) : Prop where
  neat : Layout.Neat text
  brace : ∀ first ∈ (keptLines (text ++ ['\n'])).head?, '{' ∈ first
  long : 2 ≤ text.length

/-- The lines of a record. -/
def linesOf (text : Text) : List Text := keptLines (text ++ ['\n'])

/-- The braces of a text balance at its end and at no line break inside it. -/
def Balanced (text : Text) : Prop := 0 ∉ breakSurpluses 0 text ∧ braceSurplus text = 0

theorem fileLine_of_mem (h : TextOk text) : ∀ line ∈ linesOf text, FileLine line := fun line hline =>
  fileLine_of_neat (Layout.neatLine_of_mem h.neat line hline)

theorem flatten_linesOf (text : Text) : (linesOf text).flatten = text ++ ['\n'] := Layout.flatten_keptLines _

theorem lineSurpluses_linesOf (text : Text) : lineSurpluses 0 (linesOf text) = breakSurpluses 0 text ++ [braceSurplus text] := by
  rw [linesOf, ← breakSurpluses_eq (by simp), breakSurpluses_append, Int.zero_add]
  rfl

/-- The weight of the lines of a record is the length of its text with the line break. -/
theorem sum_weight_linesOf (h : TextOk text) : ((linesOf text).map weight).sum = text.length + 1 := by
  have hline : ∀ line ∈ linesOf text, weight line = line.length := by
    intro line hline
    obtain ⟨content, hne, hprintable, rfl⟩ := Layout.neatLine_of_mem h.neat line hline
    have hown : trimEnds content = content := trimEnds_content [] hne hprintable
    rw [weight, trimEnds_break, hown, List.length_append, List.length_singleton]
  rw [List.map_congr_left hline, ← List.length_flatten, flatten_linesOf, List.length_append, List.length_singleton]

/-- The last line of the file changes nothing between two records. -/
theorem fileLine_closing : FileLine [']'] := ⟨[']'], by simp, by simp [Layout.Printable], .inr rfl⟩

theorem line_closing (handed : List Text) : ((clean handed).line [']']).handed = handed := by
  rw [line_eq _ fileLine_closing, if_neg (by simp [clean])]
  rfl

/-- A record whose braces balance is handed over whole. -/
theorem foldl_balanced (hok : TextOk text) (hfit : text.length + 1 < jsonBufferSize - 1) (hbalanced : Balanced text)
    (handed : List Text) : (linesOf text).foldl Splitter.line (clean handed) = clean (handed ++ [text]) := by
  have hflatten := flatten_linesOf text
  obtain ⟨front, last, hlines⟩ : ∃ front last, linesOf text = front ++ [last] := by
    rcases eq_nil_or_concat (linesOf text) with hnil | ⟨front, last, heq⟩
    · rw [hnil] at hflatten
      simp at hflatten
    · exact ⟨front, last, by rw [heq, concat_eq_append]⟩
  have hsurpluses := lineSurpluses_linesOf text
  rw [hlines, lineSurpluses_append] at hsurpluses
  obtain ⟨hfront, hlast⟩ := append_inj' hsurpluses rfl
  have hzero : braceSurplus front.flatten + braceSurplus last = 0 := by
    have heq := (cons.inj hlast).1
    rw [Int.zero_add, hbalanced.2] at heq
    exact heq
  have hfiles := fileLine_of_mem hok
  have hbrace := hok.brace
  change ∀ first ∈ (linesOf text).head?, '{' ∈ first at hbrace
  rw [hlines] at hfiles hbrace hflatten
  rw [hlines, foldl_balance handed hbrace hfiles (by rw [hflatten, length_append, length_singleton]; exact hfit)
    (by rw [hfront]; exact hbalanced.1) hzero]
  -- What is handed over is the text without its line break.
  have htext : front.flatten ++ trimEnds last = text := by
    have hneat : trimEnds text = text := trimEnds_neat hok.neat []
    rw [← (trimEnds_append front.flatten (hfiles last (by simp))).1]
    rw [flatten_append, flatten_singleton] at hflatten
    rw [hflatten, trimEnds_break, hneat]
  rw [htext]

/-- The lines of all records and the last line of the file. -/
def allLines (texts : List Text) : List Text := texts.flatMap linesOf ++ [[']']]

theorem fileLine_allLines (hok : ∀ text ∈ texts, TextOk text) : ∀ line ∈ allLines texts, FileLine line := by
  intro line hline
  rcases mem_append.mp hline with hline | hline
  · obtain ⟨text, htext, hline⟩ := mem_flatMap.mp hline
    exact fileLine_of_mem (hok text htext) line hline
  · rw [mem_singleton.mp hline]
    exact fileLine_closing

theorem sum_weight_allLines (hok : ∀ text ∈ texts, TextOk text) : ((allLines texts).map weight).sum = total texts + 2 := by
  induction texts with
  | nil => decide
  | cons text texts ih =>
    have hrest := ih fun t ht => hok t (mem_cons_of_mem _ ht)
    have hsplit : allLines (text :: texts) = linesOf text ++ allLines texts := by simp [allLines]
    rw [hsplit, map_append, sum_append, sum_weight_linesOf (hok text mem_cons_self), hrest, total, total, List.map_cons,
      sum_cons]
    omega

/-- A record whose braces do not balance is not handed over whole. -/
theorem foldl_not_balanced (hok : ∀ t ∈ text :: texts, TextOk t)
    (hfit : text.length + 1 < jsonBufferSize - 1) (hnot : ¬Balanced text) (handed : List Text) :
    ((allLines (text :: texts)).foldl Splitter.line (clean handed)).handed ≠ handed ++ text :: texts := by
  have hsplit : allLines (text :: texts) = linesOf text ++ allLines texts := by simp [allLines]
  have htextOk := hok text List.mem_cons_self
  have hfiles := fileLine_of_mem htextOk
  have hrest : ∀ line ∈ allLines texts, FileLine line := fileLine_allLines fun t ht => hok t (List.mem_cons_of_mem _ ht)
  have hflatten := flatten_linesOf text
  have hlength : (linesOf text).flatten.length < jsonBufferSize - 1 := by
    rw [hflatten, List.length_append, List.length_singleton]
    exact hfit
  have hbrace := htextOk.brace
  change ∀ first ∈ (linesOf text).head?, '{' ∈ first at hbrace
  intro heq
  rw [hsplit, List.foldl_append] at heq
  by_cases hzero : 0 ∈ lineSurpluses 0 (linesOf text)
  · -- The braces balance at an earlier line: a part of the record is handed over.
    obtain ⟨front, last, back, hlines, hfront, hsum⟩ := exists_first_zero hzero
    have hback : back ≠ [] := by
      intro hnil
      subst hnil
      have hsurpluses := lineSurpluses_linesOf text
      rw [hlines, lineSurpluses_append] at hsurpluses
      obtain ⟨hsame, hlast⟩ := List.append_inj' hsurpluses rfl
      refine hnot ⟨hsame ▸ hfront, ?_⟩
      rw [← (List.cons.inj hlast).1]
      exact hsum
    have hsplit' : front ++ last :: back = (front ++ [last]) ++ back := by simp
    rw [hlines, hsplit'] at hfiles hbrace hlength hflatten
    have hhead : ∀ first ∈ (front ++ [last]).head?, '{' ∈ first := by
      cases front with
      | nil => exact hbrace
      | cons first front => exact hbrace
    rw [hlines, hsplit', List.foldl_append, foldl_balance handed hhead (fun l hl => hfiles l (List.mem_append_left _ hl))
      (by rw [List.flatten_append, List.length_append] at hlength; omega) hfront (by rw [← hsum, Int.zero_add]), ← List.foldl_append] at heq
    have hlater : ∀ line ∈ back ++ allLines texts, FileLine line := by
      intro line hline
      rcases List.mem_append.mp hline with hline | hline
      · exact hfiles line (List.mem_append_right _ hline)
      · exact hrest line hline
    obtain ⟨new, hnew, -⟩ := foldl_count (clean (handed ++ [front.flatten ++ trimEnds last])) hlater
    rw [hnew] at heq
    change handed ++ [front.flatten ++ trimEnds last] ++ new = _ at heq
    rw [List.append_assoc, List.append_cancel_left_eq, List.singleton_append] at heq
    have htext := congrArg List.length (List.cons.inj heq).1
    -- The part is shorter, since a line follows it.
    have hpart : (trimEnds last).length ≤ last.length := (List.rdropWhile_prefix _ _).length_le
    obtain ⟨line, lines, rfl⟩ := List.exists_cons_of_ne_nil hback
    have hline : 2 ≤ line.length := by
      have hmem : line ∈ linesOf text := by
        rw [hlines]
        simp
      obtain ⟨content, hne, -, rfl⟩ := Layout.neatLine_of_mem htextOk.neat line hmem
      have hpos := List.length_pos_iff.mpr hne
      rw [List.length_append, List.length_singleton]
      omega
    have hsize := congrArg List.length hflatten
    simp only [List.flatten_append, List.flatten_cons, List.flatten_nil, List.length_append, List.length_singleton, List.append_nil] at hsize
    rw [List.length_append] at htext
    omega
  · -- The braces never balance: what is handed over next is longer, or the record is given up.
    obtain ⟨first, others, hlines⟩ : ∃ first others, linesOf text = first :: others := by
      refine List.exists_cons_of_ne_nil fun hnil => ?_
      rw [hnil] at hflatten
      simp at hflatten
    rw [hlines] at hfiles hbrace hlength hzero
    rw [hlines, foldl_clean handed (hbrace first rfl) hfiles hlength hzero, ← hlines, hflatten] at heq
    obtain ⟨new, hnew, hcases⟩ := foldl_stuck ⟨braceSurplus (text ++ ['\n']), true, text ++ ['\n'], handed⟩ rfl hrest
    rw [hnew, List.append_cancel_left_eq] at heq
    subst heq
    rcases hcases with hnil | ⟨next, rest, hcons, hlong⟩ | hcount
    · cases hnil
    · obtain ⟨rfl, -⟩ := List.cons.inj hcons
      change (text ++ ['\n']).length < text.length at hlong
      rw [List.length_append] at hlong
      omega
    · rw [sum_weight_allLines fun t ht => hok t (List.mem_cons_of_mem _ ht), total, List.map_cons, List.sum_cons] at hcount
      change text.length + 1 + total texts ≤ total texts + 2 at hcount
      have hlong := htextOk.long
      omega

theorem handed_iff (hok : ∀ text ∈ texts, TextOk text) (hfit : ∀ text ∈ texts, text.length + 1 < jsonBufferSize - 1) (handed : List Text) :
    ((allLines texts).foldl Splitter.line (clean handed)).handed = handed ++ texts ↔ ∀ text ∈ texts, Balanced text := by
  induction texts generalizing handed with
  | nil =>
    rw [allLines, flatMap_nil, nil_append, foldl_cons, foldl_nil, line_closing, append_nil]
    simp
  | cons text texts ih =>
    by_cases hbalanced : Balanced text
    · have hsplit : allLines (text :: texts) = linesOf text ++ allLines texts := by simp [allLines]
      have hcons : handed ++ text :: texts = handed ++ [text] ++ texts := by simp
      rw [hsplit, foldl_append, foldl_balanced (hok text mem_cons_self) (hfit text mem_cons_self) hbalanced, hcons,
        ih (fun t ht => hok t (mem_cons_of_mem _ ht)) (fun t ht => hfit t (mem_cons_of_mem _ ht)), forall_mem_cons]
      exact (and_iff_right hbalanced).symm
    · refine iff_of_false (foldl_not_balanced hok (hfit text mem_cons_self) hbalanced handed) fun hall => ?_
      exact hbalanced (hall text mem_cons_self)

/-! ## The file -/

theorem recordText_eq (record : Record) : ∃ rest, recordText record = ' ' :: ' ' :: '{' :: rest := by
  cases record with
  | nil => exact ⟨['}'], rfl⟩
  | cons entry entries =>
    obtain ⟨key, value⟩ := entry
    rw [recordText, Python.PyValue.tree, Python.PyValue.entryTrees, Layout.print]
    exact ⟨_, rfl⟩

/-- A record is followed by nothing or by a comma in its line. -/
def Tail (tail : Text) : Prop := tail = [] ∨ tail = [',']

theorem textOk_record (record : Record) {tail : Text} (htail : Tail tail) : TextOk (recordText record ++ tail) := by
  have hprintable : ∀ c ∈ tail, Layout.Printable c := by
    rcases htail with rfl | rfl
    · simp
    · simp [Layout.Printable]
  have hneat := (Layout.neat_print 1 _ (Python.wellFormed_tree (.dict record))).prepend (Layout.printable_indent 1)
  obtain ⟨rest, hrest⟩ := recordText_eq record
  refine ⟨hneat.append hprintable, ?_, ?_⟩
  · intro first hfirst
    have htext : recordText record ++ tail ++ ['\n'] = ' ' :: ' ' :: '{' :: (rest ++ tail ++ ['\n']) := by
      rw [hrest]
      rfl
    rw [htext, Layout.head?_keptLines (by decide), Option.mem_some_iff] at hfirst
    rw [← hfirst, List.headD_eq_head?_getD, Layout.head?_keptLines (by decide), Option.getD_some, List.headD_eq_head?_getD,
      Layout.head?_keptLines (by decide), Option.getD_some]
    simp
  · rw [hrest]
    simp

theorem balanced_record (record : Record) {tail : Text} (htail : Tail tail) : Balanced (recordText record ++ tail) ↔ BracesBalance record := by
  rw [Balanced, BracesBalance, breakSurpluses_append, braceSurplus_append]
  rcases htail with rfl | rfl
  · simp [breakSurpluses, braceSurplus]
  · simp [breakSurpluses, braceSurplus]

/-- What holds of the text of every record, whatever follows it, holds of all texts. -/
theorem forall_recordTexts {P : Text → Prop} {Q : Record → Prop} (h : ∀ record tail, Tail tail → (P (recordText record ++ tail) ↔ Q record))
    (records : List Record) : (∀ text ∈ recordTexts records, P text) ↔ ∀ record ∈ records, Q record := by
  induction records using recordTexts.induct with
  | case1 => simp [recordTexts]
  | case2 record =>
    have hlast := h record [] (.inl rfl)
    rw [append_nil] at hlast
    simpa [recordTexts] using hlast
  | case3 record next records ih => rw [recordTexts, forall_mem_cons, forall_mem_cons, ih, h record _ (.inr rfl)]

theorem printItems_eq (records : List Record) :
    Layout.printItems 1 (Python.PyValue.itemTrees (records.map .dict)) = (recordTexts records).flatMap fun text => '\n' :: text := by
  induction records using recordTexts.induct with
  | case1 => rfl
  | case2 record => simp [recordTexts, recordText, Python.PyValue.itemTrees, Layout.printItems]
  | case3 record next records ih =>
    rw [recordTexts, List.flatMap_cons, ← ih]
    simp [recordText, Python.PyValue.itemTrees, Layout.printItems]

theorem flatMap_break (texts : List Text) :
    (texts.flatMap fun text => '\n' :: text) ++ ['\n'] = '\n' :: texts.flatMap fun text => text ++ ['\n'] := by
  induction texts with
  | nil => rfl
  | cons text texts ih => rw [List.flatMap_cons, List.flatMap_cons, List.append_assoc, ih, cons_append, List.append_assoc]; rfl

theorem keptLines_texts (texts : List Text) : keptLines ((texts.flatMap fun text => text ++ ['\n']) ++ [']']) = allLines texts := by
  induction texts with
  | nil => rfl
  | cons text texts ih =>
    rw [List.flatMap_cons, List.append_assoc, List.append_assoc, List.singleton_append, Layout.keptLines_append, ih, allLines, allLines,
      List.flatMap_cons, List.append_assoc]
    rfl

/-- The lines of the file: a bracket, the lines of the records, a bracket. -/
theorem keptLines_fileText {records : List Record} (hne : records ≠ []) :
    keptLines (fileText records) = ['[', '\n'] :: allLines (recordTexts records) := by
  obtain ⟨record, others, rfl⟩ := List.exists_cons_of_ne_nil hne
  have hitems := printItems_eq (record :: others)
  rw [List.map_cons, Python.PyValue.itemTrees] at hitems
  have htext : fileText (record :: others) = ['['] ++ '\n' :: (((recordTexts (record :: others)).flatMap fun text => text ++ ['\n']) ++ [']']) := by
    rw [fileText, Python.dump, Python.PyValue.tree, List.map_cons, Python.PyValue.itemTrees, Layout.print, hitems]
    have hbreak := flatMap_break (recordTexts (record :: others))
    rw [← List.cons_append, ← hbreak]
    simp [Layout.indent]
  rw [htext, Layout.keptLines_append, keptLines_texts]
  rfl

end ObjectsAux

end EbpfSyscall.Replayer
