import Mathlib

/-!
# Indented trees and their lines

A tree of brackets printed over several lines: every item of a node stands on lines of its own, indented by two blanks for each level,
with its label before it and a comma after it unless it is the last. A text of this kind is neat: its lines are not empty and have
printable characters only. The lines of a text are taken with the line breaks that end them.
-/

namespace Layout

open List

abbrev Chars := List Char

/-- A leaf is its text; a node has an opening and a closing bracket and labelled items. -/
inductive Tree where
  | leaf (text : Chars)
  | node (opening closing : Char) (items : List (Chars × Tree))

def indent (level : Nat) : Chars := List.replicate (2 * level) ' '

mutual

def print (level : Nat) : Tree → Chars
  | .leaf text => text
  | .node opening closing [] => [opening, closing]
  | .node opening closing (item :: items) =>
    opening :: printItems (level + 1) (item :: items) ++ '\n' :: indent level ++ [closing]

/-- The items, each after a line break. -/
def printItems (level : Nat) : List (Chars × Tree) → Chars
  | [] => []
  | [(label, tree)] => '\n' :: indent level ++ label ++ print level tree
  | (label, tree) :: item :: items => '\n' :: indent level ++ label ++ print level tree ++ [','] ++ printItems level (item :: items)

end

/-! ## Neat texts -/

/-- A printable ASCII character. -/
def Printable (c : Char) : Prop := 0x20 ≤ c.toNat ∧ c.toNat ≤ 0x7e

instance (c : Char) : Decidable (Printable c) := inferInstanceAs (Decidable (_ ∧ _))

mutual

def WellFormed : Tree → Prop
  | .leaf text => text ≠ [] ∧ ∀ c ∈ text, Printable c
  | .node opening closing items => Printable opening ∧ Printable closing ∧ WellFormedItems items

def WellFormedItems : List (Chars × Tree) → Prop
  | [] => True
  | (label, tree) :: items => (∀ c ∈ label, Printable c) ∧ WellFormed tree ∧ WellFormedItems items

end

/-- Lines that are not empty, of printable characters, with line breaks between them. -/
inductive Neat : Chars → Prop where
  | line {text : Chars} (hne : text ≠ []) (hprintable : ∀ c ∈ text, Printable c) : Neat text
  | join {a b : Chars} (ha : Neat a) (hb : Neat b) : Neat (a ++ '\n' :: b)

theorem Neat.prepend {a : Chars} (h : Neat a) {p : Chars} (hp : ∀ c ∈ p, Printable c) : Neat (p ++ a) := by
  induction h with
  | line hne hprintable =>
    refine .line (by simp [hne]) fun c hc => ?_
    rcases mem_append.mp hc with hc | hc
    · exact hp c hc
    · exact hprintable c hc
  | join ha hb iha ihb =>
    rw [← append_assoc]
    exact .join iha hb

theorem Neat.append {a : Chars} (h : Neat a) {p : Chars} (hp : ∀ c ∈ p, Printable c) : Neat (a ++ p) := by
  induction h with
  | line hne hprintable =>
    refine .line (by simp [hne]) fun c hc => ?_
    rcases mem_append.mp hc with hc | hc
    · exact hprintable c hc
    · exact hp c hc
  | join ha hb iha ihb =>
    rw [append_assoc, cons_append]
    exact .join ha ihb

theorem printable_indent (level : Nat) : ∀ c ∈ indent level, Printable c := by
  intro c hc
  rw [eq_of_mem_replicate hc]
  decide

mutual

theorem neat_print (level : Nat) : ∀ tree, WellFormed tree → Neat (print level tree)
  | .leaf text, h => by
    rw [print]
    rw [WellFormed] at h
    exact .line h.1 h.2
  | .node opening closing [], h => by
    rw [WellFormed] at h
    rw [print]
    refine .line (by simp) fun c hc => ?_
    rcases List.mem_pair.mp hc with rfl | rfl
    · exact h.1
    · exact h.2.1
  | .node opening closing (item :: items), h => by
    rw [WellFormed] at h
    obtain ⟨hopening, hclosing, hitems⟩ := h
    obtain ⟨body, hbody, hneat⟩ := neat_printItems (level + 1) (item :: items) (by simp) hitems
    have hfirst : Neat [opening] := .line (by simp) (by simpa using hopening)
    have hlast : Neat (indent level ++ [closing]) :=
      (Neat.line (by simp) (by simpa using hclosing)).prepend (printable_indent level)
    have htext : print level (.node opening closing (item :: items)) = [opening] ++ '\n' :: (body ++ '\n' :: (indent level ++ [closing])) := by
      rw [print, hbody]
      simp
    rw [htext]
    exact .join hfirst (.join hneat hlast)

theorem neat_printItems (level : Nat) : ∀ items, items ≠ [] → WellFormedItems items → ∃ body, printItems level items = '\n' :: body ∧ Neat body
  | [], h, _ => absurd rfl h
  | [(label, tree)], _, h => by
    rw [WellFormedItems] at h
    refine ⟨indent level ++ label ++ print level tree, by simp [printItems], ?_⟩
    rw [List.append_assoc]
    exact ((neat_print level tree h.2.1).prepend h.1).prepend (printable_indent level)
  | (label, tree) :: item :: items, _, h => by
    rw [WellFormedItems] at h
    obtain ⟨body, hbody, hneat⟩ := neat_printItems level (item :: items) (by simp) h.2.2
    refine ⟨(indent level ++ (label ++ print level tree)) ++ [','] ++ '\n' :: body, ?_, ?_⟩
    · rw [printItems, hbody]
      simp
    · have hcomma : ∀ c ∈ [','], Printable c := by simp [Printable]
      exact .join ((((neat_print level tree h.2.1).prepend h.1).prepend (printable_indent level)).append hcomma) hneat

end

/-! ## Lines -/

/-- The lines of a text with their line breaks; the last one may have none. -/
def keptLines : Chars → List Chars
  | [] => []
  | c :: rest =>
    if c = '\n' then [c] :: keptLines rest
    else
      match keptLines rest with
      | [] => [[c]]
      | line :: lines => (c :: line) :: lines

variable {text : Chars}

theorem keptLines_eq_nil (h : keptLines text = []) : text = [] := by
  cases text with
  | nil => rfl
  | cons c rest =>
    rw [keptLines] at h
    split at h
    · cases h
    · split at h <;> cases h

theorem ne_nil_of_mem_keptLines {line : Chars} (h : line ∈ keptLines text) : line ≠ [] := by
  induction text generalizing line with
  | nil => cases h
  | cons c rest ih =>
    rw [keptLines] at h
    split at h
    · rcases mem_cons.mp h with rfl | h
      · simp
      · exact ih h
    · split at h
      · rw [mem_singleton.mp h]
        simp
      · rename_i first lines heq
        rcases mem_cons.mp h with rfl | h
        · simp
        · exact ih (by rw [heq]; exact mem_cons_of_mem _ h)

theorem flatten_keptLines (text : Chars) : (keptLines text).flatten = text := by
  induction text with
  | nil => rfl
  | cons c rest ih =>
    rw [keptLines]
    split
    · rw [flatten_cons, ih]
      rfl
    · split
      · rename_i hnil
        rw [keptLines_eq_nil hnil]
        rfl
      · rename_i line lines heq
        rw [heq, flatten_cons] at ih
        rw [flatten_cons, cons_append, ih]

/-- The first line of a text that does not begin with a line break. -/
theorem head?_keptLines {c : Char} (hc : c ≠ '\n') (rest : Chars) : (keptLines (c :: rest)).head? = some (c :: (keptLines rest).headD []) := by
  rw [keptLines, if_neg hc]
  cases keptLines rest with
  | nil => rfl
  | cons line lines => rfl

/-- A text splits where a line ends. -/
theorem keptLines_append (a b : Chars) : keptLines (a ++ '\n' :: b) = keptLines (a ++ ['\n']) ++ keptLines b := by
  induction a with
  | nil => simp [keptLines]
  | cons c a ih =>
    rw [cons_append, cons_append, keptLines, keptLines, ih]
    split
    · rfl
    · cases hlines : keptLines (a ++ ['\n']) with
      | nil =>
        have hnil := keptLines_eq_nil hlines
        simp at hnil
      | cons line lines => rfl

/-- A line of a neat text: printable characters and a line break. -/
def NeatLine (line : Chars) : Prop := ∃ content, content ≠ [] ∧ (∀ c ∈ content, Printable c) ∧ line = content ++ ['\n']

theorem newline_not_mem (h : ∀ c ∈ text, Printable c) : '\n' ∉ text := fun hmem => absurd (h _ hmem) (by decide)

theorem neatLine_of_mem (h : Neat text) : ∀ line ∈ keptLines (text ++ ['\n']), NeatLine line := by
  induction h with
  | @line text hne hprintable =>
    intro line hline
    have hlines : keptLines (text ++ ['\n']) = [text ++ ['\n']] := by
      clear hline
      induction text with
      | nil => exact absurd rfl hne
      | cons c rest ih =>
        have hc : c ≠ '\n' := fun heq => newline_not_mem hprintable (by simp [heq])
        rw [cons_append, keptLines, if_neg hc]
        by_cases hnil : rest = []
        · rw [hnil]
          rfl
        · rw [ih hnil fun d hd => hprintable d (mem_cons_of_mem _ hd)]
    rw [hlines, mem_singleton] at hline
    exact ⟨text, hne, hprintable, hline⟩
  | @join a b ha hb iha ihb =>
    intro line hline
    rw [append_assoc, cons_append, keptLines_append] at hline
    rcases mem_append.mp hline with hline | hline
    · exact iha line hline
    · exact ihb line hline

end Layout
