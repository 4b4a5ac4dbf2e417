import Mathlib

/-!
# Splitting a text into fields and lines

Two splitters over lists, for any alphabet. `fields p` cuts at every separator and drops the empty pieces, as a splitter on runs
of blanks does. `lines f p` cuts at every separator and drops the last piece when it is empty, as a splitter of a text whose
lines each end in a line break does; `f` says what becomes of a line that has its line break. Both come with what they do at a
separator, so a text built from words and separators is split by rewriting.
-/

namespace Fields

open List

variable {α : Type} {p : α → Bool} {f : List α → List α} {c : α} {w : List α}

/-- The maximal words without a separator. -/
def fields (p : α → Bool) (l : List α) : List (List α) := (l.splitOnP p).filter (fun w => !w.isEmpty)

/-- Pieces as lines: every piece but the last had its line break, and the last one is no line when it is empty. -/
def closeLines (f : List α → List α) : List (List α) → List (List α)
  | [] => []
  | [w] => if w.isEmpty then [] else [w]
  | w :: v :: ws => f w :: closeLines f (v :: ws)

/-- The lines of a text. -/
def lines (f : List α → List α) (p : α → Bool) (l : List α) : List (List α) := closeLines f (l.splitOnP p)

/-! ## Fields -/

@[simp] theorem fields_nil : fields p ([] : List α) = [] := by
  simp [fields, splitOnP_nil]

/-- A separator splits the fields into those before it and those after it. -/
theorem fields_append_sep (a b : List α) (hc : p c = true) : fields p (a ++ c :: b) = fields p a ++ fields p b := by
  unfold fields
  rw [splitOnP_append_cons a b hc, filter_append]

/-- A nonempty word without a separator is one field. -/
theorem fields_word (hne : w ≠ []) (hw : ∀ c ∈ w, p c = false) : fields p w = [w] := by
  unfold fields
  rw [splitOnP_eq_singleton hw]
  cases w with
  | nil => exact absurd rfl hne
  | cons a w => rfl

/-- A word, a separator and the rest: the word is the first field. -/
theorem fields_word_sep (hne : w ≠ []) (hw : ∀ c ∈ w, p c = false) (hc : p c = true) (b : List α) : fields p (w ++ c :: b) = w :: fields p b := by
  rw [fields_append_sep w b hc, fields_word hne hw]
  rfl

/-- A word of a text with separators. -/
def Word (p : α → Bool) (w : List α) : Prop := w ≠ [] ∧ ∀ c ∈ w, p c = false

theorem free_iff_all {p : α → Bool} : (∀ c ∈ w, p c = false) ↔ w.all (fun c => !p c) = true := by
  simp

theorem word_iff_all {p : α → Bool} : Word p w ↔ w.isEmpty = false ∧ w.all (fun c => !p c) = true := by
  rw [Word, free_iff_all, isEmpty_eq_false_iff]

/-- Words joined by single separators are read back. -/
theorem fields_intercalate (hc : p c = true) {ws : List (List α)} (h : ∀ w ∈ ws, Word p w) : fields p ([c].intercalate ws) = ws := by
  induction ws with
  | nil => simp
  | cons w ws ih =>
    have hw := h w (by simp)
    cases ws with
    | nil => simpa using fields_word hw.1 hw.2
    | cons v ws =>
      rw [intercalate_cons_cons, append_assoc, singleton_append, fields_word_sep hw.1 hw.2 hc,
        ih (fun u hu => h u (by simp [hu]))]

/-- What occurs in words joined by separators is a separator or occurs in a word. -/
theorem mem_intercalate {x : α} {ws : List (List α)} (h : x ∈ [c].intercalate ws) : x = c ∨ ∃ w ∈ ws, x ∈ w := by
  induction ws with
  | nil => simp at h
  | cons w ws ih =>
    cases ws with
    | nil => exact Or.inr ⟨w, by simp, by simpa using h⟩
    | cons v ws =>
      rw [intercalate_cons_cons, append_assoc, mem_append, singleton_append, mem_cons] at h
      rcases h with h | h | h
      · exact Or.inr ⟨w, by simp, h⟩
      · exact Or.inl h
      · rcases ih h with h | ⟨u, hu, hx⟩
        · exact Or.inl h
        · exact Or.inr ⟨u, by simp [hu], hx⟩

theorem splitOnP_word_mem {l : List α} : ∀ w ∈ l.splitOnP p, ∀ c ∈ w, p c = false := by
  induction l with
  | nil =>
    intro w hw c hc
    simp only [splitOnP_nil, mem_singleton] at hw
    subst hw
    cases hc
  | cons a l ih =>
    intro w hw c hc
    rw [splitOnP_cons_eq_if_modifyHead] at hw
    split at hw
    · rcases mem_cons.mp hw with rfl | hw
      · cases hc
      · exact ih w hw c hc
    · rename_i ha
      cases hs : l.splitOnP p with
      | nil => exact absurd hs (splitOnP_ne_nil p l)
      | cons v vs =>
        rw [hs] at hw ih
        simp only [modifyHead_cons, mem_cons] at hw
        rcases hw with rfl | hw
        · rcases mem_cons.mp hc with rfl | hc
          · simpa using ha
          · exact ih v (by simp) c hc
        · exact ih w (by simp [hw]) c hc

/-! ## Lines -/

/-- Pieces before the last are lines with a line break. -/
theorem closeLines_append (a : List (List α)) {b : List (List α)} (hb : b ≠ []) : closeLines f (a ++ b) = a.map f ++ closeLines f b := by
  induction a with
  | nil => rfl
  | cons w a ih =>
    obtain ⟨v, vs, hv⟩ : ∃ v vs, a ++ b = v :: vs := exists_cons_of_ne_nil (by simp [hb])
    rw [cons_append, hv, closeLines, ← hv, ih]
    rfl

@[simp] theorem lines_nil : lines f p ([] : List α) = [] := rfl

/-- A separator ends the pieces before it; the lines after it follow. -/
theorem lines_append_sep (a b : List α) (hc : p c = true) : lines f p (a ++ c :: b) = (a.splitOnP p).map f ++ lines f p b := by
  unfold lines
  rw [splitOnP_append_cons a b hc, closeLines_append _ (splitOnP_ne_nil p b)]

/-- A line without a separator, a separator and the rest. -/
theorem lines_word_sep (hw : ∀ c ∈ w, p c = false) (hc : p c = true) (b : List α) : lines f p (w ++ c :: b) = f w :: lines f p b := by
  rw [lines_append_sep w b hc, splitOnP_eq_singleton hw]
  rfl

/-- Lines that hold no separator, each ended by one, are read back. -/
theorem lines_flatMap (hc : p c = true) {ls : List (List α)} (h : ∀ w ∈ ls, ∀ x ∈ w, p x = false) :
    lines f p (ls.flatMap (fun w => w ++ [c])) = ls.map f := by
  induction ls with
  | nil => rfl
  | cons w ls ih =>
    rw [flatMap_cons, append_assoc, singleton_append, lines_word_sep (h w (by simp)) hc,
      ih (fun v hv => h v (by simp [hv])), map_cons]

/-! ## A text around another -/

/-- The pieces of a text with something put before its first piece and something after its last. -/
def glue (a b : List α) : List (List α) → List (List α)
  | [] => []
  | [q] => [a ++ q ++ b]
  | q :: r :: rs => (a ++ q) :: glue [] b (r :: rs)

@[simp] theorem glue_singleton (a b q : List α) : glue a b [q] = [a ++ q ++ b] := rfl

/-- The first piece takes what stands before, the last what stands after, and the others stay. -/
theorem glue_cons_append (a b q l : List α) (mids : List (List α)) : glue a b (q :: (mids ++ [l])) = (a ++ q) :: (mids ++ [l ++ b]) := by
  induction mids generalizing a q with
  | nil => simp [glue]
  | cons m mids ih =>
    rw [cons_append, glue, ih]
    simp

theorem glue_cons_head (a b q : List α) (c : α) (qs : List (List α)) : glue (a ++ [c]) b (q :: qs) = glue a b ((c :: q) :: qs) := by
  cases qs <;> simp [glue]

/-- Text without a separator before and after another joins the first and the last piece. -/
theorem splitOnP_surround {b : List α} (hb : ∀ c ∈ b, p c = false) (l : List α) :
    ∀ a : List α, (∀ c ∈ a, p c = false) → (a ++ l ++ b).splitOnP p = glue a b (l.splitOnP p) := by
  induction l with
  | nil =>
    intro a ha
    rw [append_nil, splitOnP_nil, splitOnP_eq_singleton]
    · simp
    · intro c hc
      exact (mem_append.mp hc).elim (ha c) (hb c)
  | cons c l ih =>
    intro a ha
    obtain ⟨q, qs, hq⟩ := exists_cons_of_ne_nil (splitOnP_ne_nil p l)
    rw [splitOnP_cons_eq_if_modifyHead]
    cases hc : p c with
    | true =>
      have := ih [] (by simp)
      rw [append_assoc, cons_append, splitOnP_append_cons _ _ hc, splitOnP_eq_singleton ha,
        ← nil_append (l ++ b), ← append_assoc, this, hq]
      simp [glue]
    | false =>
      have hac : ∀ d ∈ a ++ [c], p d = false := by
        intro d hd
        rcases mem_append.mp hd with hd | hd
        · exact ha d hd
        · rw [mem_singleton.mp hd]
          exact hc
      have := ih (a ++ [c]) hac
      rw [hq, glue_cons_head] at this
      simp only [Bool.false_eq_true, if_false, hq, modifyHead_cons]
      rw [← this]
      simp

end Fields
