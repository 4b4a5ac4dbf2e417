import EbpfSyscall.Kvio.S3Capture
import EbpfSyscall.Lib.Fields

/-!
# Renamed components

The tables of a recording give different components after the same prefix different names and never change one, so the renaming of a list
of components is one-to-one and keeps prefixes of lists. For keys without empty components this is the structure of the texts.
-/

namespace EbpfSyscall.Kvio

namespace S3NamesAux

open RecordingS3 List Option Assoc

/-! ## Joined texts -/

variable {part : Text} {dirs : List Text} {name : Text} {s : RecordingS3}

theorem joinSlash_cons {rest : List Text} (h : rest ≠ []) : joinSlash (part :: rest) = part ++ '/' :: joinSlash rest := by
  cases rest with
  | nil => exact absurd rfl h
  | cons next rest =>
    rw [joinSlash, intercalate_cons_cons, append_assoc]
    rfl

theorem joinSlash_cons_concat (part : Text) (rest : List Text) (base : Text) :
    joinSlash (part :: rest ++ [base]) = part ++ '/' :: joinSlash (rest ++ [base]) := joinSlash_cons (by simp)

theorem joinSlash_concat (h : dirs ≠ []) (base : Text) : joinSlash (dirs ++ [base]) = joinSlash dirs ++ '/' :: base := by
  induction dirs with
  | nil => exact absurd rfl h
  | cons dir dirs ih =>
    rw [joinSlash_cons_concat]
    cases dirs with
    | nil => rw [nil_append, joinSlash, joinSlash, intercalate_singleton, intercalate_singleton]
    | cons next dirs => rw [ih (cons_ne_nil _ _), joinSlash_cons (cons_ne_nil _ _), append_assoc, cons_append]

/-- A text is joined from its pieces in one way. -/
theorem joinSlash_injective {parts parts' : List Text} (hparts : parts ≠ []) (hparts' : parts' ≠ []) (h : ∀ part ∈ parts, '/' ∉ part)
    (h' : ∀ part ∈ parts', '/' ∉ part) (heq : joinSlash parts = joinSlash parts') : parts = parts' := by
  rw [← splitOn_intercalate '/' h hparts, ← splitOn_intercalate '/' h' hparts']
  exact congrArg (splitOn '/') heq

/-- The first slash of a text. -/
theorem append_slash_inj {a b x y : Text} (ha : '/' ∉ a) (hb : '/' ∉ b) (h : a ++ '/' :: x = b ++ '/' :: y) : a = b ∧ x = y := by
  induction a generalizing b with
  | nil =>
    cases b with
    | nil => exact ⟨rfl, (cons.inj h).2⟩
    | cons c b => exact absurd (cons.inj h).1 (fun heq => hb (heq ▸ mem_cons_self))
  | cons c a ih =>
    cases b with
    | nil => exact absurd (cons.inj h).1 (fun heq => ha (heq ▸ mem_cons_self))
    | cons d b =>
      obtain ⟨rfl, hrest⟩ := cons.inj h
      obtain ⟨rfl, hxy⟩ := ih (fun hin => ha (mem_cons_of_mem _ hin)) (fun hin => hb (mem_cons_of_mem _ hin)) hrest
      exact ⟨rfl, hxy⟩

/-- A text that ends in a slash is a prefix of another exactly if its pieces are the first pieces of the other. -/
theorem joinSlash_prefix_iff {dirs' : List Text} {base : Text} (h : ∀ dir ∈ dirs, '/' ∉ dir) (h' : ∀ dir ∈ dirs', '/' ∉ dir)
    (hbase : '/' ∉ base) : joinSlash (dirs ++ [[]]) <+: joinSlash (dirs' ++ [base]) ↔ dirs <+: dirs' := by
  induction dirs generalizing dirs' with
  | nil => exact ⟨fun _ => nil_prefix, fun _ => nil_prefix⟩
  | cons dir dirs ih =>
    rw [joinSlash_cons_concat]
    cases dirs' with
    | nil =>
      refine ⟨fun hfirst => ?_, fun hfirst => ?_⟩
      · have hin : '/' ∈ joinSlash ([] ++ [base]) := hfirst.subset (by simp)
        rw [nil_append, joinSlash, intercalate_singleton] at hin
        exact absurd hin hbase
      · cases prefix_nil.mp hfirst
    | cons dir' dirs' =>
      rw [joinSlash_cons_concat, cons_prefix_cons]
      have hdir := h dir mem_cons_self
      have hdir' := h' dir' mem_cons_self
      have hrest := ih (fun d hd => h d (mem_cons_of_mem _ hd)) (fun d hd => h' d (mem_cons_of_mem _ hd))
      constructor
      · rintro ⟨tail, htail⟩
        rw [append_assoc, cons_append] at htail
        obtain ⟨rfl, hsame⟩ := append_slash_inj hdir hdir' htail
        exact ⟨rfl, hrest.mp ⟨tail, hsame⟩⟩
      · rintro ⟨rfl, hfirst⟩
        obtain ⟨tail, htail⟩ := hrest.mpr hfirst
        exact ⟨tail, by rw [append_assoc, cons_append, htail]⟩

/-! ## Tables -/

/-- The names of a table are numbered and belong to one component each. -/
structure Numbered (table : Assoc Text Text) : Prop where
  below : ∀ part name, table.get part = some name → ∃ i < table.entries.length, name = 'k' :: Decimal.print i
  injective : ∀ part part' name, table.get part = some name → table.get part' = some name → part = part'

theorem numbered_empty : Numbered .empty := ⟨nofun, nofun⟩

theorem length_set_of_get_none {table : Assoc Text Text} (h : table.get part = none) (name : Text) :
    (table.set part name).entries.length = table.entries.length + 1 := by
  have hkeys := congrArg List.length (table.keys_set part name)
  rw [if_neg (Assoc.get_eq_none_iff.mp h)] at hkeys
  simpa [Assoc.keys] using hkeys

theorem component_spec {table : Assoc Text Text} (h : Numbered table) (part : Text) : Numbered (component table part).2 ∧
    (component table part).2.get part = some (component table part).1 ∧
      ∀ other name, table.get other = some name → (component table part).2.get other = some name := by
  rw [component]
  cases hget : table.get part with
  | some name => exact ⟨h, hget, fun _ _ hother => hother⟩
  | none =>
    have hlength := length_set_of_get_none hget ('k' :: Decimal.print table.entries.length)
    have hkept : ∀ other name, table.get other = some name →
        (table.set part ('k' :: Decimal.print table.entries.length)).get other = some name := by
      intro other name hother
      rw [get_set_of_ne _ (fun heq => by rw [heq, hget] at hother; cases hother)]
      exact hother
    -- The new name has a number that no other name of the table has.
    have hnew : ∀ other, table.get other ≠ some ('k' :: Decimal.print table.entries.length) := by
      intro other hother
      obtain ⟨i, hi, hname⟩ := h.below _ _ hother
      exact absurd (Decimal.print_injective (cons.inj hname).2) (Nat.ne_of_gt hi)
    refine ⟨⟨?_, ?_⟩, get_set_self _ _ _, hkept⟩
    · intro other name hother
      rw [get_set] at hother
      split at hother
      · cases hother
        exact ⟨table.entries.length, by rw [hlength]; exact Nat.lt_succ_self _, rfl⟩
      · obtain ⟨i, hi, hname⟩ := h.below _ _ hother
        exact ⟨i, by rw [hlength]; exact Nat.lt_succ_of_lt hi, hname⟩
    · intro other other' name hother hother'
      rw [get_set] at hother hother'
      split at hother <;> split at hother'
      · rename_i heq heq'
        exact heq.trans heq'.symm
      · cases hother
        exact absurd hother' (hnew other')
      · cases hother'
        exact absurd hother (hnew other)
      · exact h.injective _ _ _ hother hother'

/-- The name of a component after these parts. -/
def nameOf (components : Components) (front : List Text) (part : Text) : Option Text :=
  (components.get (joinSlash front)).bind fun table => table.get part

/-- All tables are numbered. -/
def AllNumbered (components : Components) : Prop := ∀ joined table, components.get joined = some table → Numbered table

/-- Names are kept. -/
def Keeps (components components' : Components) : Prop :=
  ∀ front part name, nameOf components front part = some name → nameOf components' front part = some name

/-- The parts after `front` have these names. -/
inductive Renamed (components : Components) : List Text → List Text → List Text → Prop where
  | nil {front : List Text} : Renamed components front [] []
  | cons {front : List Text} {part : Text} {rest : List Text} {name : Text} {names : List Text}
      (hname : nameOf components front part = some name) (hrest : Renamed components (front ++ [part]) rest names) :
      Renamed components front (part :: rest) (name :: names)

variable {components components' : Components} {front parts parts' names names' : List Text}

theorem Renamed.mono (hkeeps : Keeps components components') (h : Renamed components front parts names) : Renamed components' front parts names := by
  induction h with
  | nil => exact .nil
  | cons hname _ ih => exact .cons (hkeeps _ _ _ hname) ih

/-- What one component does to the tables. -/
theorem component_step (h : AllNumbered components) (front : List Text) (part : Text) :
    let named := component ((components.get (joinSlash front)).getD .empty) part
    AllNumbered (components.set (joinSlash front) named.2) ∧ Keeps components (components.set (joinSlash front) named.2) ∧
      nameOf (components.set (joinSlash front) named.2) front part = some named.1 := by
  have hnumbered : Numbered ((components.get (joinSlash front)).getD .empty) := by
    cases hget : components.get (joinSlash front) with
    | none => exact numbered_empty
    | some table => exact h _ _ hget
  obtain ⟨hnext, hself, hkept⟩ := component_spec hnumbered part
  refine ⟨?_, ?_, ?_⟩
  · intro joined table hget
    rw [get_set] at hget
    split at hget
    · cases hget
      exact hnext
    · exact h _ _ hget
  · intro front' part' name hname
    rw [nameOf] at hname ⊢
    by_cases heq : joinSlash front' = joinSlash front
    · rw [heq] at hname ⊢
      rw [get_set_self, bind_some]
      obtain ⟨table, htable, hin⟩ := bind_eq_some_iff.mp hname
      exact hkept _ _ (by rw [htable]; exact hin)
    · rwa [get_set_of_ne _ heq]
  · rw [nameOf, get_set_self, bind_some]
    exact hself

theorem walk_spec (h : AllNumbered components) (front parts : List Text) : AllNumbered (walk components front parts).2 ∧
    Keeps components (walk components front parts).2 ∧
      Renamed (walk components front parts).2 front parts (walk components front parts).1 := by
  induction parts generalizing components front with
  | nil => exact ⟨h, fun _ _ _ hname => hname, .nil⟩
  | cons part rest ih =>
    obtain ⟨hnumbered, hkeeps, hname⟩ := component_step h front part
    obtain ⟨hnumbered', hkeeps', hrenamed⟩ := ih hnumbered (front ++ [part])
    exact ⟨hnumbered', fun _ _ _ hold => hkeeps' _ _ _ (hkeeps _ _ _ hold), .cons (hkeeps' _ _ _ hname) hrenamed⟩

/-- Two names after the same parts are from the same table. -/
theorem name_eq_iff (h : AllNumbered components) {part' name' : Text} (hname : nameOf components front part = some name)
    (hname' : nameOf components front part' = some name') : name = name' ↔ part = part' := by
  constructor
  · rintro rfl
    obtain ⟨table, htable, hin⟩ := bind_eq_some_iff.mp hname
    obtain ⟨table', htable', hin'⟩ := bind_eq_some_iff.mp hname'
    obtain rfl := some.inj (htable.symm.trans htable')
    exact (h _ _ htable).injective _ _ _ hin hin'
  · rintro rfl
    exact some.inj (hname.symm.trans hname')

/-- A name has no slash and is not empty. -/
theorem name_ne (h : AllNumbered components) (hname : nameOf components front part = some name) : '/' ∉ name ∧ name ≠ [] := by
  obtain ⟨table, htable, hget⟩ := bind_eq_some_iff.mp hname
  obtain ⟨i, -, rfl⟩ := (h _ _ htable).below _ _ hget
  refine ⟨?_, cons_ne_nil _ _⟩
  rw [mem_cons, not_or]
  exact ⟨by decide, fun hdigit => absurd (Decimal.isDigit_of_mem_print hdigit) (by decide)⟩

/-- Renaming keeps which list is a prefix of which. -/
theorem Renamed.prefix_iff (h : AllNumbered components) (hnames : Renamed components front parts names)
    (hnames' : Renamed components front parts' names') : names <+: names' ↔ parts <+: parts' := by
  induction hnames generalizing parts' names' with
  | nil => exact ⟨fun _ => nil_prefix, fun _ => nil_prefix⟩
  | cons hname hrest ih =>
    cases hnames' with
    | nil => simp
    | cons hname' hrest' =>
      rw [cons_prefix_cons, cons_prefix_cons, name_eq_iff h hname hname']
      refine and_congr_right fun heq => ?_
      subst heq
      exact ih hrest'

theorem Renamed.eq_iff (h : AllNumbered components) (hnames : Renamed components front parts names)
    (hnames' : Renamed components front parts' names') : names = names' ↔ parts = parts' := by
  induction hnames generalizing parts' names' with
  | nil => cases hnames' <;> simp
  | cons hname hrest ih =>
    cases hnames' with
    | nil => simp
    | cons hname' hrest' =>
      rw [cons.injEq, cons.injEq, name_eq_iff h hname hname']
      refine and_congr_right fun heq => ?_
      subst heq
      exact ih hrest'

theorem Renamed.names_ne (h : AllNumbered components) (hnames : Renamed components front parts names) : ∀ name ∈ names, '/' ∉ name ∧ name ≠ [] := by
  induction hnames with
  | nil => exact fun _ hin => by cases hin
  | cons hname _ ih =>
    intro other hin
    rcases mem_cons.mp hin with rfl | hin
    · exact name_ne h hname
    · exact ih other hin

/-- The last part and its name. -/
theorem Renamed.of_concat (h : Renamed components front (parts ++ [part]) names) : ∃ names' name,
    names = names' ++ [name] ∧ Renamed components front parts names' ∧ nameOf components (front ++ parts) part = some name := by
  induction parts generalizing front names with
  | nil =>
    cases h with
    | cons hname hrest =>
      cases hrest
      exact ⟨[], _, rfl, .nil, by rwa [append_nil]⟩
  | cons first rest ih =>
    cases h with
    | cons hname hrest =>
      obtain ⟨names', name, rfl, hnames', hlast⟩ := ih hrest
      exact ⟨_ :: names', name, rfl, .cons hname hnames', by rwa [append_cons]⟩

/-! ## Recordings -/

/-- This is what the tables record for a text. -/
def Recorded (components : Components) (real name : Text) : Prop :=
  ∃ names, Renamed components [] (partsOf real) names ∧ name = joinSlash names ++ trailing real

theorem Recorded.mono (hkeeps : Keeps components components') {real : Text} (h : Recorded components real name) : Recorded components' real name := by
  obtain ⟨names, hnames, hname⟩ := h
  exact ⟨names, hnames.mono hkeeps, hname⟩

/-- What holds of the tables of a recording. -/
structure NamesInv (s : RecordingS3) : Prop where
  numbered : AllNumbered s.components
  recorded : ∀ real name, s.keys.get real = some name → Recorded s.components real name

theorem namesInv_new : NamesInv {} := ⟨fun _ _ h => (by cases h), fun _ _ h => (by cases h)⟩

theorem key_spec (h : NamesInv s) (real : Text) : NamesInv (s.key real).2 ∧
    Keeps s.components (s.key real).2.components ∧ Recorded (s.key real).2.components real (s.key real).1 := by
  rw [key]
  cases hget : s.keys.get real with
  | some name => exact ⟨h, fun _ _ _ hname => hname, h.recorded _ _ hget⟩
  | none =>
    obtain ⟨hnumbered, hkeeps, hrenamed⟩ := walk_spec h.numbered [] (partsOf real)
    have hself : Recorded (walk s.components [] (partsOf real)).2 real
        (joinSlash (walk s.components [] (partsOf real)).1 ++ trailing real) := ⟨_, hrenamed, rfl⟩
    refine ⟨⟨hnumbered, fun other name hother => ?_⟩, hkeeps, hself⟩
    rw [get_set] at hother
    split at hother
    · rename_i heq
      cases hother
      rw [heq]
      exact hself
    · exact (h.recorded _ _ hother).mono hkeeps

/-- The text of a use. -/
def realOf : Use → Text
  | .key real => real
  | .list real => real

theorem record_spec (h : NamesInv s) (use : Use) : NamesInv (s.record use).2 ∧
    Keeps s.components (s.record use).2.components ∧ Recorded (s.record use).2.components (realOf use) (s.record use).1 := by
  cases use with
  | key real => exact key_spec h real
  | list real =>
    rw [record]
    split
    · rename_i heq
      subst heq
      exact ⟨h, fun _ _ _ hname => hname, [], .nil, rfl⟩
    · exact key_spec h real

/-- All that is recorded is what the tables record at the end. -/
theorem recordAll_spec (h : NamesInv s) (uses : List Use) : ∃ components, AllNumbered components ∧
    Keeps s.components components ∧ ∀ entry ∈ s.recordAll uses, Recorded components (realOf entry.1) entry.2 := by
  induction uses generalizing s with
  | nil => exact ⟨s.components, h.numbered, fun _ _ _ hname => hname, fun _ hin => by cases hin⟩
  | cons use rest ih =>
    obtain ⟨hnext, hkeeps, hrecorded⟩ := record_spec h use
    obtain ⟨components, hnumbered, hkeeps', hall⟩ := ih hnext
    refine ⟨components, hnumbered, fun _ _ _ hname => hkeeps' _ _ _ (hkeeps _ _ _ hname), fun entry hin => ?_⟩
    rcases mem_cons.mp hin with rfl | hin
    · exact hrecorded.mono hkeeps'
    · exact hall entry hin

/-! ## Texts without empty components -/

/-- All pieces but the last, which is empty for a text that ends in a slash, are not empty. -/
def Clean (real : Text) : Prop := ∀ piece ∈ (real.splitOn '/').dropLast, piece ≠ []

instance (real : Text) : Decidable (Clean real) := inferInstanceAs (Decidable (∀ piece ∈ _, _))

/-- A text ends in a slash if its base is empty and it is not. -/
theorem trailing_eq {base : Text} (hbase : '/' ∉ base) : trailing (joinSlash (dirs ++ [base])) = if base = [] ∧ dirs ≠ [] then ['/'] else [] := by
  have hbaseLast : base.getLast? ≠ some '/' := fun hlast => hbase (mem_of_getLast? hlast)
  rw [trailing]
  by_cases hnil : dirs = []
  · subst hnil
    rw [nil_append, joinSlash, intercalate_singleton, if_neg hbaseLast, if_neg (by simp)]
  · rw [joinSlash_concat hnil]
    by_cases hempty : base = []
    · subst hempty
      rw [if_pos (by simp), if_pos ⟨rfl, hnil⟩]
    · obtain ⟨c, rest, rfl⟩ := exists_cons_of_ne_nil hempty
      rw [if_neg (by rwa [getLast?_append_cons, getLast?_cons_cons]), if_neg (by simp)]

/-- The directories and the base of a text, and of what is recorded for it. -/
theorem Recorded.of_clean (h : AllNumbered components) {real : Text} (hclean : Clean real) (hrecorded : Recorded components real name) :
    ∃ dirs base names last, real = joinSlash (dirs ++ [base]) ∧ (∀ dir ∈ dirs, '/' ∉ dir) ∧ '/' ∉ base ∧
      name = joinSlash (names ++ [last]) ∧ Renamed components [] dirs names ∧ '/' ∉ last ∧
      (base = [] ∧ last = [] ∨ base ≠ [] ∧ nameOf components dirs base = some last) := by
  obtain ⟨names, hnames, rfl⟩ := hrecorded
  obtain ⟨dirs, base, hpieces⟩ : ∃ dirs base, real.splitOn '/' = dirs ++ [base] :=
    ⟨_, _, (dropLast_append_getLast (splitOn_ne_nil '/' real)).symm⟩
  have hreal : real = joinSlash (dirs ++ [base]) := by
    rw [← hpieces]
    exact (intercalate_splitOn '/').symm
  have hslash : ∀ piece ∈ dirs ++ [base], '/' ∉ piece := by
    rw [← hpieces]
    exact fun piece hpiece hin => absurd (Fields.splitOnP_word_mem piece hpiece '/' hin) (by decide)
  have hdirs : ∀ dir ∈ dirs, dir ≠ [] := by
    rw [Clean, hpieces, dropLast_concat] at hclean
    exact hclean
  have hparts : partsOf real = dirs ++ if base = [] then [] else [base] := by
    rw [partsOf, hpieces, filter_append, filter_eq_self.mpr (by simpa using hdirs)]
    split <;> simp [*]
  have hbase : '/' ∉ base := hslash base (by simp)
  have hlast : trailing real = if base = [] ∧ dirs ≠ [] then ['/'] else [] := by
    rw [hreal]
    exact trailing_eq hbase
  rw [hparts] at hnames
  refine ⟨dirs, base, ?_⟩
  by_cases hempty : base = []
  · rw [if_pos hempty, append_nil] at hnames
    refine ⟨names, [], hreal, fun dir hdir => hslash dir (by simp [hdir]), hbase, ?_, hnames, not_mem_nil, Or.inl ⟨hempty, rfl⟩⟩
    rw [hlast]
    cases hnames with
    | nil => simp [joinSlash]
    | cons hname hrest => rw [if_pos ⟨hempty, cons_ne_nil _ _⟩, joinSlash_concat (cons_ne_nil _ _)]
  · rw [if_neg hempty] at hnames
    obtain ⟨names', last, rfl, hnames', hname⟩ := hnames.of_concat
    refine ⟨names', last, hreal, fun dir hdir => hslash dir (by simp [hdir]), hbase, ?_, hnames', (name_ne h hname).1,
      Or.inr ⟨hempty, hname⟩⟩
    rw [hlast, if_neg (by simp [hempty]), append_nil]

end S3NamesAux

end EbpfSyscall.Kvio
