import EbpfSyscall.Lemmas.S3Names

/-!
# Keys and list prefixes of an S3 capture

The synthetic keys have one component for each component of the key that is not empty, and a prefix is renamed as if it were a key. So the
structure survives for keys without empty components and for prefixes that end in a slash, and for others it need not: `a//b` and `a/b` get
the same name, and a part of a component has nothing to do with the name of the whole.
-/

namespace EbpfSyscall.Kvio

open RecordingS3 S3NamesAux

/-- What is recorded has the structure of what the application used: keys are told apart, a prefix is a prefix of the same keys, and a
list call finds the same keys. -/
structure SameStructure (entries : List (Use × Text)) : Prop where
  distinct : ∀ real name real' name', (.key real, name) ∈ entries → (.key real', name') ∈ entries → real ≠ real' → name ≠ name'
  prefixes : ∀ listed shown real name, (.list listed, shown) ∈ entries → (.key real, name) ∈ entries →
    (shown <+: name ↔ listed <+: real)
  lists : ∀ listed shown (stored : List (Text × Text)), (.list listed, shown) ∈ entries →
    (∀ object ∈ stored, (.key object.1, object.2) ∈ entries) →
    (stored.map Prod.snd).filter (fun name => shown <+: name) = (stored.filter fun object => listed <+: object.1).map Prod.snd

/-- A key without an empty component; a prefix without one that is empty or ends in a slash. -/
def Use.Regular : Use → Prop
  | .key real => Clean real
  | .list real => Clean real ∧ (real = [] ∨ trailing real = ['/'])

namespace S3NamesAux

variable {components : Components}

/-- A regular prefix has no base. -/
theorem base_eq_nil {dirs : List Text} {base : Text} (hbase : '/' ∉ base)
    (h : joinSlash (dirs ++ [base]) = [] ∨ trailing (joinSlash (dirs ++ [base])) = ['/']) : base = [] := by
  rcases h with hempty | htrailing
  · by_cases hnil : dirs = []
    · subst hnil
      rwa [List.nil_append, joinSlash, List.intercalate_singleton] at hempty
    · rw [joinSlash_concat hnil] at hempty
      simp at hempty
  · rw [trailing_eq hbase] at htrailing
    split at htrailing
    · rename_i hboth
      exact hboth.1
    · cases htrailing

theorem recorded_ne (h : AllNumbered components) {real name real' name' : Text} (hclean : Clean real) (hclean' : Clean real')
    (hrecorded : Recorded components real name) (hrecorded' : Recorded components real' name') (hne : real ≠ real') : name ≠ name' := by
  obtain ⟨dirs, base, names, last, rfl, -, -, rfl, hnames, hlast, hbase⟩ := hrecorded.of_clean h hclean
  obtain ⟨dirs', base', names', last', rfl, -, -, rfl, hnames', hlast', hbase'⟩ := hrecorded'.of_clean h hclean'
  intro heq
  have hslash : ∀ {names last}, (∀ name ∈ names, '/' ∉ name ∧ name ≠ []) → '/' ∉ last → ∀ piece ∈ names ++ [last], '/' ∉ piece := by
    intro names last hnames hlast piece hpiece
    rcases List.mem_append.mp hpiece with hin | hin
    · exact (hnames piece hin).1
    · rwa [List.mem_singleton.mp hin]
  have hsame := joinSlash_injective (by simp) (by simp) (hslash (hnames.names_ne h) hlast) (hslash (hnames'.names_ne h) hlast') heq
  obtain ⟨rfl, hlasts⟩ := List.append_inj' hsame rfl
  obtain rfl : last = last' := by simpa using hlasts
  obtain rfl := (hnames.eq_iff h hnames').mp rfl
  refine hne (congrArg (fun base => joinSlash (dirs ++ [base])) ?_)
  rcases hbase with ⟨rfl, hnil⟩ | ⟨-, hname⟩
  · rcases hbase' with ⟨rfl, -⟩ | ⟨-, hname'⟩
    · rfl
    · exact absurd hnil (name_ne h hname').2
  · rcases hbase' with ⟨-, hnil⟩ | ⟨-, hname'⟩
    · exact absurd hnil (name_ne h hname).2
    · exact (name_eq_iff h hname hname').mp rfl

theorem recorded_prefix_iff (h : AllNumbered components) {listed shown real name : Text} (hlisted : (Use.list listed).Regular)
    (hclean : Clean real) (hshown : Recorded components listed shown) (hrecorded : Recorded components real name) :
    shown <+: name ↔ listed <+: real := by
  obtain ⟨dirs, base, names, last, rfl, hdirs, hslash, rfl, hnames, -, hbase⟩ := hshown.of_clean h hlisted.1
  obtain ⟨dirs', base', names', last', rfl, hdirs', hslash', rfl, hnames', hlast', -⟩ := hrecorded.of_clean h hclean
  obtain rfl := base_eq_nil hslash hlisted.2
  obtain rfl : last = [] := by
    rcases hbase with ⟨-, hnil⟩ | ⟨hne, -⟩
    · exact hnil
    · exact absurd rfl hne
  rw [joinSlash_prefix_iff (fun name hin => (hnames.names_ne h name hin).1) (fun name hin => (hnames'.names_ne h name hin).1) hlast',
    joinSlash_prefix_iff hdirs hdirs' hslash', hnames.prefix_iff h hnames']

theorem mem_uses {s : RecordingS3} {uses : List Use} {entry : Use × Text} (h : entry ∈ s.recordAll uses) : entry.1 ∈ uses := by
  induction uses generalizing s with
  | nil => cases h
  | cons use rest ih =>
    rcases List.mem_cons.mp h with rfl | h
    · exact List.mem_cons_self
    · exact List.mem_cons_of_mem _ (ih h)

end S3NamesAux

/-- A capture of regular keys and prefixes keeps their structure, in whatever order they are used. -/
theorem recordAll_sameStructure (uses : List Use) (hregular : ∀ use ∈ uses, use.Regular) : SameStructure (RecordingS3.recordAll {} uses) := by
  obtain ⟨components, hnumbered, -, hall⟩ := recordAll_spec namesInv_new uses
  have hfirst : ∀ listed shown real name, (.list listed, shown) ∈ RecordingS3.recordAll {} uses →
      (.key real, name) ∈ RecordingS3.recordAll {} uses → (shown <+: name ↔ listed <+: real) := fun listed shown real name hlist hkey =>
    recorded_prefix_iff hnumbered (hregular _ (mem_uses hlist)) (hregular _ (mem_uses hkey)) (hall _ hlist) (hall _ hkey)
  refine ⟨?_, hfirst, ?_⟩
  · intro real name real' name' hkey hkey'
    exact recorded_ne hnumbered (hregular _ (mem_uses hkey)) (hregular _ (mem_uses hkey')) (hall _ hkey) (hall _ hkey')
  · intro listed shown stored hlist hstored
    rw [List.filter_map]
    refine congrArg (List.map Prod.snd) (List.filter_congr fun object hobject => ?_)
    exact decide_eq_decide.mpr (hfirst listed shown object.1 object.2 hlist (hstored object hobject))

theorem recordAll_sameStructure_sample :
    SameStructure (RecordingS3.recordAll {} [.key "a/b".toList, .list "a/".toList, .key "a/c/".toList, .list []]) := by
  refine recordAll_sameStructure _ fun use huse => ?_
  fin_cases huse <;> simp only [Use.Regular] <;> decide

/-- Two keys with the same name, and a prefix that is lost. -/
theorem recordAll_loses_structure : ¬SameStructure (RecordingS3.recordAll {} [.key "a//b".toList, .key "a/b".toList]) ∧
      ¬SameStructure (RecordingS3.recordAll {} [.key "ab".toList, .list "a".toList]) := by
  refine ⟨fun h => ?_, fun h => ?_⟩
  · exact h.distinct "a//b".toList "k0/k0".toList "a/b".toList "k0/k0".toList (by decide +kernel) (by decide +kernel) (by decide) rfl
  · have hfirst := h.prefixes "a".toList "k1".toList "ab".toList "k0".toList (by decide +kernel) (by decide +kernel)
    exact absurd (hfirst.mpr (by decide)) (by decide)

end EbpfSyscall.Kvio
