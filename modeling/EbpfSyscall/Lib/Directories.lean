import Mathlib

/-!
# Files and directories as a tree

A name space is a set of files and a set of directories, and every name has a parent; only the root is its own. It is a tree when the parent
of every name but the root is a directory and no name is both a file and a directory. For every edit there is a condition on the
name space before it under which a tree stays one, and there is no weaker one.
-/

namespace Directories

variable {π : Type}

@[ext] structure Space (π : Type) where
  files : Set π
  dirs : Set π

/-- Names with their parents. -/
structure Parents (π : Type) where
  parent : π → π
  root : π
  parent_eq_self : ∀ p, parent p = p ↔ p = root

variable (P : Parents π)

structure IsTree (s : Space π) : Prop where
  file : ∀ p ∈ s.files, P.parent p ∈ s.dirs
  dir : ∀ d ∈ s.dirs, d ≠ P.root → P.parent d ∈ s.dirs
  disjoint : ∀ p ∈ s.files, p ∉ s.dirs

/-- What can be done to a name space. -/
inductive Edit (π : Type) where
  | nothing
  | createFile (p : π)
  | removeFile (p : π)
  | moveFile (src dst : π)
  | createDir (p : π)
  | removeDir (p : π)
  | moveDir (src dst : π)
  deriving DecidableEq, Repr

def Edit.apply : Edit π → Space π → Space π
  | .nothing, s => s
  | .createFile p, s => { s with files := insert p s.files }
  | .removeFile p, s => { s with files := s.files \ {p} }
  | .moveFile src dst, s => { s with files := insert dst (s.files \ {src}) }
  | .createDir p, s => { s with dirs := insert p s.dirs }
  | .removeDir p, s => { s with dirs := s.dirs \ {p} }
  | .moveDir src dst, s => { s with dirs := insert dst (s.dirs \ {src}) }

/-- When the edit can be made: a file or directory is created in a directory, a directory is removed that has no children, and what is
moved is there. -/
def Edit.Possible (s : Space π) : Edit π → Prop
  | .createFile p => P.parent p ∈ s.dirs
  | .createDir p => p ∉ s.files ∧ P.parent p ∈ s.dirs
  | .removeDir p => ∀ q, q ∈ s.files ∨ q ∈ s.dirs ∧ q ≠ P.root → P.parent q ≠ p
  | .moveFile src _ => src ∈ s.files
  | .moveDir src _ => src ∈ s.dirs
  | .nothing | .removeFile _ => True

/-- When the edit keeps a tree: no file takes the name of a directory or leaves the directories; and a directory that moves has no children
and goes to a name in another directory that is not a file. -/
def Edit.Keeps (s : Space π) : Edit π → Prop
  | .createFile p => p ∉ s.dirs
  | .moveFile _ dst => P.parent dst ∈ s.dirs ∧ dst ∉ s.dirs
  | .moveDir src dst => src = dst ∨ (dst ∉ s.files ∧ (dst = P.root ∨ P.parent dst ∈ s.dirs ∧ P.parent dst ≠ src) ∧
    ∀ q, q ∈ s.files ∨ q ∈ s.dirs ∧ q ≠ P.root → P.parent q ≠ src)
  | .nothing | .removeFile _ | .createDir _ | .removeDir _ => True

variable {P} {s : Space π}

theorem isTree_createFile (h : IsTree P s) {p : π} (hparent : P.parent p ∈ s.dirs) : IsTree P ((Edit.createFile p).apply s) ↔ p ∉ s.dirs := by
  constructor
  · intro htree
    exact htree.disjoint p (Set.mem_insert p s.files)
  · intro hp
    refine ⟨fun q hq => ?_, h.dir, fun q hq => ?_⟩
    · rcases hq with rfl | hq
      · exact hparent
      · exact h.file q hq
    · rcases hq with rfl | hq
      · exact hp
      · exact h.disjoint q hq

theorem isTree_removeFile (h : IsTree P s) (p : π) : IsTree P ((Edit.removeFile p).apply s) :=
  ⟨fun q hq => h.file q hq.1, h.dir, fun q hq => h.disjoint q hq.1⟩

theorem isTree_moveFile (h : IsTree P s) (src dst : π) : IsTree P ((Edit.moveFile src dst).apply s) ↔ P.parent dst ∈ s.dirs ∧ dst ∉ s.dirs := by
  constructor
  · intro htree
    have hdst : dst ∈ ((Edit.moveFile src dst).apply s).files := Set.mem_insert dst _
    exact ⟨htree.file dst hdst, htree.disjoint dst hdst⟩
  · rintro ⟨hparent, hdst⟩
    refine ⟨fun q hq => ?_, h.dir, fun q hq => ?_⟩
    · rcases hq with rfl | hq
      · exact hparent
      · exact h.file q hq.1
    · rcases hq with rfl | hq
      · exact hdst
      · exact h.disjoint q hq.1

theorem isTree_createDir (h : IsTree P s) {p : π} (hfile : p ∉ s.files) (hparent : P.parent p ∈ s.dirs) : IsTree P ((Edit.createDir p).apply s) := by
  refine ⟨fun q hq => Set.mem_insert_of_mem p (h.file q hq), fun d hd hroot => ?_, fun q hq => ?_⟩
  · rcases hd with rfl | hd
    · exact Set.mem_insert_of_mem d hparent
    · exact Set.mem_insert_of_mem p (h.dir d hd hroot)
  · rintro (rfl | hd)
    · exact hfile hq
    · exact h.disjoint q hq hd

theorem isTree_removeDir (h : IsTree P s) {p : π} (hchildren : ∀ q, q ∈ s.files ∨ q ∈ s.dirs ∧ q ≠ P.root → P.parent q ≠ p) :
    IsTree P ((Edit.removeDir p).apply s) :=
  ⟨fun q hq => ⟨h.file q hq, hchildren q (Or.inl hq)⟩, fun d hd hroot => ⟨h.dir d hd.1 hroot, hchildren d (Or.inr ⟨hd.1, hroot⟩)⟩,
    fun q hq hd => h.disjoint q hq hd.1⟩

theorem isTree_moveDir (h : IsTree P s) {src dst : π} (hsrc : src ∈ s.dirs) :
    IsTree P ((Edit.moveDir src dst).apply s) ↔ (Edit.moveDir src dst).Keeps P s := by
  by_cases hsame : src = dst
  · subst hsame
    have heq : (Edit.moveDir src src).apply s = s := Space.ext rfl (Set.insert_sdiff_self_of_mem hsrc)
    rw [heq]
    exact iff_of_true h (Or.inl rfl)
  · -- what was a directory and is none any more is the source
    have hgone : src ∉ ((Edit.moveDir src dst).apply s).dirs := fun hmem => by
      rcases hmem with heq | hmem
      · exact hsame heq
      · exact hmem.2 rfl
    constructor
    · intro htree
      have hdst : dst ∈ ((Edit.moveDir src dst).apply s).dirs := Set.mem_insert dst _
      refine Or.inr ⟨fun hfile => htree.disjoint dst hfile hdst, ?_, fun q hq hparent => ?_⟩
      · by_cases hroot : dst = P.root
        · exact Or.inl hroot
        · rcases htree.dir dst hdst hroot with hself | hparent
          · exact absurd ((P.parent_eq_self dst).mp hself) hroot
          · exact Or.inr hparent
      · rcases hq with hfile | ⟨hdir, hroot⟩
        · exact hgone (hparent ▸ htree.file q hfile)
        · have hne : q ≠ src := fun heq => hroot ((P.parent_eq_self q).mp (hparent.trans heq.symm))
          exact hgone (hparent ▸ htree.dir q (Set.mem_insert_of_mem dst ⟨hdir, hne⟩) hroot)
    · rintro (heq | ⟨hdst, hparent, hchildren⟩)
      · exact absurd heq hsame
      · refine ⟨fun q hq => ?_, fun d hd hroot => ?_, fun q hq => ?_⟩
        · exact Set.mem_insert_of_mem dst ⟨h.file q hq, hchildren q (Or.inl hq)⟩
        · rcases hd with rfl | hd
          · exact Set.mem_insert_of_mem d (hparent.resolve_left hroot)
          · exact Set.mem_insert_of_mem dst ⟨h.dir d hd.1 hroot, hchildren d (Or.inr ⟨hd.1, hroot⟩)⟩
        · rintro (rfl | hd)
          · exact hdst hq
          · exact h.disjoint q hq hd.1

/-- An edit keeps a tree exactly when its condition holds. -/
theorem isTree_apply_iff (h : IsTree P s) {edit : Edit π} (hpossible : edit.Possible P s) : IsTree P (edit.apply s) ↔ edit.Keeps P s := by
  cases edit with
  | nothing => exact iff_of_true h trivial
  | createFile p => exact isTree_createFile h hpossible
  | removeFile p => exact iff_of_true (isTree_removeFile h p) trivial
  | moveFile src dst => exact isTree_moveFile h src dst
  | createDir p => exact iff_of_true (isTree_createDir h hpossible.1 hpossible.2) trivial
  | removeDir p => exact iff_of_true (isTree_removeDir h hpossible) trivial
  | moveDir src dst => exact isTree_moveDir h hpossible

end Directories
