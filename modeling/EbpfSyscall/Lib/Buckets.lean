import EbpfSyscall.Lib.Assoc

/-!
# Tables of lists

A dict whose values are lists that are appended to and taken away as a whole, as a Python `defaultdict(list)`. What the table holds is
the contents of all its lists; going through the keys in any order gives them up to their order, and those of one key in theirs.
-/

namespace Buckets

open List Assoc

variable {κ α : Type} [DecidableEq κ]

/-- The list of a key. -/
def bucket (d : Assoc κ (List α)) (k : κ) : List α := (d.get k).getD []

/-- `d[k].append(x)`. -/
def push (d : Assoc κ (List α)) (k : κ) (x : α) : Assoc κ (List α) := d.set k (bucket d k ++ [x])

/-- Everything that the table holds. -/
def contents (d : Assoc κ (List α)) : List α := d.entries.flatMap Prod.snd

/-- The lists one after the other, by their keys. -/
def sweep (le : κ → κ → Bool) (d : Assoc κ (List α)) : List α :=
  (d.entries.insertionSort fun a b => le a.1 b.1).flatMap Prod.snd

variable (d : Assoc κ (List α)) (k l : κ) (x : α)

@[simp] theorem bucket_empty : bucket (Assoc.empty : Assoc κ (List α)) k = [] := rfl

theorem bucket_push : bucket (push d k x) l = if l = k then bucket d k ++ [x] else bucket d l := by
  rw [push, bucket, get_set]
  split
  · rfl
  · rfl

theorem bucket_erase : bucket (d.erase k) l = if l = k then [] else bucket d l := by
  rw [bucket, get_erase]
  split
  · rfl
  · rfl

/-- The list of a key among the entries. -/
theorem flatMap_filter_eq {entries : List (κ × List α)} (hnodup : (entries.map Prod.fst).Nodup) :
    (entries.filter fun entry => entry.1 = k).flatMap Prod.snd = (entries.lookup k).getD [] := by
  induction entries with
  | nil => rfl
  | cons entry rest ih =>
    obtain ⟨key, items⟩ := entry
    rw [map_cons, nodup_cons] at hnodup
    by_cases h : key = k
    · subst h
      have hnone : rest.filter (fun entry => entry.1 = key) = [] := by
        refine filter_eq_nil_iff.mpr fun entry hentry heq => ?_
        exact hnodup.1 (mem_map.mpr ⟨entry, hentry, of_decide_eq_true heq⟩)
      rw [filter_cons_of_pos (by simp), hnone]
      simp
    · rw [filter_cons_of_neg (by simpa using h), ih hnodup.2, lookup_cons_of_ne (Ne.symm h)]

/-- Taking a list away leaves the rest. -/
theorem contents_erase : (contents d).Perm (bucket d k ++ contents (d.erase k)) := by
  have hsplit := (filter_append_perm (fun entry : κ × List α => decide (entry.1 = k)) d.entries).flatMap_right Prod.snd
  rw [flatMap_append, flatMap_filter_eq k d.nodup] at hsplit
  refine hsplit.symm.trans (Perm.append_left _ ?_)
  rw [contents, Assoc.erase]
  simp only [decide_not, Perm.refl]

/-- Setting an entry changes nothing of the others. -/
theorem filter_setEntry (items : List α) (entries : List (κ × List α)) :
    (Assoc.setEntry k items entries).filter (fun entry => entry.1 ≠ k) = entries.filter fun entry => entry.1 ≠ k := by
  induction entries with
  | nil => simp [setEntry]
  | cons entry rest ih =>
    obtain ⟨key, old⟩ := entry
    by_cases h : key = k
    · subst h
      simp [setEntry]
    · rw [setEntry, if_neg h, filter_cons_of_pos (by simpa using h), filter_cons_of_pos (by simpa using h), ih]

/-- One more item. -/
theorem contents_push : (contents (push d k x)).Perm (contents d ++ [x]) := by
  have hpush := contents_erase (push d k x) k
  have hold := contents_erase d k
  have hsame : contents ((push d k x).erase k) = contents (d.erase k) := by
    rw [contents, contents, push, Assoc.erase, Assoc.erase, Assoc.set]
    exact congrArg _ (filter_setEntry k _ d.entries)
  rw [bucket_push, if_pos rfl, hsame, append_assoc] at hpush
  refine hpush.trans ((Perm.append_left _ perm_append_comm).trans ?_)
  rw [← append_assoc]
  exact hold.symm.append_right [x]

omit [DecidableEq κ] in
theorem sweep_perm (le : κ → κ → Bool) : (sweep le d).Perm (contents d) :=
  (perm_insertionSort _ d.entries).flatMap_right Prod.snd

/-- What belongs to a key comes in its order. -/
theorem filter_sweep (le : κ → κ → Bool) {p : α → Bool} (hown : ∀ y ∈ bucket d k, p y = true)
    (hothers : ∀ l, l ≠ k → ∀ y ∈ bucket d l, p y = false) : (sweep le d).filter p = bucket d k := by
  have hbucket : ∀ entry ∈ d.entries, entry.2 = bucket d entry.1 := by
    intro entry hentry
    rw [bucket, get_eq_some_iff.mpr hentry]
    rfl
  have hperm := perm_insertionSort (fun a b : κ × List α => le a.1 b.1 = true) d.entries
  have hfilter : ∀ entries : List (κ × List α), (∀ entry ∈ entries, entry ∈ d.entries) →
      (entries.flatMap Prod.snd).filter p = (entries.filter fun entry => entry.1 = k).flatMap Prod.snd := by
    intro entries hentries
    induction entries with
    | nil => rfl
    | cons entry rest ih =>
      rw [forall_mem_cons] at hentries
      rw [flatMap_cons, filter_append, ih hentries.2, hbucket entry hentries.1]
      by_cases h : entry.1 = k
      · rw [filter_cons_of_pos (by simpa using h), flatMap_cons, hbucket entry hentries.1,
          filter_eq_self.mpr (by rw [h]; exact hown)]
      · rw [filter_cons_of_neg (by simpa using h), filter_eq_nil_iff.mpr (fun y hy => by simp [hothers _ h y hy])]
        rfl
  rw [sweep, hfilter _ fun entry hentry => hperm.mem_iff.mp hentry, flatMap_filter_eq k ((hperm.map Prod.fst).nodup_iff.mpr d.nodup)]
  have hnodup := (hperm.map Prod.fst).nodup_iff.mpr d.nodup
  rw [bucket]
  congr 1
  refine Option.ext fun items => ?_
  rw [lookup_eq_some_iff hnodup, hperm.mem_iff, get_eq_some_iff]

end Buckets
