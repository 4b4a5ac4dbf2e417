import Mathlib
import EbpfSyscall.Lib.Checked

/-!
# Dicts

A finite map as the list of its entries in the order in which their keys were first set, each key once: what iterating over a Python
`dict` goes through.
-/

/-- A finite map with its keys in order. -/
structure Assoc (κ α : Type) where
  entries : List (κ × α)
  nodup : (entries.map Prod.fst).Nodup
  deriving DecidableEq, Repr

namespace Assoc

open List

variable {κ α : Type} {k l : κ} {d : Assoc κ α}

def empty : Assoc κ α := ⟨[], List.nodup_nil⟩

/-- The keys in order. -/
def keys (d : Assoc κ α) : List κ := d.entries.map Prod.fst

variable [DecidableEq κ]

/-- `d.get(k)`. -/
def get (d : Assoc κ α) (k : κ) : Option α := d.entries.lookup k

/-- The entries after `d[k] = v`: the entry of the key is replaced, or a new one comes last. -/
def setEntry (k : κ) (v : α) : List (κ × α) → List (κ × α)
  | [] => [(k, v)]
  | (l, w) :: rest => if l = k then (k, v) :: rest else (l, w) :: setEntry k v rest

theorem map_fst_setEntry (k : κ) (v : α) (entries : List (κ × α)) : (setEntry k v entries).map Prod.fst =
      if k ∈ entries.map Prod.fst then entries.map Prod.fst else entries.map Prod.fst ++ [k] := by
  induction entries with
  | nil => rfl
  | cons entry rest ih =>
    obtain ⟨l, w⟩ := entry
    by_cases h : l = k
    · subst h
      simp [setEntry]
    · rw [setEntry, if_neg h, map_cons, ih]
      by_cases hin : k ∈ rest.map Prod.fst
      · rw [if_pos hin, if_pos (by simp at hin ⊢; exact Or.inr hin), map_cons]
      · rw [if_neg hin, if_neg (by simp at hin ⊢; exact ⟨fun heq => h heq.symm, hin⟩), map_cons, cons_append]

theorem setEntry_of_notMem {entries : List (κ × α)} (h : k ∉ entries.map Prod.fst) (v : α) : setEntry k v entries = entries ++ [(k, v)] := by
  induction entries with
  | nil => rfl
  | cons entry rest ih =>
    rw [map_cons, mem_cons, not_or] at h
    rw [setEntry, if_neg (Ne.symm h.1), ih h.2, cons_append]

/-- `d[k] = v`. -/
def set (d : Assoc κ α) (k : κ) (v : α) : Assoc κ α where
  entries := setEntry k v d.entries
  nodup := by
    rw [map_fst_setEntry]
    split
    · exact d.nodup
    · rename_i h
      exact List.nodup_append.mpr ⟨d.nodup, List.nodup_singleton k, by
        intro a ha b hb
        rw [List.mem_singleton] at hb
        subst hb
        rintro rfl
        exact h ha⟩

/-- `d.pop(k, None)`. -/
def erase (d : Assoc κ α) (k : κ) : Assoc κ α where
  entries := d.entries.filter (fun entry => entry.1 ≠ k)
  nodup := d.nodup.sublist (List.filter_sublist.map Prod.fst)

/-- A dict from a list of settings. -/
def ofList (settings : List (κ × α)) : Assoc κ α := settings.foldl (fun d setting => d.set setting.1 setting.2) empty

theorem lookup_cons_of_ne (h : k ≠ l) (v : α) (entries : List (κ × α)) : ((l, v) :: entries).lookup k = entries.lookup k := by
  have hne : (k == l) = false := by simp [h]
  rw [lookup_cons, hne]

theorem lookup_setEntry (k l : κ) (v : α) (entries : List (κ × α)) :
    (setEntry k v entries).lookup l = if l = k then some v else entries.lookup l := by
  induction entries with
  | nil =>
    by_cases h : l = k
    · simp [setEntry, h]
    · rw [setEntry, lookup_cons_of_ne h, if_neg h]
  | cons entry rest ih =>
    obtain ⟨m, w⟩ := entry
    by_cases hm : m = k
    · subst hm
      by_cases h : l = m
      · simp [setEntry, h]
      · rw [setEntry, if_pos rfl, lookup_cons_of_ne h, lookup_cons_of_ne h, if_neg h]
    · rw [setEntry, if_neg hm]
      by_cases h : l = m
      · subst h
        simp [hm]
      · rw [lookup_cons_of_ne h, lookup_cons_of_ne h, ih]

@[simp] theorem get_empty (k : κ) : (empty : Assoc κ α).get k = none := rfl

theorem get_set (d : Assoc κ α) (k l : κ) (v : α) : (d.set k v).get l = if l = k then some v else d.get l :=
  lookup_setEntry k l v d.entries

@[simp] theorem get_set_self (d : Assoc κ α) (k : κ) (v : α) : (d.set k v).get k = some v := by rw [get_set, if_pos rfl]

theorem get_set_of_ne (d : Assoc κ α) (h : l ≠ k) (v : α) : (d.set k v).get l = d.get l := by
  rw [get_set, if_neg h]

theorem lookup_filter_ne (k l : κ) (entries : List (κ × α)) :
    (entries.filter (fun entry => entry.1 ≠ k)).lookup l = if l = k then none else entries.lookup l := by
  induction entries with
  | nil => simp
  | cons entry rest ih =>
    obtain ⟨m, w⟩ := entry
    by_cases hm : m = k
    · subst hm
      rw [filter_cons_of_neg (by simp), ih]
      by_cases h : l = m
      · rw [if_pos h, if_pos h]
      · rw [if_neg h, if_neg h, lookup_cons_of_ne h]
    · rw [filter_cons_of_pos (by simpa using hm)]
      by_cases h : l = m
      · subst h
        simp [hm]
      · rw [lookup_cons_of_ne h, lookup_cons_of_ne h, ih]

theorem get_erase (d : Assoc κ α) (k l : κ) : (d.erase k).get l = if l = k then none else d.get l :=
  lookup_filter_ne k l d.entries

theorem keys_set (d : Assoc κ α) (k : κ) (v : α) : (d.set k v).keys = if k ∈ d.keys then d.keys else d.keys ++ [k] :=
  map_fst_setEntry k v d.entries

theorem mem_keys_set {v : α} : l ∈ (d.set k v).keys ↔ l = k ∨ l ∈ d.keys := by
  rw [keys_set]
  split
  · rename_i h
    constructor
    · exact Or.inr
    · rintro (rfl | hl)
      · exact h
      · exact hl
  · rw [mem_append, mem_singleton, or_comm]

theorem lookup_eq_some_iff {entries : List (κ × α)} (hnodup : (entries.map Prod.fst).Nodup) {v : α} :
    entries.lookup k = some v ↔ (k, v) ∈ entries := by
  induction entries with
  | nil => simp
  | cons entry rest ih =>
    obtain ⟨l, w⟩ := entry
    rw [map_cons, nodup_cons] at hnodup
    rw [mem_cons, Prod.mk.injEq]
    by_cases h : k = l
    · subst h
      have hnot : (k, v) ∉ rest := fun hin => hnodup.1 (mem_map.mpr ⟨(k, v), hin, rfl⟩)
      simp [hnot, eq_comm]
    · rw [lookup_cons_of_ne h, ih hnodup.2]
      simp [h]

/-- A key has the value of its entry. -/
theorem get_eq_some_iff {v : α} : d.get k = some v ↔ (k, v) ∈ d.entries :=
  lookup_eq_some_iff d.nodup

theorem mem_keys_iff : k ∈ d.keys ↔ ∃ v, d.get k = some v := by
  rw [keys, mem_map]
  constructor
  · rintro ⟨⟨l, v⟩, hin, rfl⟩
    exact ⟨v, get_eq_some_iff.mpr hin⟩
  · rintro ⟨v, hv⟩
    exact ⟨(k, v), get_eq_some_iff.mp hv, rfl⟩

theorem mem_keys_erase : l ∈ (d.erase k).keys ↔ l ∈ d.keys ∧ l ≠ k := by
  rw [mem_keys_iff, mem_keys_iff, get_erase]
  by_cases h : l = k
  · simp [h]
  · simp [h]

theorem get_eq_none_iff : d.get k = none ↔ k ∉ d.keys := by
  rw [mem_keys_iff, Option.eq_none_iff_forall_ne_some]
  push Not
  rfl

instance (d : Assoc κ α) (k : κ) : Decidable (k ∈ d.keys) := inferInstance

/-- A loop that sets a key for every item: the key of an item has the value of the last item with that key, and other keys keep
theirs. -/
theorem foldlM_set {ε β : Type} (key : β → κ) {value : β → Except ε α} {items : List β} {d' : Assoc κ α}
    (h : items.foldlM (fun d b => value b >>= fun v => pure (d.set (key b) v)) d = .ok d') :
    (∀ b ∈ items, ∃ b' ∈ items, key b' = key b ∧ ∃ v, value b' = .ok v ∧ d'.get (key b) = some v) ∧
      ∀ k, (∀ b ∈ items, key b ≠ k) → d'.get k = d.get k := by
  induction items generalizing d with
  | nil =>
    rw [foldlM_nil, Checked.pure_eq_ok, Except.ok.injEq] at h
    subst h
    exact ⟨fun b hb => (not_mem_nil hb).elim, fun _ _ => rfl⟩
  | cons first rest ih =>
    rw [foldlM_cons, Checked.bind_eq_ok] at h
    obtain ⟨next, hnext, hrest⟩ := h
    obtain ⟨v, hv, heq⟩ := Checked.bind_eq_ok.mp hnext
    rw [Checked.pure_eq_ok, Except.ok.injEq] at heq
    subst heq
    obtain ⟨hset, hkept⟩ := ih hrest
    refine ⟨fun b hb => ?_, fun k hk => ?_⟩
    · by_cases hlater : ∃ b' ∈ rest, key b' = key b
      · obtain ⟨b', hb', hkey⟩ := hlater
        obtain ⟨last, hlast, hlastKey, hvalue⟩ := hset b' hb'
        rw [hkey] at hlastKey hvalue
        exact ⟨last, mem_cons_of_mem _ hlast, hlastKey, hvalue⟩
      · push Not at hlater
        rcases mem_cons.mp hb with rfl | hin
        · exact ⟨b, mem_cons_self, rfl, v, hv, by rw [hkept _ hlater, get_set_self]⟩
        · exact absurd rfl (hlater b hin)
    · rw [hkept k (fun b hb => hk b (mem_cons_of_mem _ hb)), get_set_of_ne _ (Ne.symm (hk first mem_cons_self))]

end Assoc
