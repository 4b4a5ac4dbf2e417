import Mathlib

/-!
# Loading, storing and deleting keys

A sequence of operations on a set of keys: a key that is loaded or deleted must be there, one that is stored must not. The keys of a
cache are kept in a list without repetitions, oldest use first: a use moves a key to the end, and the first one makes room.
-/

namespace Residency

open List

variable {κ : Type} [DecidableEq κ] {keys : Finset κ} {bound : Nat}

inductive KeyAction (κ : Type) where
  | load (key : κ)
  | store (key : κ)
  | delete (key : κ)
  deriving DecidableEq, Repr

/-- The keys after an operation. -/
def apply (keys : Finset κ) : KeyAction κ → Finset κ
  | .load _ => keys
  | .store key => insert key keys
  | .delete key => keys.erase key

/-- The operation finds what it needs. -/
def Allowed (keys : Finset κ) : KeyAction κ → Prop
  | .load key => key ∈ keys
  | .store key => key ∉ keys
  | .delete key => key ∈ keys

instance (keys : Finset κ) (action : KeyAction κ) : Decidable (Allowed keys action) := by
  cases action
  · exact inferInstanceAs (Decidable (_ ∈ keys))
  · exact inferInstanceAs (Decidable (_ ∉ keys))
  · exact inferInstanceAs (Decidable (_ ∈ keys))

def after (keys : Finset κ) (actions : List (KeyAction κ)) : Finset κ := actions.foldl apply keys

/-- Every operation is allowed where it comes. -/
def Legal : Finset κ → List (KeyAction κ) → Prop
  | _, [] => True
  | keys, action :: rest => Allowed keys action ∧ Legal (apply keys action) rest

/-- There are never more keys than the bound. -/
def Within (bound : Nat) : Finset κ → List (KeyAction κ) → Prop
  | keys, [] => keys.card ≤ bound
  | keys, action :: rest => keys.card ≤ bound ∧ Within bound (apply keys action) rest

theorem after_append (keys : Finset κ) (a b : List (KeyAction κ)) : after keys (a ++ b) = after (after keys a) b := foldl_append

theorem legal_append {a b : List (KeyAction κ)} : Legal keys (a ++ b) ↔ Legal keys a ∧ Legal (after keys a) b := by
  induction a generalizing keys with
  | nil => simp [Legal, after]
  | cons action a ih =>
    rw [cons_append, Legal, Legal, ih, and_assoc]
    rfl

theorem Within.start {actions : List (KeyAction κ)} (h : Within bound keys actions) : keys.card ≤ bound := by
  cases actions with
  | nil => exact h
  | cons action rest => exact h.1

theorem within_append {a b : List (KeyAction κ)} : Within bound keys (a ++ b) ↔ Within bound keys a ∧ Within bound (after keys a) b := by
  induction a generalizing keys with
  | nil => exact ⟨fun h => ⟨h.start, h⟩, fun h => h.2⟩
  | cons action a ih =>
    rw [cons_append, Within, Within, ih, and_assoc]
    rfl

theorem Within.mono {larger : Nat} (hle : bound ≤ larger) {actions : List (KeyAction κ)}
    (h : Within bound keys actions) : Within larger keys actions := by
  induction actions generalizing keys with
  | nil => exact Nat.le_trans h hle
  | cons action rest ih => exact ⟨h.1.trans hle, ih h.2⟩

/-! ## The order of use -/

/-- `resident.move_to_end(key)`. -/
def moveToEnd (resident : List κ) (key : κ) : List κ := resident.erase key ++ [key]

theorem moveToEnd_perm {resident : List κ} {key : κ} (h : key ∈ resident) : (moveToEnd resident key).Perm resident :=
  (perm_append_singleton key (resident.erase key)).trans (perm_cons_erase h).symm

/-- `resident[key] = None`: a key that is there stays where it is. -/
def setKey (resident : List κ) (key : κ) : List κ := if key ∈ resident then resident else resident ++ [key]

theorem toFinset_setKey (resident : List κ) (key : κ) : (setKey resident key).toFinset = insert key resident.toFinset := by
  unfold setKey
  split
  · rename_i h
    rw [Finset.insert_eq_of_mem (mem_toFinset.mpr h)]
  · rw [toFinset_append, toFinset_cons, toFinset_nil, LawfulSingleton.insert_empty_eq, Finset.union_comm,
      Finset.insert_eq]

theorem nodup_setKey {resident : List κ} (h : resident.Nodup) (key : κ) : (setKey resident key).Nodup := by
  unfold setKey
  split
  · exact h
  · rename_i hnot
    exact Nodup.append h (nodup_singleton key) (disjoint_singleton.mpr hnot)

end Residency
