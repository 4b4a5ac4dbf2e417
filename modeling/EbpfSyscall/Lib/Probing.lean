import Mathlib

/-!
# Open addressing with linear probing

A table of `n` slots. The walk of a key starts at the slot of its hash, goes on slot by slot around the table, and stops at the first
slot that is empty or holds the key. Every operation works on the slot where the walk stops (`modify`).

A table in which every walk of a stored key stops at the slot that holds it (`Chained`) behaves as a finite map. Storing keeps this;
emptying a slot keeps it exactly if no walk of another stored key passes the slot (`Passes`).
-/

namespace Probing

open Function Option

variable {n : Nat} {κ ν : Type}

/-- A slot is empty or holds a key with its value. -/
abbrev Table (n : Nat) (κ ν : Type) := Fin n → Option (κ × ν)

/-- The walk of a key stops at this slot. -/
def stops [DecidableEq κ] (t : Table n κ ν) (k : κ) (slot : Fin n) : Bool := (t slot).all fun entry => entry.1 = k

theorem stops_iff [DecidableEq κ] {t : Table n κ ν} {k : κ} {slot : Fin n} : stops t k slot = true ↔ ∀ entry, t slot = some entry → entry.1 = k := by
  rw [stops]
  cases t slot <;> simp

theorem stops_eq_false_iff [DecidableEq κ] {t : Table n κ ν} {k : κ} {slot : Fin n} :
    stops t k slot = false ↔ ∃ entry, t slot = some entry ∧ entry.1 ≠ k := by
  rw [stops]
  cases t slot <;> simp

variable [NeZero n] (hash : κ → Fin n)

/-- The slot of a key after `i` steps. -/
def slotAt (k : κ) (i : Nat) : Fin n := hash k + Fin.ofNat n i

/-- The steps of a walk reach every slot. -/
theorem exists_slotAt (k : κ) (slot : Fin n) : ∃ i < n, slot = slotAt hash k i := by
  refine ⟨(slot - hash k).val, (slot - hash k).isLt, ?_⟩
  rw [slotAt, Fin.ofNat_val_eq_self, add_sub_cancel]

variable {hash} in
/-- They reach no slot twice before they have gone around. -/
theorem slotAt_ne {k : κ} {i j : Nat} (hj : j < i) (hi : i < n) : slotAt hash k j ≠ slotAt hash k i := by
  intro heq
  have hvalue := congrArg Fin.val (add_left_cancel heq)
  rw [Fin.val_ofNat, Fin.val_ofNat, Nat.mod_eq_of_lt (hj.trans hi), Nat.mod_eq_of_lt hi] at hvalue
  omega

variable [DecidableEq κ]

/-- The walk from step `i` on, for at most `fuel` steps. -/
def locateFrom (t : Table n κ ν) (k : κ) : Nat → Nat → Option (Fin n)
  | 0, _ => none
  | fuel + 1, i => if stops t k (slotAt hash k i) then some (slotAt hash k i) else locateFrom t k fuel (i + 1)

/-- The slot where the walk of a key stops; none if it goes around the whole table. -/
def locate (t : Table n κ ν) (k : κ) : Option (Fin n) := locateFrom hash t k n 0

/-- The value of a key, if the walk stops at it. -/
def get (t : Table n κ ν) (k : κ) : Option ν := (locate hash t k).bind fun slot => (t slot).map Prod.snd

/-- The value of a key becomes `f` of the old one; without a new value the slot is emptied. -/
def modify (t : Table n κ ν) (k : κ) (f : Option ν → Option ν) : Table n κ ν :=
  match locate hash t k with
  | none => t
  | some slot => Function.update t slot ((f ((t slot).map Prod.snd)).map (k, ·))

/-- The walk of a key goes past this slot, which another key holds. -/
def Passes (t : Table n κ ν) (k : κ) (slot : Fin n) : Prop :=
  ∃ i < n, slot = slotAt hash k i ∧ ∀ j ≤ i, stops t k (slotAt hash k j) = false

/-- Every walk of a stored key stops at the slot that holds it. -/
def Chained (t : Table n κ ν) : Prop := ∀ slot k v, t slot = some (k, v) → locate hash t k = some slot

variable {hash} {t : Table n κ ν} {k l : κ} {slot : Fin n} {v : ν}

/-! ## The walk -/

theorem locateFrom_eq_some {fuel i : Nat} : locateFrom hash t k fuel i = some slot ↔
    ∃ j < fuel, slot = slotAt hash k (i + j) ∧ stops t k slot = true ∧ ∀ m < j, stops t k (slotAt hash k (i + m)) = false := by
  induction fuel generalizing i with
  | zero => simp [locateFrom]
  | succ fuel ih =>
    rw [locateFrom]
    by_cases hstops : stops t k (slotAt hash k i) = true
    · rw [if_pos hstops, some.injEq]
      constructor
      · rintro rfl
        exact ⟨0, Nat.zero_lt_succ _, rfl, hstops, fun m hm => absurd hm (Nat.not_lt_zero m)⟩
      · rintro ⟨j, -, rfl, -, hbefore⟩
        cases j with
        | zero => rfl
        | succ j =>
          have hfirst : stops t k (slotAt hash k i) = false := hbefore 0 (Nat.zero_lt_succ _)
          rw [hstops] at hfirst
          cases hfirst
    · rw [if_neg hstops, ih]
      have hfirst : stops t k (slotAt hash k i) = false := by simpa using hstops
      constructor
      · rintro ⟨j, hj, rfl, hstop, hbefore⟩
        refine ⟨j + 1, Nat.succ_lt_succ hj, by rw [Nat.add_right_comm, Nat.add_assoc], hstop, ?_⟩
        rintro (_ | m) hm
        · exact hfirst
        · rw [show i + (m + 1) = i + 1 + m by omega]
          exact hbefore m (Nat.lt_of_succ_lt_succ hm)
      · rintro ⟨j, hj, hslot, hstop, hbefore⟩
        cases j with
        | zero =>
          rw [hslot, Nat.add_zero] at hstop
          exact absurd hstop hstops
        | succ j =>
          refine ⟨j, Nat.lt_of_succ_lt_succ hj, by rw [hslot, Nat.add_right_comm, Nat.add_assoc], hstop, fun m hm => ?_⟩
          rw [show i + 1 + m = i + (m + 1) by omega]
          exact hbefore (m + 1) (Nat.succ_lt_succ hm)

/-- The walk stops at the first slot that is empty or holds the key. -/
theorem locate_eq_some : locate hash t k = some slot ↔
    ∃ i < n, slot = slotAt hash k i ∧ stops t k slot = true ∧ ∀ j < i, stops t k (slotAt hash k j) = false := by
  simp only [locate, locateFrom_eq_some, Nat.zero_add]

/-- A walk that goes around the whole table has seen other keys only. -/
theorem full_of_locate_none (h : locate hash t k = none) (slot : Fin n) : ∃ entry, t slot = some entry ∧ entry.1 ≠ k := by
  rw [← stops_eq_false_iff]
  by_contra hstops
  -- The first step at which the walk stops.
  have hsome : ∃ i, i < n ∧ stops t k (slotAt hash k i) = true := by
    obtain ⟨i, hi, rfl⟩ := exists_slotAt hash k slot
    exact ⟨i, hi, by simpa using hstops⟩
  classical
  have hfirst := Nat.find_spec hsome
  have hlocate := locate_eq_some.mpr ⟨Nat.find hsome, hfirst.1, rfl, hfirst.2, fun j hj => by
    have hnot := Nat.find_min hsome hj
    simpa [hj.trans hfirst.1] using hnot⟩
  rw [h] at hlocate
  cases hlocate

theorem value_of_locate (hlocate : locate hash t k = some slot) : (t slot).map Prod.snd = get hash t k := by
  rw [get, hlocate]
  rfl

/-- A slot where the walk of a key stops holds no other key. -/
theorem ne_of_stored {slot' : Fin n} (hlocate : locate hash t k = some slot) (hstored : t slot' = some (l, v)) (hne : l ≠ k) : slot' ≠ slot := by
  rintro rfl
  obtain ⟨i, -, -, hstops, -⟩ := locate_eq_some.mp hlocate
  exact hne (stops_iff.mp hstops _ hstored)

theorem modify_of_locate (hlocate : locate hash t k = some slot) (f : Option ν → Option ν) :
    modify hash t k f = Function.update t slot ((f (get hash t k)).map (k, ·)) := by
  rw [← value_of_locate hlocate, modify, hlocate]

theorem modify_of_locate_none (hlocate : locate hash t k = none) (f : Option ν → Option ν) : modify hash t k f = t := by
  rw [modify, hlocate]

/-- An operation that leaves the value as it is leaves the table as it is. -/
theorem modify_id (t : Table n κ ν) (k : κ) : modify hash t k id = t := by
  cases hlocate : locate hash t k with
  | none => exact modify_of_locate_none hlocate id
  | some slot =>
    obtain ⟨i, -, -, hstops, -⟩ := locate_eq_some.mp hlocate
    rw [modify_of_locate hlocate, ← value_of_locate hlocate, update_eq_self_iff]
    cases hentry : t slot with
    | none => rfl
    | some entry =>
      obtain rfl := stops_iff.mp hstops entry hentry
      rfl

/-- No walk passes the slot where the walk of a key without a value stops. -/
theorem not_passes_of_get_none (hlocate : locate hash t k = some slot) (hget : get hash t k = none) : ¬Passes hash t l slot := by
  rintro ⟨i, -, hslot, hbefore⟩
  have hempty : t slot = none := by
    have hvalue := (value_of_locate hlocate).trans hget
    simpa using hvalue
  obtain ⟨entry, hentry, -⟩ := stops_eq_false_iff.mp (hbefore i (le_refl i))
  rw [← hslot, hempty] at hentry
  cases hentry

/-- The walk of a key that passed a slot stops there once the slot is empty. -/
theorem get_of_cut (hlocate : locate hash t k = some slot) (hpasses : Passes hash t l slot) {f : Option ν → Option ν}
    (hf : f (get hash t k) = none) : get hash (modify hash t k f) l = none := by
  obtain ⟨i, hi, hslot, hbefore⟩ := hpasses
  have hcut : locate hash (Function.update t slot none) l = some slot := by
    refine locate_eq_some.mpr ⟨i, hi, hslot, ?_, fun j hj => ?_⟩
    · rw [stops_iff, update_self]
      simp
    · rw [stops_eq_false_iff, update_of_ne (by rw [hslot]; exact slotAt_ne hj hi), ← stops_eq_false_iff]
      exact hbefore j hj.le
  rw [modify_of_locate hlocate, hf, map_none, get, hcut]
  simp

/-! ## Chained tables -/

theorem chained_empty : Chained hash (fun _ => none : Table n κ ν) := by
  intro slot k v h
  cases h

namespace Chained

variable (h : Chained hash t)

include h

theorem get_of_stored (hslot : t slot = some (k, v)) : get hash t k = some v := by
  rw [get, h slot k v hslot]
  simp [hslot]

theorem get_eq_some : get hash t k = some v ↔ ∃ slot, t slot = some (k, v) := by
  constructor
  · intro hget
    rw [get, bind_eq_some_iff] at hget
    obtain ⟨slot, hlocate, hvalue⟩ := hget
    obtain ⟨entry, hentry, rfl⟩ := map_eq_some_iff.mp hvalue
    obtain ⟨i, -, -, hstops, -⟩ := locate_eq_some.mp hlocate
    obtain rfl := stops_iff.mp hstops entry hentry
    exact ⟨slot, hentry⟩
  · rintro ⟨slot, hslot⟩
    exact h.get_of_stored hslot

/-- Two slots do not hold the same key. -/
theorem stored_unique {slot' : Fin n} {v' : ν} (hslot : t slot = some (k, v)) (hslot' : t slot' = some (k, v')) : slot = slot' :=
  some.inj ((h slot k v hslot).symm.trans (h slot' k v' hslot'))

/-- The walk of another stored key, after a change of a slot that the walk does not pass. -/
theorem locate_update {entry : Option (κ × ν)} {slot' : Fin n} (hstored : t slot' = some (l, v)) (hne : slot' ≠ slot)
    (hkept : Passes hash t l slot → ∃ e, entry = some e ∧ e.1 ≠ l) : locate hash (Function.update t slot entry) l = some slot' := by
  obtain ⟨i, hi, hslot', hstops, hbefore⟩ := locate_eq_some.mp (h slot' l v hstored)
  refine locate_eq_some.mpr ⟨i, hi, hslot', ?_, fun j hj => ?_⟩
  · rw [stops_iff] at hstops ⊢
    rwa [update_of_ne hne]
  · by_cases heq : slotAt hash l j = slot
    · obtain ⟨e, rfl, he⟩ := hkept ⟨j, hj.trans hi, heq.symm, fun m hm => hbefore m (lt_of_le_of_lt hm hj)⟩
      rw [heq, stops_eq_false_iff]
      exact ⟨e, update_self _ _ _, he⟩
    · rw [stops_eq_false_iff, update_of_ne heq, ← stops_eq_false_iff]
      exact hbefore j hj

/-- Storing and emptying: the slot where the walk stops gets a new value, or is emptied and no walk of another stored key passes it. -/
theorem update {value : Option ν} (hlocate : locate hash t k = some slot)
    (hcut : value = none → ∀ l, l ≠ k → (∃ slot' v, t slot' = some (l, v)) → ¬Passes hash t l slot) :
    Chained hash (Function.update t slot (value.map (k, ·))) ∧
      get hash (Function.update t slot (value.map (k, ·))) = Function.update (get hash t) k value := by
  obtain ⟨i, hi, hslot, hstops, hbefore⟩ := locate_eq_some.mp hlocate
  -- The walk of the key itself stops at the same slot as before.
  have hself : locate hash (Function.update t slot (value.map (k, ·))) k = some slot := by
    refine locate_eq_some.mpr ⟨i, hi, hslot, ?_, fun j hj => ?_⟩
    · rw [stops_iff, Function.update_self]
      intro entry hentry
      obtain ⟨v, -, rfl⟩ := Option.map_eq_some_iff.mp hentry
      rfl
    · have hne : slotAt hash k j ≠ slot := by
        intro heq
        have hfalse := hbefore j hj
        rw [heq, hstops] at hfalse
        cases hfalse
      rw [stops_eq_false_iff, Function.update_of_ne hne, ← stops_eq_false_iff]
      exact hbefore j hj
  -- So does the walk of every other stored key.
  have hother : ∀ {slot' l v}, l ≠ k → t slot' = some (l, v) →
      locate hash (Function.update t slot (value.map (k, ·))) l = some slot' := by
    intro slot' l v hne hstored
    refine h.locate_update hstored (ne_of_stored hlocate hstored hne) fun hpasses => ?_
    cases value with
    | none => exact absurd hpasses (hcut rfl l hne ⟨slot', v, hstored⟩)
    | some v => exact ⟨(k, v), rfl, hne.symm⟩
  have hstored : ∀ {slot' l v}, Function.update t slot (value.map (k, ·)) slot' = some (l, v) →
      (slot' = slot ∧ l = k ∧ value = some v) ∨ (slot' ≠ slot ∧ l ≠ k ∧ t slot' = some (l, v)) := by
    intro slot' l v hentry
    by_cases heq : slot' = slot
    · subst heq
      rw [Function.update_self] at hentry
      obtain ⟨v', hvalue, hpair⟩ := Option.map_eq_some_iff.mp hentry
      obtain ⟨rfl, rfl⟩ := Prod.mk.inj hpair
      exact Or.inl ⟨rfl, rfl, hvalue⟩
    · rw [Function.update_of_ne heq] at hentry
      refine Or.inr ⟨heq, fun hsame => heq ?_, hentry⟩
      subst hsame
      exact Option.some.inj ((h slot' l v hentry).symm.trans hlocate)
  have hchained : Chained hash (Function.update t slot (value.map (k, ·))) := by
    intro slot' l v hentry
    rcases hstored hentry with ⟨rfl, rfl, -⟩ | ⟨-, hne, hentry⟩
    · exact hself
    · exact hother hne hentry
  refine ⟨hchained, funext fun l => ?_⟩
  by_cases hl : l = k
  · subst hl
    rw [Function.update_self, get, hself]
    simp
  · rw [Function.update_of_ne hl]
    refine Option.ext fun v => ?_
    rw [hchained.get_eq_some, h.get_eq_some]
    constructor
    · rintro ⟨slot', hentry⟩
      rcases hstored hentry with ⟨-, hsame, -⟩ | ⟨-, -, hentry⟩
      · exact absurd hsame hl
      · exact ⟨slot', hentry⟩
    · rintro ⟨slot', hentry⟩
      exact ⟨slot', by rw [Function.update_of_ne (ne_of_stored hlocate hentry hl)]; exact hentry⟩

/-- An operation on a chained table is the operation on the map, if it finds a slot when it stores something and empties no slot that
the walk of another stored key passes. -/
theorem modify {f : Option ν → Option ν} (hroom : locate hash t k = none → f none = none)
    (hcut : f (get hash t k) = none → ∀ slot, locate hash t k = some slot → ∀ l, l ≠ k → get hash t l ≠ none → ¬Passes hash t l slot) :
    Chained hash (modify hash t k f) ∧ get hash (modify hash t k f) = Function.update (get hash t) k (f (get hash t k)) := by
  cases hlocate : locate hash t k with
  | none =>
    have hget : get hash t k = none := by rw [get, hlocate]; rfl
    rw [modify_of_locate_none hlocate, hget, hroom hlocate]
    refine ⟨h, ?_⟩
    rw [← hget, update_eq_self]
  | some slot =>
    rw [modify_of_locate hlocate]
    refine h.update hlocate fun hnone l hne hstored => ?_
    obtain ⟨slot', v, hentry⟩ := hstored
    exact hcut hnone slot hlocate l hne (by rw [h.get_of_stored hentry]; simp)

/-- If the walk of a key finds no slot, then `n` other keys are stored. -/
theorem exists_full (hlocate : locate hash t k = none) : ∃ live : Finset κ, live.card = n ∧ k ∉ live ∧ ∀ l ∈ live, get hash t l ≠ none := by
  choose entry hentry hne using full_of_locate_none hlocate
  have hinj : Injective fun slot => (entry slot).1 := by
    intro slot slot' (heq : (entry slot).1 = (entry slot').1)
    have hslot' : t slot' = some ((entry slot).1, (entry slot').2) := by
      rw [heq]
      exact hentry slot'
    exact h.stored_unique (hentry slot) hslot'
  refine ⟨Finset.univ.image fun slot => (entry slot).1, ?_, ?_, ?_⟩
  · rw [Finset.card_image_of_injective _ hinj, Finset.card_univ, Fintype.card_fin]
  · simpa using fun slot => hne slot
  · intro l hl
    obtain ⟨slot, -, rfl⟩ := Finset.mem_image.mp hl
    rw [h.get_of_stored (hentry slot)]
    simp

end Chained

/-! ## Runs -/

variable (hash)

/-- An operation: what it does to the value of a key. -/
abbrev Op (κ ν : Type) := κ × (Option ν → Option ν)

/-- The table after operations on an empty one. -/
def run (ops : List (Op κ ν)) : Table n κ ν := ops.foldl (fun t op => modify hash t op.1 op.2) fun _ => none

/-- The finite map after the same operations. -/
def mapRun (ops : List (Op κ ν)) : κ → Option ν := ops.foldl (fun m op => Function.update m op.1 (op.2 (m op.1))) fun _ => none

/-- No more than `n` keys have a value. -/
def Within (n : Nat) (m : κ → Option ν) : Prop := ∀ live : Finset κ, (∀ k ∈ live, m k ≠ none) → live.card ≤ n

/-- The operation empties a slot that the walk of another key with a value passes. -/
def Cuts (t : Table n κ ν) (op : Op κ ν) : Prop :=
  op.2 (get hash t op.1) = none ∧ ∃ slot, locate hash t op.1 = some slot ∧ ∃ l, l ≠ op.1 ∧ get hash t l ≠ none ∧ Passes hash t l slot

variable {hash}

theorem run_concat (ops : List (Op κ ν)) (op : Op κ ν) : run hash (ops ++ [op]) = modify hash (run hash ops) op.1 op.2 := by
  rw [run, List.foldl_append]
  rfl

theorem mapRun_concat (ops : List (Op κ ν)) (op : Op κ ν) : mapRun (ops ++ [op]) = Function.update (mapRun ops) op.1 (op.2 (mapRun ops op.1)) := by
  rw [mapRun, List.foldl_append]
  rfl

/-- The last operation of a prefix, for operations that come from calls. -/
theorem exists_call {β : Type} {f : β → Op κ ν} {calls : List β} {front : List (Op κ ν)} {op : Op κ ν}
    (h : front ++ [op] <+: calls.map f) : ∃ before call, front = before.map f ∧ op = f call ∧ before ++ [call] <+: calls := by
  obtain ⟨front', hfront', heq⟩ := List.prefix_map_iff.mp h
  obtain ⟨before, rest, rfl, rfl, hrest⟩ := List.map_eq_append_iff.mp heq.symm
  obtain ⟨call, rfl, rfl⟩ : ∃ call, rest = [call] ∧ f call = op := by
    simpa [List.map_eq_singleton_iff] using hrest
  exact ⟨before, call, rfl, rfl, hfront'⟩

variable {ops : List (Op κ ν)}

theorem run_step {op : Op κ ν} (h : Chained hash (run hash ops)) (hget : get hash (run hash ops) = mapRun ops)
    (hwithin : Within n (mapRun (ops ++ [op]))) (hcut : ¬Cuts hash (run hash ops) op) :
    Chained hash (run hash (ops ++ [op])) ∧ get hash (run hash (ops ++ [op])) = mapRun (ops ++ [op]) := by
  rw [run_concat, mapRun_concat, ← hget]
  refine h.modify (fun hlocate => ?_) fun hnone slot hlocate l hne hlive hpasses => hcut ⟨hnone, slot, hlocate, l, hne, hlive, hpasses⟩
  -- A table without a slot for the key is full, and storing one more key would make too many.
  by_contra hsome
  obtain ⟨live, hcard, hnew, hlive⟩ := h.exists_full hlocate
  have hself : get hash (run hash ops) op.1 = none := by rw [get, hlocate]; rfl
  have hle := hwithin (insert op.1 live) fun l hl => ?_
  · rw [Finset.card_insert_of_notMem hnew, hcard] at hle
    omega
  · rw [mapRun_concat, ← hget]
    rcases Finset.mem_insert.mp hl with rfl | hl
    · rwa [update_self, hself]
    · have hne : l ≠ op.1 := fun heq => hnew (heq ▸ hl)
      rw [update_of_ne hne]
      exact hlive l hl

/-- As long as no operation has cut a walk, the table is the map. -/
theorem run_refines (hwithin : ∀ front, front <+: ops → Within n (mapRun front))
    (hcut : ∀ front op, front ++ [op] <+: ops → ¬Cuts hash (run hash front) op) :
    ∀ front, front <+: ops → Chained hash (run hash front) ∧ get hash (run hash front) = mapRun front := by
  intro front
  induction front using List.reverseRecOn with
  | nil =>
    refine fun _ => ⟨chained_empty, funext fun k => ?_⟩
    show get hash (fun _ => none : Table n κ ν) k = none
    rw [get]
    cases locate hash (fun _ => none : Table n κ ν) k <;> rfl
  | append_singleton front op ih =>
    intro hfront
    obtain ⟨hchained, hget⟩ := ih ((List.prefix_append front [op]).trans hfront)
    exact run_step hchained hget (hwithin _ hfront) (hcut front op hfront)

variable (hash) in
/-- The table is the map all along exactly if no operation cuts a walk. -/
theorem run_refines_iff (hwithin : ∀ front, front <+: ops → Within n (mapRun front)) :
    (∀ front, front <+: ops → get hash (run hash front) = mapRun front) ↔
      ∀ front op, front ++ [op] <+: ops → ¬Cuts hash (run hash front) op := by
  constructor
  · rintro hall front op hfront ⟨hnone, slot, hlocate, l, hne, hlive, hpasses⟩
    have hbefore := hall front ((List.prefix_append front [op]).trans hfront)
    have hafter := congrFun (hall _ hfront) l
    rw [run_concat, get_of_cut hlocate hpasses hnone, mapRun_concat, update_of_ne hne, ← hbefore] at hafter
    exact hlive hafter.symm
  · exact fun hcut front hfront => (run_refines hwithin hcut front hfront).2

end Probing
