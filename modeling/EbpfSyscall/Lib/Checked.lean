import Mathlib

/-!
# Checks that return early

A function that validates its input runs a list of checks and returns the error of the first one that fails. `ensure` is one
check; a `do` block of `Except` runs them in order. The lemmas peel such a block apart: it ends in `ok` exactly when every check
holds, so a proof about an accepted input never unfolds the block.
-/

namespace Checked

open List

variable {ε α β σ : Type} {f : α → Except ε β} {a : α} {as : List α} {bs : List β} {step : σ → Nat → α → Except ε σ}

/-- One check: the error when the condition fails. -/
def ensure (c : Prop) [Decidable c] (e : ε) : Except ε Unit := if c then .ok () else .error e

/-- A check passes exactly when its condition holds. -/
@[simp] theorem ensure_eq_ok {c : Prop} [Decidable c] {e : ε} {u : Unit} : ensure c e = .ok u ↔ c := by
  unfold ensure
  split <;> simp_all

/-- A check whose condition holds does nothing. -/
@[simp] theorem ensure_of {c : Prop} [Decidable c] (h : c) (e : ε) : ensure c e = .ok () := by simp [h]

/-- A block ends in `ok` exactly when its first step does and the rest does on the step's value. -/
theorem bind_eq_ok {x : Except ε α} {b : β} : (x >>= f) = .ok b ↔ ∃ a, x = .ok a ∧ f a = .ok b := by
  constructor
  · intro h
    cases x with
    | error e => cases h
    | ok a => exact ⟨a, rfl, h⟩
  · rintro ⟨a, rfl, h⟩
    exact h

/-- A block that starts with a check, of any kind, ends in `ok` exactly when the check passes and the rest ends in `ok`. -/
theorem check_bind_eq_ok {x : Except ε Unit} {f : Unit → Except ε β} {b : β} : (x >>= f) = .ok b ↔ x = .ok () ∧ f () = .ok b := by
  rw [bind_eq_ok]
  constructor
  · rintro ⟨_, hu, hf⟩
    exact ⟨hu, hf⟩
  · rintro ⟨hu, hf⟩
    exact ⟨(), hu, hf⟩

@[simp] theorem ok_bind : ((Except.ok a : Except ε α) >>= f) = f a := rfl

@[simp] theorem error_bind {e : ε} : ((Except.error e : Except ε α) >>= f) = .error e := rfl

@[simp] theorem pure_eq_ok : (pure a : Except ε α) = .ok a := rfl

/-- The value of an `Option`, or an error. -/
def require (o : Option α) (e : ε) : Except ε α :=
  match o with
  | some a => .ok a
  | none => .error e

@[simp] theorem require_eq_ok {o : Option α} {e : ε} : require o e = .ok a ↔ o = some a := by
  cases o <;> simp [require]

/-- A check made only of a value that is there. -/
def whenSome (o : Option α) (check : α → Except ε Unit) : Except ε Unit :=
  match o with
  | none => .ok ()
  | some a => check a

@[simp] theorem whenSome_eq_ok {o : Option α} {check : α → Except ε Unit} {u : Unit} :
    whenSome o check = .ok u ↔ ∀ a, o = some a → check a = .ok () := by
  cases o <;> simp [whenSome]

/-- One check of every item, in order. -/
def checkAll (as : List α) (check : α → Except ε Unit) : Except ε Unit :=
  match as with
  | [] => .ok ()
  | a :: as => check a >>= fun _ => checkAll as check

@[simp] theorem checkAll_eq_ok {check : α → Except ε Unit} {u : Unit} : checkAll as check = .ok u ↔ ∀ a ∈ as, check a = .ok () := by
  induction as with
  | nil => simp [checkAll]
  | cons a as ih => rw [checkAll, check_bind_eq_ok, ih, forall_mem_cons]

/-- A list is mapped by a step that may fail exactly when every item is. -/
theorem mapM_eq_ok : as.mapM f = .ok bs ↔ List.Forall₂ (fun a b => f a = .ok b) as bs := by
  induction as generalizing bs with
  | nil =>
    rw [mapM_nil, pure_eq_ok, Except.ok.injEq, forall₂_nil_left_iff]
    exact eq_comm
  | cons a as ih =>
    rw [mapM_cons, bind_eq_ok, forall₂_cons_left_iff]
    simp only [bind_eq_ok, ih, pure_eq_ok, Except.ok.injEq]
    constructor
    · rintro ⟨b, hb, cs, hcs, rfl⟩
      exact ⟨b, cs, hb, hcs, rfl⟩
    · rintro ⟨b, cs, hb, hcs, rfl⟩
      exact ⟨b, hb, cs, hcs, rfl⟩

theorem exists_of_forall₂_right {R : α → β → Prop} (h : List.Forall₂ R as bs) : ∀ b ∈ bs, ∃ a ∈ as, R a b := by
  induction h with
  | nil => intro b hb; cases hb
  | cons hab _ ih =>
    intro b hb
    rcases mem_cons.mp hb with rfl | hb
    · exact ⟨_, by simp, hab⟩
    · obtain ⟨a, ha, hr⟩ := ih b hb
      exact ⟨a, by simp [ha], hr⟩

theorem exists_of_forall₂_left {R : α → β → Prop} (h : List.Forall₂ R as bs) : ∀ a ∈ as, ∃ b ∈ bs, R a b := exists_of_forall₂_right h.flip

/-- A block of `Option` gives a value exactly when its first step does and the rest does. -/
theorem mapM_eq_some {f : α → Option β} : as.mapM f = some bs ↔ List.Forall₂ (fun a b => f a = some b) as bs := by
  induction as generalizing bs with
  | nil =>
    rw [mapM_nil, forall₂_nil_left_iff]
    exact ⟨fun h => (Option.some.inj h).symm, fun h => congrArg some h.symm⟩
  | cons a as ih =>
    rw [mapM_cons, forall₂_cons_left_iff]
    simp only [Option.bind_eq_bind, Option.bind_eq_some_iff, ih, Option.pure_def, Option.some.injEq]
    constructor
    · rintro ⟨b, hb, cs, hcs, rfl⟩
      exact ⟨b, cs, hb, hcs, rfl⟩
    · rintro ⟨b, cs, hb, hcs, rfl⟩
      exact ⟨b, hb, cs, hcs, rfl⟩

/-- A loop with an index and an early return: the state after the items, or the error of the first step that fails. -/
def foldFrom (step : σ → Nat → α → Except ε σ) : Nat → σ → List α → Except ε σ
  | _, s, [] => .ok s
  | i, s, a :: as => step s i a >>= fun s' => foldFrom step (i + 1) s' as

@[simp] theorem foldFrom_nil (step : σ → Nat → α → Except ε σ) (i : Nat) (s : σ) : foldFrom step i s [] = .ok s := rfl

theorem foldFrom_cons (step : σ → Nat → α → Except ε σ) (i : Nat) (s : σ) (a : α) (as : List α) :
    foldFrom step i s (a :: as) = step s i a >>= fun s' => foldFrom step (i + 1) s' as := rfl

/-- The loop over two parts is the loop over the second from where the first ends. -/
theorem foldFrom_append (step : σ → Nat → α → Except ε σ) (i : Nat) (s : σ) (as bs : List α) :
    foldFrom step i s (as ++ bs) = foldFrom step i s as >>= fun s' => foldFrom step (i + as.length) s' bs := by
  induction as generalizing i s with
  | nil => simp
  | cons a as ih =>
    simp only [cons_append, foldFrom_cons]
    cases step s i a with
    | error e => rfl
    | ok s' =>
      simp only [ok_bind, length_cons]
      rw [ih, Nat.add_assoc, Nat.add_comm 1]

/-- The rule for loops: what holds at the start and is kept by every accepted step holds at the end. The invariant sees the
index of the next item. -/
theorem foldFrom_invariant (P : Nat → σ → Prop) (hstep : ∀ i s a s', a ∈ as → P i s → step s i a = .ok s' → P (i + 1) s') :
    ∀ {i : Nat} {s s' : σ}, P i s → foldFrom step i s as = .ok s' → P (i + as.length) s' := by
  induction as with
  | nil =>
    intro i s s' hp h
    simp only [foldFrom_nil, Except.ok.injEq] at h
    subst h
    exact hp
  | cons a as ih =>
    intro i s s' hp h
    rw [foldFrom_cons, bind_eq_ok] at h
    obtain ⟨s₁, h₁, h₂⟩ := h
    have hp₁ := hstep i s a s₁ (by simp) hp h₁
    have := ih (fun j t b t' hb => hstep j t b t' (by simp [hb])) hp₁ h₂
    rw [length_cons, Nat.add_comm as.length, ← Nat.add_assoc]
    exact this

/-- The rule for loops without an index. -/
theorem foldlM_invariant {step : σ → α → Except ε σ} (P : σ → Prop) (hstep : ∀ s a s', a ∈ as → P s → step s a = .ok s' → P s') :
    ∀ {s s' : σ}, P s → as.foldlM step s = .ok s' → P s' := by
  induction as with
  | nil =>
    intro s s' hp h
    rw [foldlM_nil, pure_eq_ok, Except.ok.injEq] at h
    exact h ▸ hp
  | cons a as ih =>
    intro s s' hp h
    rw [foldlM_cons, bind_eq_ok] at h
    obtain ⟨s₁, h₁, h₂⟩ := h
    exact ih (fun t b t' hb => hstep t b t' (by simp [hb])) (hstep s a s₁ (by simp) hp h₁) h₂

/-- A loop whose steps compute their next state once a condition holds ends in `ok` exactly when the condition holds at every step. -/
theorem foldFrom_eq_ok_iff {accepts : σ → Nat → α → Prop} {next : σ → α → σ}
    (hstep : ∀ s i a s', step s i a = .ok s' ↔ accepts s i a ∧ s' = next s a) {i : Nat} {s s' : σ} :
    foldFrom step i s as = .ok s' ↔
      (∀ before a after, as = before ++ a :: after → accepts (before.foldl next s) (i + before.length) a) ∧
        s' = as.foldl next s := by
  induction as generalizing i s with
  | nil =>
    rw [foldFrom_nil, Except.ok.injEq, foldl_nil]
    constructor
    · intro h
      exact ⟨fun before a after heq => by simp at heq, h.symm⟩
    · rintro ⟨-, h⟩
      exact h.symm
  | cons a as ih =>
    rw [foldFrom_cons, bind_eq_ok]
    constructor
    · rintro ⟨middle, hfirst, hrest⟩
      obtain ⟨haccepts, rfl⟩ := (hstep s i a middle).mp hfirst
      obtain ⟨hall, hlast⟩ := ih.mp hrest
      refine ⟨?_, hlast⟩
      intro before b after heq
      cases before with
      | nil =>
        obtain ⟨rfl, rfl⟩ : a = b ∧ as = after := by simpa using heq
        exact haccepts
      | cons c before =>
        obtain ⟨rfl, rfl⟩ : a = c ∧ as = before ++ b :: after := by simpa using heq
        have hlater := hall before b after rfl
        rw [foldl_cons, length_cons, Nat.add_comm before.length, ← Nat.add_assoc]
        exact hlater
    · rintro ⟨hall, hlast⟩
      refine ⟨next s a, (hstep s i a _).mpr ⟨hall [] a as rfl, rfl⟩, ih.mpr ⟨?_, hlast⟩⟩
      intro before b after heq
      have hlater := hall (a :: before) b after (by rw [heq]; rfl)
      rw [foldl_cons, length_cons, Nat.add_comm before.length, ← Nat.add_assoc] at hlater
      exact hlater

/-- Such a loop ends in `ok` at all. -/
theorem exists_foldFrom_eq_ok_iff {accepts : σ → Nat → α → Prop} {next : σ → α → σ}
    (hstep : ∀ s i a s', step s i a = .ok s' ↔ accepts s i a ∧ s' = next s a) {s : σ} : (∃ s', foldFrom step 0 s as = .ok s') ↔
      ∀ before a after, as = before ++ a :: after → accepts (before.foldl next s) before.length a := by
  simp only [foldFrom_eq_ok_iff hstep, Nat.zero_add, exists_and_left, exists_eq, and_true]

/-- A computation whose result passes a test has a result. -/
theorem exists_ok_of_any {x : Except ε α} {p : α → Bool} (h : x.toOption.any p = true) : ∃ a, x = .ok a ∧ p a = true := by
  cases x with
  | error e => cases h
  | ok a => exact ⟨a, rfl, h⟩

/-- Items that each have a key that none before them has have different keys. -/
theorem nodup_of_fresh {f : α → β} (h : ∀ before a after, as = before ++ a :: after → f a ∉ before.map f) : (as.map f).Nodup := by
  have hfront : ∀ front rest, as = front ++ rest → (front.map f).Nodup := by
    intro front
    induction front using reverseRecOn with
    | nil => simp
    | append_singleton front a ih =>
      intro rest heq
      have hsplit : as = front ++ a :: rest := by simpa using heq
      rw [map_append, nodup_append]
      refine ⟨ih _ hsplit, nodup_singleton _, ?_⟩
      rintro b hb c hc rfl
      obtain rfl : b = f a := by simpa using hc
      exact h front a rest hsplit hb
  exact hfront as [] (by simp)

/-- What holds of every item and the items before it, item by item. -/
theorem forall_split {P : List α → α → Prop} :
    (∀ before a after, as = before ++ a :: after → P before a) ↔ ∀ i : Fin as.length, P (as.take i) (as.get i) := by
  constructor
  · intro h i
    exact h (as.take i) (as.get i) (as.drop (i + 1)) (by simp)
  · rintro h before a after rfl
    simpa using h ⟨before.length, by simp⟩

/-- Where keys are unique, the first item with the key of an item is the item. -/
theorem find?_of_nodup [DecidableEq β] {f : α → β} (hnodup : (as.map f).Nodup) (hmem : a ∈ as) : as.find? (fun other => f other = f a) = some a := by
  induction as with
  | nil => cases hmem
  | cons first rest ih =>
    rw [map_cons, nodup_cons] at hnodup
    rw [find?_cons]
    rcases mem_cons.mp hmem with rfl | hrest
    · simp
    · have hne : f first ≠ f a := fun heq => hnodup.1 (heq ▸ mem_map_of_mem hrest)
      simp only [hne, decide_false]
      exact ih hnodup.2 hrest

/-- The rule for two loops over one list: states that are related at the start and after every pair of accepted steps are
related at the end. -/
theorem foldFrom_simulation {τ ε' : Type} {step' : τ → Nat → α → Except ε' τ} (R : σ → τ → Prop)
    (hstep : ∀ i s t a s' t', R s t → step s i a = .ok s' → step' t i a = .ok t' → R s' t') :
    ∀ {i : Nat} {s s' : σ} {t t' : τ}, R s t → foldFrom step i s as = .ok s' → foldFrom step' i t as = .ok t' → R s' t' := by
  induction as with
  | nil =>
    intro i s s' t t' hr h h'
    simp only [foldFrom_nil, Except.ok.injEq] at h h'
    subst h
    subst h'
    exact hr
  | cons a as ih =>
    intro i s s' t t' hr h h'
    rw [foldFrom_cons, bind_eq_ok] at h h'
    obtain ⟨s₁, h₁, h₂⟩ := h
    obtain ⟨t₁, h₁', h₂'⟩ := h'
    exact ih (hstep i s t a s₁ t₁ hr h₁ h₁') h₂ h₂'

end Checked
