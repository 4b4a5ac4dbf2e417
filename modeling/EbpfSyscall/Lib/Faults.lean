import Mathlib

/-!
# Programs whose steps may fail

A program changes a state step by step. At each step the world may let it through, make it fail, or stop the whole program; a
failure is an exception that the program can handle, and a stop is not. `Prog` is such a program, with the state it leaves in every
case. The lemmas follow the constructs: what a program that returns has done, and which exceptions it can raise.
-/

namespace Faults

variable {σ ε α β : Type}

/-- What the world does to a step. -/
inductive Fate where
  | ok
  | fails
  | stops
  deriving DecidableEq, Repr

/-- How a program ends. -/
inductive Outcome (ε α : Type) where
  | returned (a : α)
  | raised (e : ε)
  | stopped
  deriving DecidableEq, Repr

def Prog (σ ε α : Type) : Type := σ → Outcome ε α × σ

namespace Prog

/-- What follows a program when it returns. -/
def andThen (m : Prog σ ε α) (f : α → Prog σ ε β) : Prog σ ε β := fun s =>
  match m s with
  | (.returned a, s') => f a s'
  | (.raised e, s') => (.raised e, s')
  | (.stopped, s') => (.stopped, s')

instance : Monad (Prog σ ε) where
  pure a := fun s => (.returned a, s)
  bind := andThen

def raise (e : ε) : Prog σ ε α := fun s => (.raised e, s)

/-- A computation that only reads the state. -/
def reads (f : σ → Except ε α) : Prog σ ε α := fun s =>
  match f s with
  | .ok a => (.returned a, s)
  | .error e => (.raised e, s)

/-- A step with an effect. One that fails or stops may still leave something behind. -/
def step (fate : Fate) (e : ε) (effect : σ → σ) (left : σ → σ := id) : Prog σ ε Unit := fun s =>
  match fate with
  | .ok => (.returned (), effect s)
  | .fails => (.raised e, left s)
  | .stops => (.stopped, left s)

/-- A program run only where a condition of the state holds. -/
def whenever (c : σ → Bool) (m : Prog σ ε Unit) : Prog σ ε Unit := fun s => if c s then m s else (.returned (), s)

/-- `try … except`. -/
def handle (m : Prog σ ε α) (handler : ε → Prog σ ε α) : Prog σ ε α := fun s =>
  match m s with
  | (.raised e, s') => handler e s'
  | r => r

/-- `try … finally`: an exception of the last part replaces the outcome of the first. -/
def always (m : Prog σ ε α) (last : Prog σ ε Unit) : Prog σ ε α := fun s =>
  match m s with
  | (.stopped, s') => (.stopped, s')
  | (outcome, s') =>
    match last s' with
    | (.returned _, t) => (outcome, t)
    | (.raised e, t) => (.raised e, t)
    | (.stopped, t) => (.stopped, t)

/-! ## Running a program -/

variable {m : Prog σ ε α} {s t : σ} {e : ε} {a : α} {b : β} {f : α → Prog σ ε β}

@[simp] theorem pure_run : (pure a : Prog σ ε α) s = (.returned a, s) := rfl

@[simp] theorem raise_run : (raise e : Prog σ ε α) s = (.raised e, s) := rfl

theorem bind_run : (m >>= f) s = match m s with
      | (.returned a, t) => f a t
      | (.raised e, t) => (.raised e, t)
      | (.stopped, t) => (.stopped, t) := rfl

theorem bind_pure_run : (m >>= pure) s = m s := by
  rw [bind_run]
  rcases m s with ⟨_ | _ | _, t⟩ <;> rfl

theorem bind_assoc_run {γ : Type} {g : β → Prog σ ε γ} : (m >>= f >>= g) s = (m >>= fun a => f a >>= g) s := by
  simp only [bind_run]
  rcases m s with ⟨_ | _ | _, t⟩ <;> rfl

instance : LawfulMonad (Prog σ ε) :=
  LawfulMonad.mk' _ (fun _ => funext fun _ => bind_pure_run) (fun _ _ => rfl) (fun _ _ _ => funext fun _ => bind_assoc_run)

/-- A sequence returns exactly when its first part does and its second part does from there. -/
theorem bind_eq_returned : (m >>= f) s = (.returned b, t) ↔ ∃ a u, m s = (.returned a, u) ∧ f a u = (.returned b, t) := by
  rw [bind_run]
  rcases m s with ⟨a | e | _, u⟩ <;> simp

theorem step_eq_returned {fate : Fate} {effect left : σ → σ} {x : Unit} :
    step fate e effect left s = (.returned x, t) ↔ fate = .ok ∧ t = effect s := by
  cases fate <;> simp [step, eq_comm]

theorem reads_eq_returned {f : σ → Except ε α} : reads f s = (.returned a, t) ↔ f s = .ok a ∧ t = s := by
  unfold reads
  cases f s <;> simp [eq_comm]

theorem handle_eq_returned {handler : ε → Prog σ ε α} : handle m handler s = (.returned a, t) ↔
      m s = (.returned a, t) ∨ ∃ e u, m s = (.raised e, u) ∧ handler e u = (.returned a, t) := by
  unfold handle
  rcases m s with ⟨_ | _ | _, u⟩ <;> simp

theorem always_eq_returned {last : Prog σ ε Unit} :
    always m last s = (.returned a, t) ↔ ∃ u x, m s = (.returned a, u) ∧ last u = (.returned x, t) := by
  unfold always
  rcases m s with ⟨_ | _ | _, u⟩
  · dsimp only
    rcases hlast : last u with ⟨_ | _ | _, v⟩ <;> simp [hlast]
  · dsimp only
    rcases hlast : last u with ⟨_ | _ | _, v⟩ <;> simp
  · simp

/-- A list of programs that return without changing the state. -/
theorem mapM_eq_returned {f : β → Prog σ ε α} (hf : ∀ b s a t, f b s = (.returned a, t) → t = s) {bs : List β} {as : List α} :
    bs.mapM f s = (.returned as, t) → t = s ∧ List.Forall₂ (fun b a => f b s = (.returned a, s)) bs as := by
  induction bs generalizing as with
  | nil =>
    intro h
    rw [List.mapM_nil, pure_run, Prod.mk.injEq, Outcome.returned.injEq] at h
    obtain ⟨rfl, rfl⟩ := h
    exact ⟨rfl, .nil⟩
  | cons b bs ih =>
    intro h
    rw [List.mapM_cons, bind_eq_returned] at h
    obtain ⟨a, u, ha, h⟩ := h
    obtain rfl := hf b s a u ha
    rw [bind_eq_returned] at h
    obtain ⟨as', v, has, h⟩ := h
    rw [pure_run, Prod.mk.injEq, Outcome.returned.injEq] at h
    obtain ⟨rfl, rfl⟩ := h
    obtain ⟨rfl, hall⟩ := ih has
    exact ⟨rfl, .cons ha hall⟩

/-! ## Programs that change nothing -/

/-- However it ends, the program leaves the state as it was. -/
def Keeps (m : Prog σ ε α) : Prop := ∀ s, (m s).2 = s

theorem keeps_pure (a : α) : Keeps (pure a : Prog σ ε α) := fun _ => rfl

theorem keeps_reads (f : σ → Except ε α) : Keeps (reads f) := by
  intro s
  unfold reads
  cases f s <;> rfl

theorem keeps_step (fate : Fate) (e : ε) : Keeps (step fate e id : Prog σ ε Unit) := by
  intro s
  cases fate <;> rfl

theorem keeps_bind (hm : Keeps m) (hf : ∀ a, Keeps (f a)) : Keeps (m >>= f) := by
  intro s
  have hs := hm s
  rw [bind_run]
  rcases hrun : m s with ⟨a | e | _, t⟩
  · rw [hrun] at hs
    exact (hf a t).trans hs
  · rw [hrun] at hs
    exact hs
  · rw [hrun] at hs
    exact hs

/-! ## The exceptions of a program -/

/-- Every exception the program raises is one of those described. -/
def RaisesOnly (m : Prog σ ε α) (P : ε → Prop) : Prop := ∀ s e t, m s = (.raised e, t) → P e

variable {P Q : ε → Prop}

theorem raisesOnly_pure : RaisesOnly (pure a : Prog σ ε α) P := by
  intro s e t h
  cases h

theorem raisesOnly_raise (h : P e) : RaisesOnly (raise e : Prog σ ε α) P := by
  intro s e' t heq
  cases heq
  exact h

theorem raisesOnly_step {fate : Fate} {effect left : σ → σ} (h : P e) : RaisesOnly (step fate e effect left) P := by
  intro s e' t heq
  cases fate <;> cases heq
  exact h

theorem raisesOnly_reads {f : σ → Except ε α} (h : ∀ s e, f s = .error e → P e) : RaisesOnly (reads f) P := by
  intro s e t heq
  unfold reads at heq
  cases hf : f s with
  | ok a =>
    rw [hf] at heq
    cases heq
  | error e' =>
    rw [hf] at heq
    cases heq
    exact h s e hf

theorem raisesOnly_whenever {c : σ → Bool} {m : Prog σ ε Unit} (h : RaisesOnly m P) : RaisesOnly (whenever c m) P := by
  intro s e t heq
  unfold whenever at heq
  split at heq
  · exact h s e t heq
  · cases heq

theorem raisesOnly_bind (hm : RaisesOnly m P) (hf : ∀ a, RaisesOnly (f a) P) : RaisesOnly (m >>= f) P := by
  intro s e t heq
  rw [bind_run] at heq
  rcases hrun : m s with ⟨a | e' | _, u⟩
  · rw [hrun] at heq
    exact hf a u e t heq
  · rw [hrun] at heq
    cases heq
    exact hm s e t hrun
  · rw [hrun] at heq
    cases heq

theorem raisesOnly_handle {handler : ε → Prog σ ε α} (hm : RaisesOnly m Q) (hh : ∀ e, Q e → RaisesOnly (handler e) P) :
    RaisesOnly (handle m handler) P := by
  intro s e t heq
  unfold handle at heq
  rcases hrun : m s with ⟨a | e' | _, u⟩
  · rw [hrun] at heq
    cases heq
  · rw [hrun] at heq
    exact hh e' (hm s e' u hrun) u e t heq
  · rw [hrun] at heq
    cases heq

theorem raisesOnly_always {last : Prog σ ε Unit} (hm : RaisesOnly m P) (hlast : RaisesOnly last P) : RaisesOnly (always m last) P := by
  intro s e t heq
  unfold always at heq
  rcases hrun : m s with ⟨a | e' | _, u⟩
  · rw [hrun] at heq
    dsimp only at heq
    rcases hlast' : last u with ⟨x | e' | _, v⟩
    · rw [hlast'] at heq
      cases heq
    · rw [hlast'] at heq
      cases heq
      exact hlast u e t hlast'
    · rw [hlast'] at heq
      cases heq
  · rw [hrun] at heq
    dsimp only at heq
    rcases hlast' : last u with ⟨x | e'' | _, v⟩
    · rw [hlast'] at heq
      cases heq
      exact hm s e u hrun
    · rw [hlast'] at heq
      cases heq
      exact hlast u e t hlast'
    · rw [hlast'] at heq
      cases heq
  · rw [hrun] at heq
    cases heq

theorem raisesOnly_mapM {f : β → Prog σ ε α} (h : ∀ b, RaisesOnly (f b) P) (bs : List β) : RaisesOnly (bs.mapM f) P := by
  induction bs with
  | nil => exact raisesOnly_pure
  | cons b bs ih =>
    rw [List.mapM_cons]
    exact raisesOnly_bind (h b) fun a => raisesOnly_bind ih fun as => raisesOnly_pure

end Prog

end Faults
