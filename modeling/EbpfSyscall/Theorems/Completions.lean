import EbpfSyscall.Lib.Assignments
import EbpfSyscall.Perfetto.Helpers

/-!
# Completions and the commands they belong to

`pair_completions` takes the completions in the order of their times and gives each to the latest command at or before it that has none yet. When
a completion finds none, all commands up to its time have one; so no other way of giving them out serves more commands.
-/

namespace EbpfSyscall.Perfetto

open Assignments List

variable {τ : Type} [LinearOrder τ]

/-- A submission and the completion it was given: their places in the two lists, and their times. -/
structure TimedPair (τ : Type) where
  submission : Nat
  submitted : τ
  completion : Nat
  completed : τ

namespace TimedPair

def places (p : TimedPair τ) : Nat × Nat := (p.submission, p.completion)

/-- The command as it stands in the sorted list. -/
def cmd (p : TimedPair τ) : τ × Nat := (p.submitted, p.submission)

/-- The entry of `out`. -/
def entry [Sub τ] (p : TimedPair τ) : Nat × τ := (p.submission, p.completed - p.submitted)

end TimedPair

/-- Every completion that was given out went to the latest of the commands up to its time that had none. -/
def TakesLatest (cmds : List (τ × Nat)) (pairs : List (TimedPair τ)) : Prop :=
  ∀ p ∈ pairs, ∀ cmd ∈ cmds, cmd.1 ≤ p.completed → (∀ q ∈ pairs, q.completion < p.completion → q.submission ≠ cmd.2) → cmd.1 ≤ p.submitted

namespace CompletionsAux

theorem mem_sortedCmds {cmdsTs : List τ} {t : τ} {i : Nat} : (t, i) ∈ sortedCmds cmdsTs ↔ cmdsTs[i]? = some t := by
  rw [sortedCmds, (Sorting.sortBy_perm _ _).mem_iff, mk_mem_zipIdx_iff_getElem?]

theorem nodup_sortedCmds (cmdsTs : List τ) : ((sortedCmds cmdsTs).map Prod.snd).Nodup := by
  refine ((Sorting.sortBy_perm _ _).map Prod.snd).nodup_iff.mpr ?_
  rw [zipIdx_map_snd]
  exact nodup_range' ..

theorem countP_sortedCmds (cmdsTs : List τ) (p : τ → Bool) : ((sortedCmds cmdsTs).map Prod.fst).countP p = cmdsTs.countP p := by
  rw [sortedCmds, ((Sorting.sortBy_perm _ _).map Prod.fst).countP_eq, zipIdx_map_fst]

theorem pushReady_eq (cts : τ) (later unpaired : List (τ × Nat)) : pushReady cts later unpaired =
      (later.dropWhile fun cmd => cmd.1 ≤ cts, (later.takeWhile fun cmd => cmd.1 ≤ cts).reverse ++ unpaired) := by
  induction later generalizing unpaired with
  | nil => rfl
  | cons cmd later ih =>
    rw [pushReady]
    split
    · next hle =>
      rw [ih, dropWhile_cons_of_pos (by simpa using hle), takeWhile_cons_of_pos (by simpa using hle), reverse_cons,
        append_assoc]
      rfl
    · next hlt =>
      rw [dropWhile_cons_of_neg (by simpa using hlt), takeWhile_cons_of_neg (by simpa using hlt)]
      rfl

variable {cts : τ}

/-- Of a sorted list, what comes after the values up to a time is later. -/
theorem lt_of_mem_dropWhile {cmds : List (τ × Nat)} (h : cmds.Pairwise fun a b => a.1 ≤ b.1) {cmd : τ × Nat}
    (hcmd : cmd ∈ cmds.dropWhile fun cmd => cmd.1 ≤ cts) : cts < cmd.1 := by
  induction cmds with
  | nil => nomatch hcmd
  | cons first rest ih =>
    obtain ⟨hfirst, hrest⟩ := pairwise_cons.mp h
    by_cases hle : first.1 ≤ cts
    · rw [dropWhile_cons_of_pos (by simpa using hle)] at hcmd
      exact ih hrest hcmd
    · rw [dropWhile_cons_of_neg (by simpa using hle), mem_cons] at hcmd
      rcases hcmd with rfl | hmem
      · exact not_le.mp hle
      · exact (not_le.mp hle).trans_le (hfirst cmd hmem)

/-- After some completions: the commands up to now are those on the stack and those of the pairs, the later ones are still to come, and the pairs
are as many as they can be. -/
structure Paired [Sub τ] (cmds : List (τ × Nat)) (done : List τ) (s : PairState τ) (pairs : List (TimedPair τ)) : Prop where
  commands : ∃ pushed, cmds = pushed ++ s.later ∧ (s.unpaired ++ pairs.map TimedPair.cmd).Perm pushed
  stack : s.unpaired.Pairwise fun a b => b.1 ≤ a.1
  times : ∀ p ∈ pairs, done[p.completion]? = some p.completed ∧ p.submitted ≤ p.completed
  once : (pairs.map TimedPair.completion).Nodup
  out : s.out.entries = pairs.map TimedPair.entry
  most : pairs.length = done.length ∨ ∃ t, (cmds.map Prod.fst).countP (· ≤ t) + done.countP (t < ·) ≤ pairs.length
  latest : TakesLatest cmds pairs

variable [Sub τ] {cmds : List (τ × Nat)} {done : List τ} {s : PairState τ} {pairs : List (TimedPair τ)}

theorem Paired.submission_nodup (h : Paired cmds done s pairs) (hcmds : (cmds.map Prod.snd).Nodup) :
    ((s.unpaired ++ pairs.map TimedPair.cmd).map Prod.snd).Nodup := by
  obtain ⟨pushed, hsplit, hperm⟩ := h.commands
  refine (hperm.map Prod.snd).nodup_iff.mpr (hcmds.sublist ?_)
  rw [hsplit]
  exact (sublist_append_left _ _).map _

/-- The commands that have become due go on the stack. -/
theorem Paired.push (h : Paired cmds done s pairs) (hsorted : cmds.Pairwise fun a b => a.1 ≤ b.1) (cts : τ) {later unpaired : List (τ × Nat)}
    (hpush : pushReady cts s.later s.unpaired = (later, unpaired)) :
    Paired cmds done { s with later, unpaired } pairs ∧ ∀ cmd ∈ later, cts < cmd.1 := by
  obtain ⟨pushed, hsplit, hperm⟩ := h.commands
  rw [pushReady_eq, Prod.mk.injEq] at hpush
  obtain ⟨rfl, rfl⟩ := hpush
  rw [hsplit, pairwise_append] at hsorted
  have hwhole := takeWhile_append_dropWhile (p := fun cmd : τ × Nat => decide (cmd.1 ≤ cts)) (l := s.later)
  have hready := hwhole ▸ hsorted.2.1
  refine ⟨⟨⟨pushed ++ s.later.takeWhile fun cmd => cmd.1 ≤ cts, ?_, ?_⟩, ?_, h.times, h.once, h.out, h.most, h.latest⟩,
    fun cmd hcmd => lt_of_mem_dropWhile hsorted.2.1 hcmd⟩
  · rw [append_assoc, hwhole, hsplit]
  · rw [append_assoc]
    exact ((reverse_perm _).append hperm).trans perm_append_comm
  · refine pairwise_append.mpr ⟨pairwise_reverse.mpr (pairwise_append.mp hready).1, h.stack, fun a ha b hb => ?_⟩
    have hb' : b ∈ pushed := hperm.mem_iff.mp (mem_append_left _ hb)
    exact hsorted.2.2 b hb' a (takeWhile_subset _ (mem_reverse.mp ha))

/-- A completion finds no command: all those up to its time have one. -/
theorem Paired.none (h : Paired cmds done s pairs) (hempty : s.unpaired = []) (hlater : ∀ cmd ∈ s.later, cts < cmd.1)
    (hdone : ∀ c ∈ done, c ≤ cts) : Paired cmds (done ++ [cts]) s pairs := by
  refine ⟨h.commands, h.stack, fun p hp => ?_, h.once, h.out, Or.inr ⟨cts, ?_⟩, h.latest⟩
  · obtain ⟨hget, hle⟩ := h.times p hp
    exact ⟨by rw [List.getElem?_append_left (List.getElem?_eq_some_iff.mp hget).1, hget], hle⟩
  · obtain ⟨pushed, hsplit, hperm⟩ := h.commands
    rw [hempty, nil_append] at hperm
    have hnone : (done ++ [cts]).countP (cts < ·) = 0 := by
      rw [countP_eq_zero]
      intro c hc
      rcases mem_append.mp hc with hold | hnew
      · simpa using hdone c hold
      · simp [mem_singleton.mp hnew]
    have hlate : (s.later.map Prod.fst).countP (· ≤ cts) = 0 := by
      rw [countP_eq_zero]
      intro t ht
      obtain ⟨cmd, hcmd, rfl⟩ := mem_map.mp ht
      simpa using hlater cmd hcmd
    rw [hnone, hsplit, map_append, countP_append, hlate]
    calc (pushed.map Prod.fst).countP (· ≤ cts) + 0 + 0 ≤ (pushed.map Prod.fst).length := countP_le_length
      _ = pairs.length := by rw [length_map, ← hperm.length_eq, length_map]

/-- A completion goes to the command on top of the stack. -/
theorem Paired.pop (h : Paired cmds done s pairs) (hcmds : (cmds.map Prod.snd).Nodup) {cmd : τ × Nat} {unpaired : List (τ × Nat)}
    (hstack : s.unpaired = cmd :: unpaired) (hlater : ∀ cmd ∈ s.later, cts < cmd.1) (hle : cmd.1 ≤ cts) :
    Paired cmds (done ++ [cts]) ⟨s.later, unpaired, s.out.set cmd.2 (cts - cmd.1)⟩ (pairs ++ [⟨cmd.2, cmd.1, done.length, cts⟩]) := by
  have hnodup := h.submission_nodup hcmds
  obtain ⟨pushed, hsplit, hperm⟩ := h.commands
  have hstackSorted := h.stack
  rw [hstack] at hnodup hperm hstackSorted
  have hcompletion : ∀ p ∈ pairs, p.completion < done.length := fun p hp => (List.getElem?_eq_some_iff.mp (h.times p hp).1).1
  refine ⟨⟨pushed, hsplit, ?_⟩, (List.pairwise_cons.mp hstackSorted).2, fun p hp => ?_, ?_, ?_, ?_, ?_⟩
  · rw [List.map_append, ← List.append_assoc]
    exact (List.perm_append_singleton cmd _).trans hperm
  · rcases List.mem_append.mp hp with hold | hnew
    · obtain ⟨hget, hle'⟩ := h.times p hold
      exact ⟨by rw [List.getElem?_append_left (hcompletion p hold), hget], hle'⟩
    · rw [List.mem_singleton] at hnew
      subst hnew
      exact ⟨List.getElem?_concat_length, hle⟩
  · rw [List.map_append, List.nodup_append]
    refine ⟨h.once, List.nodup_singleton _, fun k hk k' hk' => ?_⟩
    obtain ⟨p, hp, rfl⟩ := List.mem_map.mp hk
    rw [List.map_singleton, List.mem_singleton] at hk'
    exact hk' ▸ (hcompletion p hp).ne
  · have hfresh : cmd.2 ∉ s.out.entries.map Prod.fst := by
      rw [h.out, List.map_map]
      rw [List.cons_append, List.map_cons, List.nodup_cons, List.map_append, List.map_map] at hnodup
      exact fun hmem => hnodup.1 (List.mem_append_right _ hmem)
    show Assoc.setEntry _ _ _ = _
    rw [Assoc.setEntry_of_notMem hfresh, h.out, List.map_append]
    rfl
  · rw [List.length_append, List.length_append, List.length_singleton, List.length_singleton]
    rcases h.most with heq | ⟨t, ht⟩
    · exact Or.inl (by rw [heq])
    · refine Or.inr ⟨t, ?_⟩
      have hone : [cts].countP (t < ·) ≤ 1 := List.countP_le_length
      rw [List.countP_append]
      omega
  · intro p hp other hother hbefore hfree
    rcases List.mem_append.mp hp with hold | hnew
    · exact h.latest p hold other hother hbefore fun q hq => hfree q (List.mem_append_left _ hq)
    · rw [List.mem_singleton] at hnew
      subst hnew
      -- the command has been pushed and has no completion, so it is on the stack
      have hpushed : other ∈ pushed := by
        rw [hsplit] at hother
        exact (List.mem_append.mp hother).resolve_right fun hmem => absurd (hlater other hmem) (not_lt.mpr hbefore)
      rcases List.mem_append.mp (hperm.mem_iff.mpr hpushed) with hin | hpaired
      · rcases List.mem_cons.mp hin with rfl | hin
        · exact le_refl _
        · exact (List.pairwise_cons.mp hstackSorted).1 other hin
      · obtain ⟨q, hq, rfl⟩ := List.mem_map.mp hpaired
        exact absurd rfl (hfree q (List.mem_append_left _ hq) (hcompletion q hq))

theorem Paired.step (h : Paired cmds done s pairs) (hsorted : cmds.Pairwise fun a b => a.1 ≤ b.1) (hcmds : (cmds.map Prod.snd).Nodup)
    (hdone : ∀ c ∈ done, c ≤ cts) (hstack : ∀ cmd ∈ s.unpaired, cmd.1 ≤ cts) :
    ∃ pairs', Paired cmds (done ++ [cts]) (pairStep s cts) pairs' ∧ ∀ cmd ∈ (pairStep s cts).unpaired, cmd.1 ≤ cts := by
  unfold pairStep
  cases hpush : pushReady cts s.later s.unpaired with
  | mk later unpaired =>
    obtain ⟨hpushed, hlater⟩ := h.push hsorted cts hpush
    have hready : ∀ cmd ∈ unpaired, cmd.1 ≤ cts := by
      rw [pushReady_eq, Prod.mk.injEq] at hpush
      intro cmd hcmd
      rw [← hpush.2, mem_append, mem_reverse] at hcmd
      rcases hcmd with hnew | hold
      · have hle := mem_takeWhile_imp hnew
        exact of_decide_eq_true hle
      · exact hstack cmd hold
    cases unpaired with
    | nil => exact ⟨pairs, hpushed.none rfl hlater hdone, nofun⟩
    | cons cmd unpaired =>
      exact ⟨_, hpushed.pop hcmds rfl hlater (hready cmd mem_cons_self), fun other hother => hready other (mem_cons_of_mem _ hother)⟩

theorem Paired.foldl (rest : List τ) (h : Paired cmds done s pairs) (hsorted : cmds.Pairwise fun a b => a.1 ≤ b.1)
    (hcmds : (cmds.map Prod.snd).Nodup) (htimes : (done ++ rest).Pairwise (· ≤ ·)) (hstack : ∀ cmd ∈ s.unpaired, ∀ c ∈ rest, cmd.1 ≤ c) :
    ∃ s' pairs', rest.foldl pairStep s = s' ∧ Paired cmds (done ++ rest) s' pairs' := by
  induction rest generalizing done s pairs with
  | nil => exact ⟨s, pairs, rfl, (append_nil done).symm ▸ h⟩
  | cons cts rest ih =>
    obtain ⟨hdone, hrest, hbefore⟩ := pairwise_append.mp htimes
    obtain ⟨pairs', hpaired, hready⟩ := h.step hsorted hcmds (fun c hc => hbefore c hc cts mem_cons_self)
      fun cmd hcmd => hstack cmd hcmd cts mem_cons_self
    have happend : done ++ [cts] ++ rest = done ++ cts :: rest := append_assoc ..
    obtain ⟨s', all, hfold, hall⟩ := ih hpaired (happend ▸ htimes) fun cmd hcmd c hc =>
      (hready cmd hcmd).trans ((pairwise_cons.mp hrest).1 c hc)
    exact ⟨s', all, hfold, happend ▸ hall⟩

end CompletionsAux

open CompletionsAux

/-- The pairs that `pair_completions` makes: each place is in at most one, no command is later than its completion, and `out` has the difference.
No other pairs are more, and each completion that is given out goes to the latest command that it can. -/
theorem pairCompletions_greedy [Sub τ] (cmdsTs cmpsTs : List τ) : ∃ pairs : List (TimedPair τ),
    (∀ p ∈ pairs, cmdsTs[p.submission]? = some p.submitted ∧ (sortedCmps cmpsTs)[p.completion]? = some p.completed) ∧
    IsAssignment cmdsTs (sortedCmps cmpsTs) (pairs.map TimedPair.places) ∧
    (pairCompletions cmdsTs cmpsTs).entries = pairs.map (fun p => (p.submission, p.completed - p.submitted)) ∧
    (∀ other, IsAssignment cmdsTs cmpsTs other → other.length ≤ pairs.length) ∧
    ∀ p ∈ pairs, ∀ i submitted, cmdsTs[i]? = some submitted → submitted ≤ p.completed →
      (∀ q ∈ pairs, q.completion < p.completion → q.submission ≠ i) → submitted ≤ p.submitted := by
  have hstart : Paired (sortedCmds cmdsTs) [] ⟨sortedCmds cmdsTs, [], .empty⟩ ([] : List (TimedPair τ)) :=
    ⟨⟨[], rfl, List.Perm.nil⟩, List.Pairwise.nil, nofun, List.nodup_nil, rfl, Or.inl rfl, nofun⟩
  obtain ⟨s, pairs, hfold, h⟩ := hstart.foldl (sortedCmps cmpsTs) (Sorting.pairwise_sortBy _ _) (nodup_sortedCmds cmdsTs)
    (Sorting.pairwise_sortBy _ _) nofun
  rw [List.nil_append] at h
  have hcmd : ∀ p ∈ pairs, cmdsTs[p.submission]? = some p.submitted := fun p hp => by
    obtain ⟨pushed, hsplit, hperm⟩ := h.commands
    refine mem_sortedCmds.mp ?_
    rw [hsplit]
    exact List.mem_append_left _ (hperm.mem_iff.mp (List.mem_append_right _ (List.mem_map.mpr ⟨p, hp, rfl⟩)))
  refine ⟨pairs, fun p hp => ⟨hcmd p hp, (h.times p hp).1⟩, ⟨?_, ?_, fun places hplaces => ?_⟩, ?_, fun other hother => ?_, ?_⟩
  · have hnodup := h.submission_nodup (nodup_sortedCmds cmdsTs)
    rw [List.map_append, List.map_map] at hnodup
    rw [List.map_map]
    exact (List.nodup_append.mp hnodup).2.1
  · rw [List.map_map]
    exact h.once
  · obtain ⟨p, hp, rfl⟩ := List.mem_map.mp hplaces
    exact ⟨p.submitted, p.completed, hcmd p hp, h.times p hp⟩
  · rw [pairCompletions, hfold]
    exact h.out
  · have hperm : (sortedCmps cmpsTs).Perm cmpsTs := Sorting.sortBy_perm _ _
    rcases h.most with hall | ⟨t, ht⟩
    · rw [hall, hperm.length_eq]
      exact hother.length_le_right
    · rw [countP_sortedCmds, hperm.countP_eq] at ht
      exact (hother.length_le_threshold t).trans ht
  · exact fun p hp i submitted hget hle hfree => h.latest p hp (submitted, i) (mem_sortedCmds.mpr hget) hle hfree

end EbpfSyscall.Perfetto
