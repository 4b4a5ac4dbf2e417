import EbpfSyscall.Lemmas.Pairing

/-!
# Every event of a capture is counted once

`_pair_completions` goes once over all events in the order of their times. It counts every completion and every command once, and its
report is complete exactly when the events of every key take turns. `load` calls it on events of the kind that is assumed here.
-/

namespace EbpfSyscall.CompareStreams

open Checked CompareAux PairingAux List

namespace PairingAux

variable {commands : List StreamCommand} {events : List Event}

/-- The places of the commands are among those of the events. -/
theorem places_sublist (h : CommandEvents events commands) : (commands.map StreamCommand.sourceSeq).Sublist (events.map Event.sourceSeq) := by
  obtain ⟨-, rfl, hcommand, -⟩ := h
  induction events with
  | nil => exact Sublist.refl _
  | cons event events ih =>
    have hrest := ih fun other hother => hcommand other (mem_cons_of_mem _ hother)
    rw [filterMap_cons]
    cases hvalue : event.command? with
    | none => exact hrest.cons _
    | some command =>
      have hplace := (hcommand event (by simp) command (command?_eq_some.mp hvalue)).2.1
      rw [map_cons, map_cons, hplace]
      exact hrest.cons_cons _

theorem completion_eq_none (h : CommandEvents events commands) : ∀ command ∈ commands, command.completion = none := by
  intro command hcommand
  rw [h.own] at hcommand
  obtain ⟨event, hevent, hvalue⟩ := mem_filterMap.mp hcommand
  exact (h.command event hevent command (command?_eq_some.mp hvalue)).2.2

/-- What `pairCompletions` has at the end. -/
theorem pairCompletions_tracked (h : CommandEvents events commands) :
    Tracked commands (sortByKey Event.key events) ((sortByKey Event.key events).foldl pairEvent { commands }) ∧
      Feed commands [] (sortByKey Event.key events) := by
  have hperm : (sortByKey Event.key events).Perm events := perm_insertionSort _ events
  have hplaces : (commands.map StreamCommand.sourceSeq).Nodup := (places_sublist h).nodup h.places
  have hfeed : Feed commands [] (sortByKey Event.key events) := by
    refine ⟨hplaces, fun event hevent command hvalue => ?_, ?_⟩
    · rw [h.own]
      exact mem_filterMap.mpr ⟨event, hperm.mem_iff.mp hevent, command?_eq_some.mpr hvalue⟩
    · rw [nil_append, (hperm.filterMap _).nodup_iff, ← h.own]
      exact hplaces.of_map
  exact ⟨tracked_foldl (tracked_start (completion_eq_none h)) hfeed, hfeed⟩

/-- Every command has a key exactly when no event is a command without one. -/
theorem no_keyless_iff {sorted : List Event} (h : CommandEvents events commands) (hperm : sorted.Perm events) :
    (∀ event ∈ sorted, keyless event = false) ↔ ∀ command ∈ commands, command.pairingKey?.isSome = true := by
  rw [h.own]
  constructor
  · intro hkeyless command hcommand
    obtain ⟨event, hevent, hvalue⟩ := mem_filterMap.mp hcommand
    have hkey := hkeyless event (hperm.mem_iff.mpr hevent)
    rw [keyless, command?_eq_some.mp hvalue] at hkey
    exact Option.isNone_eq_false_iff.mp hkey
  · intro hkeys event hevent
    unfold keyless
    cases hvalue : event.value with
    | completion value => rfl
    | command command =>
      have hkey := hkeys command (mem_filterMap.mpr ⟨event, hperm.mem_iff.mp hevent, command?_eq_some.mpr hvalue⟩)
      exact Option.isNone_eq_false_iff.mpr hkey

/-- Events with places before `i`. -/
theorem commandEvents_append {i : Nat}
    (event : Event) (h : CommandEvents events commands) (hlt : ∀ other ∈ events, other.sourceSeq < i) (hplace : event.sourceSeq = i)
    (hcommand : ∀ command, event.value = .command command →
      command.ts = event.ts ∧ command.sourceSeq = event.sourceSeq ∧ command.completion = none)
    (hcompletion : ∀ value, event.value = .completion value → value.ts = event.ts) :
    CommandEvents (events ++ [event]) (commands ++ event.command?.toList) := by
  refine ⟨?_, ?_, ?_, ?_⟩
  · rw [map_append, nodup_append]
    refine ⟨h.places, nodup_singleton _, fun place hmem other hother => ?_⟩
    obtain ⟨old, hold, rfl⟩ := mem_map.mp hmem
    rw [map_singleton, mem_singleton] at hother
    have hless := hlt old hold
    omega
  · rw [filterMap_append, ← h.own]
    cases hvalue : event.command? with
    | none => simp [hvalue]
    | some command => simp [hvalue]
  · intro other hother
    rcases mem_append.mp hother with hother | hother
    · exact h.command other hother
    · rw [mem_singleton.mp hother]
      exact hcommand
  · intro other hother
    rcases mem_append.mp hother with hother | hother
    · exact h.completion other hother
    · rw [mem_singleton.mp hother]
      exact hcompletion

end PairingAux

/-- What `load` collects are the events and the commands of a capture. -/
theorem commandEvents_of_fold {Γ : Host} {path : String} {records : List NumberedRecord} {st : StreamState}
    (h : foldFrom (streamStep Γ path) 0 {} records = .ok st) : CommandEvents st.events st.commands := by
  refine (foldFrom_invariant (fun i s => CommandEvents s.events s.commands ∧ ∀ event ∈ s.events, event.sourceSeq < i) ?_
    ⟨⟨by simp, rfl, by simp, by simp⟩, by simp⟩ h).1
  intro i s numbered s' _ ⟨hs, hlt⟩ hstep
  have hlater : ∀ event ∈ s.events, event.sourceSeq < i + 1 := fun event hevent => (hlt event hevent).trans (Nat.lt_succ_self i)
  rcases streamStep_cases hstep with ⟨-, hc, he⟩ | ⟨-, -, opName, new, hreads, hc, he⟩ | ⟨-, value, hlat, rfl⟩ | ⟨-, rfl⟩
  · rw [hc, he]
    exact ⟨hs, hlater⟩
  · rw [hc, he]
    refine ⟨commandEvents_append ⟨new.ts, i, .command new⟩ hs hlt rfl ?_ ?_, ?_⟩
    · rintro _ ⟨⟩
      exact ⟨rfl, hreads.sourceSeq, hreads.unpaired⟩
    · rintro _ ⟨⟩
    · intro event hevent
      rcases mem_append.mp hevent with hevent | hevent
      · exact hlater event hevent
      · rw [mem_singleton.mp hevent]
        exact Nat.lt_succ_self i
  · refine ⟨?_, ?_⟩
    · have happend := commandEvents_append ⟨value.ts, i, .completion value⟩ hs hlt rfl (by rintro _ ⟨⟩) (by rintro _ ⟨⟩; rfl)
      simpa [Event.command?] using happend
    · intro event hevent
      rcases mem_append.mp hevent with hevent | hevent
      · exact hlater event hevent
      · rw [mem_singleton.mp hevent]
        exact Nat.lt_succ_self i
  · exact ⟨hs, hlater⟩

/-- Every completion and every command is counted once. The pairing is complete exactly when every command has a key and the events of
every key take turns; then the commands are as they were, and each has the completion that follows it among the events of its key. -/
theorem pairCompletions_accounts {events : List Event} {commands : List StreamCommand} (h : CommandEvents events commands) :
    let sorted := sortByKey Event.key events
    let (pairing, paired) := pairCompletions events commands
    pairing.paired + pairing.orphanCompletions + pairing.invalidLatency = events.countP Event.isCompletion ∧
    pairing.paired + pairing.unmatchedCommands + pairing.commandsWithoutPairingKey = commands.length ∧
    (pairing.complete = true ↔
      (∀ command ∈ commands, command.pairingKey?.isSome = true) ∧ ∀ key, Alternates (keyEvents key sorted)) ∧
    (pairing.complete = true → paired.map bare = commands.map bare ∧
      ∀ key before first second after, keyEvents key sorted = before ++ first :: second :: after →
        ∀ command value, first.value = .command command → second.value = .completion value →
          ∀ written ∈ paired, written.sourceSeq = command.sourceSeq → written.completion = some value) := by
  obtain ⟨htracked, hfeed⟩ := pairCompletions_tracked h
  have hperm : (sortByKey Event.key events).Perm events := List.perm_insertionSort _ events
  have hbare := (foldl_paired (sortByKey Event.key events) [] (paired_start events (completion_eq_none h)) fun event hevent => hperm.mem_iff.mp hevent).bare
  rw [pairCompletions]
  generalize hst : (sortByKey Event.key events).foldl pairEvent { commands } = st at *
  have hkeyless : (sortByKey Event.key events).countP keyless = commands.countP fun command => command.pairingKey?.isNone := by
    rw [hperm.countP_eq, countP_keyless, ← h.own]
  have hcounts := htracked.counts hkeyless
  have hseen : ∀ command ∈ commands, ∃ event ∈ sortByKey Event.key events, event.value = .command command := by
    intro command hcommand
    rw [h.own] at hcommand
    obtain ⟨event, hevent, hvalue⟩ := List.mem_filterMap.mp hcommand
    exact ⟨event, hperm.mem_iff.mpr hevent, command?_eq_some.mp hvalue⟩
  have hlength : st.commands.length = commands.length := by simpa using congrArg List.length hbare
  have hclean : (pairingOf st).complete = true ↔ errors st = 0 ∧ ∀ key, st.pending key = none := by
    rw [complete_iff hcounts hlength]
    exact and_congr_right fun herrors => htracked.unmatched_iff herrors hseen
  refine ⟨?_, hcounts, ?_, fun hcomplete => ⟨hbare, ?_⟩⟩
  · rw [← hperm.countP_eq]
    exact htracked.ended
  · rw [hclean, ← hst, foldl_clean_iff, and_iff_right (show errors { commands } = 0 from rfl)]
    refine and_congr (no_keyless_iff h hperm) (forall_congr' fun key => ?_)
    refine accepts_iff_alternates ?_ ?_ ?_
    · exact (CaptureAux.pairwise_sortByKey Event.key events).filter _
    · intro event hevent command hvalue
      exact (h.command event (hperm.mem_iff.mp (List.mem_of_mem_filter hevent)) command hvalue).1
    · intro event hevent value hvalue
      exact h.completion event (hperm.mem_iff.mp (List.mem_of_mem_filter hevent)) value hvalue
  · intro key before first second after hevents command value hfirst hsecond written hwritten hplace
    have hhas := hasCompletion_of_follows (tracked_start (completion_eq_none h)) hfeed
      (by rw [hst]; exact (hclean.mp hcomplete).1) hevents hfirst hsecond
    rw [hst] at hhas
    exact hhas (view written) (List.mem_map_of_mem hwritten) hplace

/-- A read and its completion. -/
def oneRead : StreamCommand := { seq := 0, sourceSeq := 0, ts := 5, op := operationOf "read".toList, slba := 8, bytes := 4096, hwq := some 1, cid := some 2 }

def oneReadEvents : List Event :=
  [⟨5, 0, .command oneRead⟩, ⟨8, 1, .completion { ts := 8, latNs := 3, hwq := 1, cid := 2, status := 0 }⟩]

theorem pairCompletions_accounts_oneRead : CommandEvents oneReadEvents [oneRead] ∧
    (pairCompletions oneReadEvents [oneRead]).1.complete = true ∧ (pairCompletions oneReadEvents [oneRead]).1.paired = 1 ∧
      (pairCompletions oneReadEvents [oneRead]).1.paired + (pairCompletions oneReadEvents [oneRead]).1.unmatchedCommands +
        (pairCompletions oneReadEvents [oneRead]).1.commandsWithoutPairingKey = 1 := by
  have h : CommandEvents oneReadEvents [oneRead] := by
    refine ⟨by decide, rfl, ?_, ?_⟩
    · simp [oneReadEvents, oneRead]
    · simp [oneReadEvents]
  exact ⟨h, by decide, by decide, (pairCompletions_accounts h).2.1⟩

end EbpfSyscall.CompareStreams
