import EbpfSyscall.Lemmas.Compare

/-!
# Pairing commands with completions

What `_pair_completions` does to the events of one key depends on these events only: they are accepted when commands and completions
take turns and the latencies agree. Over all events, what is known of each command is tracked by its place in the file.
-/

namespace EbpfSyscall.CompareStreams

open Checked List Function Option

/-- The command of an event. -/
def Event.command? (event : Event) : Option StreamCommand :=
  match event.value with
  | .command command => some command
  | .completion _ => none

/-- The events of a capture and its commands: an event has the time of its value and a place of its own in the file, and the commands are
those of the events, without completions so far. -/
structure CommandEvents (events : List Event) (commands : List StreamCommand) : Prop where
  places : (events.map Event.sourceSeq).Nodup
  own : commands = events.filterMap Event.command?
  command : ∀ event ∈ events, ∀ command, event.value = .command command →
    command.ts = event.ts ∧ command.sourceSeq = event.sourceSeq ∧ command.completion = none
  completion : ∀ event ∈ events, ∀ value, event.value = .completion value → value.ts = event.ts

/-- The key of an event. -/
def Event.pairingKey? (event : Event) : Option (Int × Int) :=
  match event.value with
  | .command command => command.pairingKey?
  | .completion value => some (value.hwq, value.cid)

def Event.isCompletion (event : Event) : Bool :=
  match event.value with
  | .command _ => false
  | .completion _ => true

/-- The events of a key. -/
def keyEvents (key : Int × Int) (events : List Event) : List Event := events.filter fun event => event.pairingKey? = some key

/-- A completion with the latency from the command to it. -/
def Completes (first second : Event) : Prop :=
  match first.value, second.value with
  | .command command, .completion value => value.latNs = value.ts - command.ts
  | _, _ => False

/-- Commands and completions take turns, from a command to a completion, with the right latencies. -/
def Alternates : List Event → Prop
  | [] => True
  | [_] => False
  | first :: second :: rest => Completes first second ∧ Alternates rest

namespace PairingAux

open CompareAux

/-! ## One event -/

/-- Everything that one event can do. -/
inductive Step (st : PairState) (event : Event) : PairState → Prop where
  | keyless (command : StreamCommand) (hvalue : event.value = .command command) (hkey : command.pairingKey? = none) :
    Step st event { st with missingCommandKeys := st.missingCommandKeys + 1 }
  | opened (command : StreamCommand) (key : Int × Int) (hvalue : event.value = .command command) (hkey : command.pairingKey? = some key)
    (hpending : st.pending key = none) : Step st event { st with pending := Function.update st.pending key (some command) }
  | reused (command earlier : StreamCommand) (key : Int × Int) (hvalue : event.value = .command command)
    (hkey : command.pairingKey? = some key) (hpending : st.pending key = some earlier) :
    Step st event { st with
      ambiguousReuse := st.ambiguousReuse + 1
      commands := writeTo command.sourceSeq StreamCommand.ambiguous (writeTo earlier.sourceSeq StreamCommand.ambiguous st.commands)
      pending := Function.update st.pending key (some command) }
  | orphan (value : Completion) (hvalue : event.value = .completion value) (hpending : st.pending (value.hwq, value.cid) = none) :
    Step st event { st with orphanCompletions := st.orphanCompletions + 1 }
  | invalid (value : Completion) (command : StreamCommand) (hvalue : event.value = .completion value)
    (hpending : st.pending (value.hwq, value.cid) = some command)
    (hlatency : value.ts - command.ts < 0 ∨ value.ts - command.ts ≠ value.latNs) :
    Step st event { st with
      pending := Function.update st.pending (value.hwq, value.cid) none
      invalidLatency := st.invalidLatency + 1 }
  | ended (value : Completion) (command : StreamCommand) (hvalue : event.value = .completion value)
    (hpending : st.pending (value.hwq, value.cid) = some command)
    (hlatency : ¬(value.ts - command.ts < 0 ∨ value.ts - command.ts ≠ value.latNs)) :
    Step st event { st with
      pending := Function.update st.pending (value.hwq, value.cid) none
      commands := writeTo command.sourceSeq (StreamCommand.complete value) st.commands
      paired := st.paired + 1 }

theorem pairEvent_step (st : PairState) (event : Event) : Step st event (pairEvent st event) := by
  cases hvalue : event.value with
  | command command =>
    rw [pairEvent, hvalue]
    cases hkey : command.pairingKey? with
    | none =>
      have heq : pairCommand st command = { st with missingCommandKeys := st.missingCommandKeys + 1 } := by rw [pairCommand, hkey]
      dsimp only
      rw [heq]
      exact .keyless command hvalue hkey
    | some key =>
      have heq : pairCommand st command =
          { reuseKey st (st.pending key) command with
            pending := update (reuseKey st (st.pending key) command).pending key (some command) } := by
        rw [pairCommand, hkey]
      dsimp only
      rw [heq]
      cases hpending : st.pending key with
      | none => exact .opened command key hvalue hkey hpending
      | some earlier => exact .reused command earlier key hvalue hkey hpending
  | completion value =>
    rw [pairEvent, hvalue]
    dsimp only
    rw [pairCompletion]
    cases hpending : st.pending (value.hwq, value.cid) with
    | none => exact .orphan value hvalue hpending
    | some command =>
      dsimp only
      split
      · rename_i hlatency
        exact .invalid value command hvalue hpending hlatency
      · rename_i hlatency
        exact .ended value command hvalue hpending hlatency

/-! ## The events of one key -/

/-- What is left of the events of a key is accepted after a command that is pending. -/
def Accepts : Option StreamCommand → List Event → Prop
  | none, [] => True
  | some _, [] => False
  | pending, event :: rest =>
    match pending, event.value with
    | none, .command command => Accepts (some command) rest
    | some command, .completion value => ¬(value.ts - command.ts < 0 ∨ value.ts - command.ts ≠ value.latNs) ∧ Accepts none rest
    | _, _ => False

/-- How often something was wrong. -/
def errors (st : PairState) : Nat := st.orphanCompletions + st.ambiguousReuse + st.invalidLatency + st.missingCommandKeys

theorem accepts_nil {pending : Option StreamCommand} : Accepts pending [] ↔ pending = none := by
  cases pending <;> simp [Accepts]

theorem keyEvents_cons (key : Int × Int) (event : Event) (rest : List Event) :
    keyEvents key (event :: rest) = if event.pairingKey? = some key then event :: keyEvents key rest else keyEvents key rest := by
  rw [keyEvents, filter_cons]
  simp only [decide_eq_true_eq]
  rfl

/-- What one event does: it is wrong, or it makes a command pending, or it ends one. -/
theorem pairEvent_cases (st : PairState) (event : Event) : (keyless event = true ∧ errors (pairEvent st event) = errors st + 1) ∨
    ∃ key, event.pairingKey? = some key ∧ keyless event = false ∧
      (∀ other, other ≠ key → (pairEvent st event).pending other = st.pending other) ∧
      ((errors (pairEvent st event) = errors st + 1 ∧ ∀ rest, ¬Accepts (st.pending key) (event :: rest)) ∨
        (errors (pairEvent st event) = errors st ∧
          ∀ rest, Accepts (st.pending key) (event :: rest) ↔ Accepts ((pairEvent st event).pending key) rest)) := by
  have hstep := pairEvent_step st event
  generalize pairEvent st event = st' at *
  cases hstep with
  | keyless command hvalue hkey =>
    refine .inl ⟨by simp [keyless, hvalue, hkey], ?_⟩
    simp only [errors]
    omega
  | opened command key hvalue hkey hpending =>
    refine .inr ⟨key, by simp [Event.pairingKey?, hvalue, hkey], by simp [keyless, hvalue, hkey],
      fun other hother => update_of_ne hother _ _, .inr ⟨rfl, fun rest => ?_⟩⟩
    simp [Accepts, hvalue, hpending]
  | reused command earlier key hvalue hkey hpending =>
    refine .inr ⟨key, by simp [Event.pairingKey?, hvalue, hkey], by simp [keyless, hvalue, hkey],
      fun other hother => update_of_ne hother _ _, .inl ⟨?_, fun rest => by simp [Accepts, hvalue, hpending]⟩⟩
    simp only [errors]
    omega
  | orphan value hvalue hpending =>
    refine .inr ⟨(value.hwq, value.cid), by simp [Event.pairingKey?, hvalue], by simp [keyless, hvalue], fun _ _ => rfl,
      .inl ⟨?_, fun rest => by simp [Accepts, hvalue, hpending]⟩⟩
    simp only [errors]
    omega
  | invalid value command hvalue hpending hlatency =>
    refine .inr ⟨(value.hwq, value.cid), by simp [Event.pairingKey?, hvalue], by simp [keyless, hvalue],
      fun other hother => update_of_ne hother _ _, .inl ⟨?_, fun rest haccepts => ?_⟩⟩
    · simp only [errors]
      omega
    · simp only [Accepts, hvalue, hpending] at haccepts
      exact haccepts.1 hlatency
  | ended value command hvalue hpending hlatency =>
    refine .inr ⟨(value.hwq, value.cid), by simp [Event.pairingKey?, hvalue], by simp [keyless, hvalue],
      fun other hother => update_of_ne hother _ _, .inr ⟨rfl, fun rest => ?_⟩⟩
    simp only [Accepts, hvalue, hpending, update_self, and_iff_right hlatency]

/-- Nothing is wrong over some events, and nothing is left pending, exactly when no command is without a key and the events of every key
are accepted. -/
theorem foldl_clean_iff (rest : List Event) (st : PairState) :
    (errors (rest.foldl pairEvent st) = 0 ∧ ∀ key, (rest.foldl pairEvent st).pending key = none) ↔
      errors st = 0 ∧ (∀ event ∈ rest, keyless event = false) ∧ ∀ key, Accepts (st.pending key) (keyEvents key rest) := by
  induction rest generalizing st with
  | nil => simp [keyEvents, accepts_nil]
  | cons event rest ih =>
    rw [foldl_cons, ih, forall_mem_cons]
    rcases pairEvent_cases st event with ⟨hkeyless, herrors⟩ | ⟨key, hkey, hkeyless, hothers, hstep⟩
    · rw [herrors, hkeyless]
      simp
    · have hkeys : (∀ other, Accepts (st.pending other) (keyEvents other (event :: rest))) ↔
          Accepts (st.pending key) (event :: keyEvents key rest) ∧
            ∀ other, other ≠ key → Accepts (st.pending other) (keyEvents other rest) := by
        constructor
        · intro h
          refine ⟨by simpa [keyEvents_cons, hkey] using h key, fun other hother => ?_⟩
          have hsame := h other
          rwa [keyEvents_cons, if_neg (by rw [hkey]; exact fun heq => hother (some.inj heq).symm)] at hsame
        · rintro ⟨hown, hrest⟩ other
          by_cases hother : other = key
          · subst hother
            rwa [keyEvents_cons, if_pos hkey]
          · rw [keyEvents_cons, if_neg (by rw [hkey]; exact fun heq => hother (some.inj heq).symm)]
            exact hrest other hother
      rcases hstep with ⟨herrors, hnot⟩ | ⟨herrors, hown⟩
      · rw [herrors, hkeys]
        simp [hnot]
      · rw [herrors, hkeys, hkeyless, hown]
        have hsplit : (∀ other, Accepts ((pairEvent st event).pending other) (keyEvents other rest)) ↔
            Accepts ((pairEvent st event).pending key) (keyEvents key rest) ∧
              ∀ other, other ≠ key → Accepts (st.pending other) (keyEvents other rest) := by
          constructor
          · intro h
            exact ⟨h key, fun other hother => hothers other hother ▸ h other⟩
          · rintro ⟨hkey', hrest⟩ other
            by_cases hother : other = key
            · exact hother ▸ hkey'
            · rw [hothers other hother]
              exact hrest other hother
        rw [hsplit]
        simp

/-- For events in the order of their times, being accepted is taking turns. -/
theorem accepts_iff_alternates {es : List Event} (hsorted : es.Pairwise fun a b => a.ts ≤ b.ts)
    (hcommand : ∀ event ∈ es, ∀ command, event.value = .command command → command.ts = event.ts)
    (hcompletion : ∀ event ∈ es, ∀ value, event.value = .completion value → value.ts = event.ts) :
    Accepts none es ↔ Alternates es := by
  induction es using Alternates.induct with
  | case1 => simp [Accepts, Alternates]
  | case2 event =>
    cases hvalue : event.value with
    | command command | completion value => simp [Accepts, Alternates, hvalue]
  | case3 first second rest ih =>
    have hrest := ih (hsorted.tail.tail) (fun e he => hcommand e (by simp [he])) (fun e he => hcompletion e (by simp [he]))
    rw [Alternates, Completes]
    cases hfirst : first.value with
    | completion value => simp [Accepts, hfirst]
    | command command =>
      cases hsecond : second.value with
      | command other => simp [Accepts, hfirst, hsecond]
      | completion value =>
        have hle := (pairwise_cons.mp hsorted).1 second (by simp)
        have hts := hcommand first (by simp) command hfirst
        have hts' := hcompletion second (by simp) value hsecond
        simp only [Accepts, hfirst, hsecond, hrest]
        refine and_congr_left fun _ => ?_
        omega

/-! ## All commands -/

/-- What counts of a command: its place, its completion and its key. -/
abbrev View := Nat × Option Completion × Option (Int × Int)

def view (command : StreamCommand) : View := (command.sourceSeq, command.completion, command.pairingKey?)

/-- A completion is written at one place. -/
def setAt (place : Nat) (value : Completion) (w : View) : View := if w.1 = place then (w.1, some value, w.2.2) else w

theorem view_writeTo_ambiguous (place : Nat) (commands : List StreamCommand) :
    (writeTo place StreamCommand.ambiguous commands).map view = commands.map view := by
  rw [writeTo, List.map_map]
  refine List.map_congr_left fun command _ => ?_
  rw [Function.comp_apply]
  split
  · rfl
  · rfl

theorem view_writeTo_complete (place : Nat) (value : Completion) (commands : List StreamCommand) :
    (writeTo place (StreamCommand.complete value) commands).map view = (commands.map view).map (setAt place value) := by
  rw [writeTo, List.map_map, List.map_map]
  refine List.map_congr_left fun command _ => ?_
  rw [Function.comp_apply, Function.comp_apply, setAt]
  by_cases hplace : command.sourceSeq = place
  · rw [if_pos hplace, if_pos (show (view command).1 = place from hplace)]
    rfl
  · rw [if_neg hplace, if_neg (show ¬(view command).1 = place from hplace)]

theorem setAt_fst (place : Nat) (value : Completion) (w : View) : (setAt place value w).1 = w.1 ∧ (setAt place value w).2.2 = w.2.2 := by
  unfold setAt
  split
  · exact ⟨rfl, rfl⟩
  · exact ⟨rfl, rfl⟩

variable {value : Completion} {command : StreamCommand} {key : Int × Int}

/-- One more command is completed. -/
theorem countP_setAt {place : Nat} {views : List View} (hnodup : (views.map Prod.fst).Nodup)
    (hplace : place ∈ views.map Prod.fst) (hnone : ∀ w ∈ views, w.1 = place → w.2.1 = none) :
    (views.map (setAt place value)).countP (fun w => w.2.1.isSome) = views.countP (fun w => w.2.1.isSome) + 1 := by
  induction views with
  | nil => cases hplace
  | cons w views ih =>
    rw [map_cons, nodup_cons] at hnodup
    rw [forall_mem_cons] at hnone
    rw [map_cons, countP_cons, countP_cons]
    by_cases hw : w.1 = place
    · have hrest : views.map (setAt place value) = views := by
        refine (map_congr_left fun other hother => ?_).trans (map_id views)
        rw [setAt, if_neg, id]
        intro heq
        exact hnodup.1 (by rw [hw, ← heq]; exact mem_map_of_mem hother)
      rw [hrest, setAt, if_pos hw, hnone.1 hw]
      rfl
    · have hmem : place ∈ views.map Prod.fst := (mem_cons.mp hplace).resolve_left (Ne.symm hw)
      rw [ih hnodup.2 hmem hnone.2, setAt, if_neg hw]
      omega

/-- What holds after some events. -/
structure Tracked (commands : List StreamCommand) (seen : List Event) (st : PairState) : Prop where
  places : (st.commands.map view).map (fun w => (w.1, w.2.2)) = commands.map fun command => (command.sourceSeq, command.pairingKey?)
  count : st.paired = (st.commands.map view).countP fun w => w.2.1.isSome
  ended : st.paired + st.orphanCompletions + st.invalidLatency = seen.countP Event.isCompletion
  missing : st.missingCommandKeys = seen.countP keyless
  keyed : ∀ w ∈ st.commands.map view, w.2.1.isSome = true → w.2.2.isSome = true
  pending : ∀ key command, st.pending key = some command → command ∈ commands ∧ command.pairingKey? = some key ∧
    (∃ event ∈ seen, event.value = .command command) ∧ ∀ w ∈ st.commands.map view, w.1 = command.sourceSeq → w.2.1 = none
  unseen : ∀ command ∈ commands, (∀ event ∈ seen, event.value ≠ .command command) →
    ∀ w ∈ st.commands.map view, w.1 = command.sourceSeq → w.2.1 = none
  settled : errors st = 0 → ∀ event ∈ seen, ∀ command, event.value = .command command →
    (∃ key, st.pending key = some command) ∨ ∀ w ∈ st.commands.map view, w.1 = command.sourceSeq → w.2.1.isSome = true

variable {events seen rest : List Event} {commands : List StreamCommand} {st : PairState} {event : Event}

theorem Tracked.fst (h : Tracked commands seen st) : (st.commands.map view).map Prod.fst = commands.map StreamCommand.sourceSeq := by
  have heq := congrArg (List.map Prod.fst) h.places
  simp only [List.map_map] at heq ⊢
  exact heq

/-- The key at the place of a command is its key. -/
theorem Tracked.key_eq (h : Tracked commands seen st) (hnodup : (commands.map StreamCommand.sourceSeq).Nodup)
    (hcommand : command ∈ commands) {w : View} (hw : w ∈ st.commands.map view) (hplace : w.1 = command.sourceSeq) :
    w.2.2 = command.pairingKey? := by
  have hmem : (w.1, w.2.2) ∈ commands.map fun command => (command.sourceSeq, command.pairingKey?) := by
    rw [← h.places]
    exact mem_map_of_mem hw
  obtain ⟨other, hother, heq⟩ := mem_map.mp hmem
  obtain ⟨hseq, hkey⟩ := Prod.mk.inj heq
  have hsame : other = command := inj_on_of_nodup_map hnodup hother hcommand (hseq.trans hplace)
  rw [← hkey, hsame]

/-- The events of a capture that have been seen, one that comes now, and the rest. -/
structure Next (commands : List StreamCommand) (seen : List Event) (event : Event) : Prop where
  once : (commands.map StreamCommand.sourceSeq).Nodup
  mem : ∀ command, event.value = .command command → command ∈ commands
  new : ∀ command, event.value = .command command → ∀ other ∈ seen, other.value ≠ .command command

theorem Tracked.pending_of_concat (h : Tracked commands seen st) (event : Event)
    (hpending : st.pending key = some command) : command ∈ commands ∧ command.pairingKey? = some key ∧
      (∃ other ∈ seen ++ [event], other.value = .command command) ∧
        ∀ w ∈ st.commands.map view, w.1 = command.sourceSeq → w.2.1 = none := by
  obtain ⟨hmem, hkey, ⟨other, hother, hvalue⟩, hnone⟩ := h.pending key command hpending
  exact ⟨hmem, hkey, ⟨other, mem_append_left _ hother, hvalue⟩, hnone⟩

theorem Tracked.unseen_of_concat (h : Tracked commands seen st) (event : Event) :
    ∀ command ∈ commands, (∀ other ∈ seen ++ [event], other.value ≠ .command command) → ∀ w ∈ st.commands.map view, w.1 = command.sourceSeq → w.2.1 = none := fun command hcommand hseen =>
  h.unseen command hcommand fun other hother => hseen other (mem_append_left _ hother)

/-- One event keeps what holds. -/
theorem tracked_pairEvent (h : Tracked commands seen st) (hnext : Next commands seen event) :
    Tracked commands (seen ++ [event]) (pairEvent st event) := by
  have hcountCompletion : (seen ++ [event]).countP Event.isCompletion = seen.countP Event.isCompletion + if event.isCompletion = true then 1 else 0 := by
    rw [List.countP_append, List.countP_singleton]
  have hcountKeyless : (seen ++ [event]).countP keyless = seen.countP keyless + if keyless event = true then 1 else 0 := by
    rw [List.countP_append, List.countP_singleton]
  have hended := h.ended
  have hmissing := h.missing
  have hunseen := h.unseen_of_concat event
  have hstep := pairEvent_step st event
  generalize pairEvent st event = st' at *
  cases hstep with
  | keyless command hvalue hkey =>
    simp only [Event.isCompletion, hvalue, Bool.false_eq_true, if_false] at hcountCompletion
    simp only [keyless, hvalue, hkey, Option.isNone_none, if_true] at hcountKeyless
    refine ⟨h.places, h.count, by rw [hcountCompletion]; exact hended, by rw [hcountKeyless]; dsimp only; omega, h.keyed,
      fun _ _ => h.pending_of_concat event, hunseen, fun herrors => ?_⟩
    simp only [errors] at herrors
    omega
  | opened command key hvalue hkey hpending =>
    simp only [Event.isCompletion, hvalue, Bool.false_eq_true, if_false] at hcountCompletion
    simp only [keyless, hvalue, hkey, Option.isNone_some, Bool.false_eq_true, if_false] at hcountKeyless
    refine ⟨h.places, h.count, by rw [hcountCompletion]; exact hended, by rw [hcountKeyless]; exact hmissing, h.keyed, ?_, hunseen, ?_⟩
    · intro other found hfound
      by_cases hother : other = key
      · subst hother
        obtain rfl : command = found := by simpa using hfound
        exact ⟨hnext.mem command hvalue, hkey, ⟨event, by simp, hvalue⟩, h.unseen command (hnext.mem command hvalue) (hnext.new command hvalue)⟩
      · dsimp only at hfound
        rw [Function.update_of_ne hother] at hfound
        exact h.pending_of_concat event hfound
    · intro herrors other hother found hfound
      rcases List.mem_append.mp hother with hother | hother
      · rcases h.settled herrors other hother found hfound with ⟨place, hplace⟩ | hdone
        · refine .inl ⟨place, ?_⟩
          dsimp only
          rw [Function.update_of_ne _, hplace]
          rintro rfl
          rw [hpending] at hplace
          cases hplace
        · exact .inr hdone
      · rw [List.mem_singleton.mp hother, hvalue] at hfound
        cases hfound
        exact .inl ⟨key, Function.update_self key _ _⟩
  | reused command earlier key hvalue hkey hpending =>
    simp only [Event.isCompletion, hvalue, Bool.false_eq_true, if_false] at hcountCompletion
    simp only [keyless, hvalue, hkey, Option.isNone_some, Bool.false_eq_true, if_false] at hcountKeyless
    have hviews : (writeTo command.sourceSeq StreamCommand.ambiguous (writeTo earlier.sourceSeq StreamCommand.ambiguous st.commands)).map view =
        st.commands.map view := by
      rw [view_writeTo_ambiguous, view_writeTo_ambiguous]
    refine ⟨?_, ?_, by rw [hcountCompletion]; exact hended, by rw [hcountKeyless]; exact hmissing, ?_, ?_, ?_, fun herrors => ?_⟩
    · rw [hviews]
      exact h.places
    · rw [hviews]
      exact h.count
    · rw [hviews]
      exact h.keyed
    · rw [hviews]
      intro other found hfound
      by_cases hother : other = key
      · subst hother
        obtain rfl : command = found := by simpa using hfound
        exact ⟨hnext.mem command hvalue, hkey, ⟨event, by simp, hvalue⟩, h.unseen command (hnext.mem command hvalue) (hnext.new command hvalue)⟩
      · dsimp only at hfound
        rw [Function.update_of_ne hother] at hfound
        exact h.pending_of_concat event hfound
    · rw [hviews]
      exact hunseen
    · simp only [errors] at herrors
      omega
  | orphan value hvalue hpending =>
    simp only [Event.isCompletion, hvalue, if_true] at hcountCompletion
    simp only [keyless, hvalue, Bool.false_eq_true, if_false] at hcountKeyless
    refine ⟨h.places, h.count, by rw [hcountCompletion]; dsimp only; omega, by rw [hcountKeyless]; exact hmissing, h.keyed,
      fun _ _ => h.pending_of_concat event, hunseen, fun herrors => ?_⟩
    simp only [errors] at herrors
    omega
  | invalid value command hvalue hpending hlatency =>
    simp only [Event.isCompletion, hvalue, if_true] at hcountCompletion
    simp only [keyless, hvalue, Bool.false_eq_true, if_false] at hcountKeyless
    refine ⟨h.places, h.count, by rw [hcountCompletion]; dsimp only; omega, by rw [hcountKeyless]; exact hmissing, h.keyed, ?_, hunseen,
      fun herrors => ?_⟩
    · intro other found hfound
      by_cases hother : other = (value.hwq, value.cid)
      · subst hother
        simp at hfound
      · dsimp only at hfound
        rw [Function.update_of_ne hother] at hfound
        exact h.pending_of_concat event hfound
    · simp only [errors] at herrors
      omega
  | ended value command hvalue hpending hlatency =>
    simp only [Event.isCompletion, hvalue, if_true] at hcountCompletion
    simp only [keyless, hvalue, Bool.false_eq_true, if_false] at hcountKeyless
    obtain ⟨hcommand, hkey, ⟨first, hfirst, hfirstValue⟩, hnone⟩ := h.pending _ command hpending
    have hplace : command.sourceSeq ∈ (st.commands.map view).map Prod.fst := by
      rw [h.fst]
      exact List.mem_map_of_mem hcommand
    have hmem : ∀ w' ∈ (st.commands.map view).map (setAt command.sourceSeq value), ∃ w ∈ st.commands.map view, w.1 = w'.1 ∧ w.2.2 = w'.2.2 ∧
        (w'.1 = command.sourceSeq → w'.2.1 = some value) ∧ (w'.1 ≠ command.sourceSeq → w'.2.1 = w.2.1) := by
      intro w' hw'
      obtain ⟨w, hw, rfl⟩ := List.mem_map.mp hw'
      refine ⟨w, hw, (setAt_fst _ _ w).1.symm, (setAt_fst _ _ w).2.symm, fun hsame => ?_, fun hdiffers => ?_⟩
      · rw [(setAt_fst _ _ w).1] at hsame
        rw [setAt, if_pos hsame]
      · rw [(setAt_fst _ _ w).1] at hdiffers
        rw [setAt, if_neg hdiffers]
    refine ⟨?_, ?_, by rw [hcountCompletion]; dsimp only; omega, by rw [hcountKeyless]; exact hmissing, ?_, ?_, ?_, ?_⟩
    · rw [view_writeTo_complete, List.map_map, ← h.places]
      refine List.map_congr_left fun w _ => ?_
      simp only [Function.comp_apply, setAt_fst]
    · rw [view_writeTo_complete, countP_setAt (by rw [h.fst]; exact hnext.once) hplace hnone, ← h.count]
    · rw [view_writeTo_complete]
      intro w' hw' hsome
      obtain ⟨w, hw, hfst, hthird, -, hother⟩ := hmem w' hw'
      by_cases hsame : w'.1 = command.sourceSeq
      · rw [← hthird, h.key_eq hnext.once hcommand hw (hfst.trans hsame), hkey]
        rfl
      · rw [hother hsame] at hsome
        rw [← hthird]
        exact h.keyed w hw hsome
    · rw [view_writeTo_complete]
      intro other found hfound
      by_cases hother : other = (value.hwq, value.cid)
      · subst hother
        simp at hfound
      · dsimp only at hfound
        rw [Function.update_of_ne hother] at hfound
        obtain ⟨hfoundMem, hfoundKey, hseen, hfoundNone⟩ := h.pending_of_concat event hfound
        refine ⟨hfoundMem, hfoundKey, hseen, fun w' hw' hw'Place => ?_⟩
        obtain ⟨w, hw, hfst, -, -, hsame⟩ := hmem w' hw'
        have hdiffers : w'.1 ≠ command.sourceSeq := by
          intro heq
          have hsameCommand : found = command :=
            List.inj_on_of_nodup_map hnext.once hfoundMem hcommand (hw'Place.symm.trans heq)
          rw [hsameCommand, hkey] at hfoundKey
          exact hother (Option.some.inj hfoundKey).symm
        rw [hsame hdiffers]
        exact hfoundNone w hw (hfst.trans hw'Place)
    · rw [view_writeTo_complete]
      intro other hotherMem hotherSeen w' hw' hw'Place
      obtain ⟨w, hw, hfst, -, -, hsame⟩ := hmem w' hw'
      have hdiffers : w'.1 ≠ command.sourceSeq := by
        intro heq
        have hsameCommand : other = command := List.inj_on_of_nodup_map hnext.once hotherMem hcommand (hw'Place.symm.trans heq)
        exact hotherSeen first (List.mem_append_left _ hfirst) (hsameCommand ▸ hfirstValue)
      rw [hsame hdiffers]
      exact hunseen other hotherMem hotherSeen w hw (hfst.trans hw'Place)
    · rw [view_writeTo_complete]
      intro herrors other hother found hfound
      rcases List.mem_append.mp hother with hother | hother
      · rcases h.settled herrors other hother found hfound with ⟨place, hplace'⟩ | hdone
        · by_cases hsame : place = (value.hwq, value.cid)
          · subst hsame
            obtain rfl : command = found := Option.some.inj (hpending.symm.trans hplace')
            refine .inr fun w' hw' hw'Place => ?_
            obtain ⟨-, -, -, -, hset, -⟩ := hmem w' hw'
            rw [hset hw'Place]
            rfl
          · refine .inl ⟨place, ?_⟩
            dsimp only
            rw [Function.update_of_ne hsame, hplace']
        · refine .inr fun w' hw' hw'Place => ?_
          obtain ⟨w, hw, hfst, -, hset, hsame⟩ := hmem w' hw'
          by_cases heq : w'.1 = command.sourceSeq
          · rw [hset heq]
            rfl
          · rw [hsame heq]
            exact hdone w hw (hfst.trans hw'Place)
      · rw [List.mem_singleton.mp hother, hvalue] at hfound
        cases hfound

/-- Events that have been seen and events that come: every command comes once. -/
structure Feed (commands : List StreamCommand) (seen rest : List Event) : Prop where
  once : (commands.map StreamCommand.sourceSeq).Nodup
  mem : ∀ event ∈ rest, ∀ command, event.value = .command command → command ∈ commands
  new : ((seen ++ rest).filterMap Event.command?).Nodup

theorem command?_eq_some : event.command? = some command ↔ event.value = .command command := by
  unfold Event.command?
  cases event.value <;> simp

theorem Feed.next (h : Feed commands seen (event :: rest)) : Next commands seen event := by
  refine ⟨h.once, h.mem event (by simp), fun command hvalue other hother heq => ?_⟩
  have hnew := h.new
  rw [filterMap_append, nodup_append] at hnew
  refine hnew.2.2 command (mem_filterMap.mpr ⟨other, hother, command?_eq_some.mpr heq⟩) command ?_ rfl
  exact mem_filterMap.mpr ⟨event, by simp, command?_eq_some.mpr hvalue⟩

theorem Feed.tail (h : Feed commands seen (event :: rest)) : Feed commands (seen ++ [event]) rest :=
  ⟨h.once, fun other hother => h.mem other (mem_cons_of_mem _ hother), by simpa using h.new⟩

theorem tracked_foldl (h : Tracked commands seen st) (hfeed : Feed commands seen rest) :
    Tracked commands (seen ++ rest) (rest.foldl pairEvent st) := by
  induction rest generalizing seen st with
  | nil => simpa using h
  | cons event rest ih =>
    have hrest := ih (tracked_pairEvent h hfeed.next) hfeed.tail
    rwa [append_assoc, singleton_append] at hrest

theorem tracked_start (hnone : ∀ command ∈ commands, command.completion = none) : Tracked commands [] { commands } := by
  have hviews : ∀ w ∈ commands.map view, w.2.1 = none := by
    intro w hw
    obtain ⟨command, hcommand, rfl⟩ := List.mem_map.mp hw
    exact hnone command hcommand
  refine ⟨?_, ?_, rfl, rfl, ?_, ?_, fun _ _ _ w hw _ => hviews w hw, ?_⟩
  · rw [List.map_map]
    rfl
  · refine (List.countP_eq_zero.mpr fun w hw => ?_).symm
    rw [hviews w hw]
    simp
  · intro w hw hsome
    rw [hviews w hw] at hsome
    cases hsome
  · intro key command hpending
    cases hpending
  · intro _ event hevent
    cases hevent

/-! ## Whose completion a command gets -/

theorem errors_le_foldl (rest : List Event) (st : PairState) : errors st ≤ errors (rest.foldl pairEvent st) := by
  induction rest generalizing st with
  | nil => exact le_rfl
  | cons event rest ih =>
    have hstep : errors st ≤ errors (pairEvent st event) := by
      rcases pairEvent_cases st event with ⟨-, herrors⟩ | ⟨-, -, -, -, ⟨herrors, -⟩ | ⟨herrors, -⟩⟩ <;> omega
    exact hstep.trans (ih _)

/-- A place has a completion. -/
def HasCompletion (place : Nat) (value : Completion) (st : PairState) : Prop :=
  ∀ w ∈ st.commands.map view, w.1 = place → w.2.1 = some value

/-- A completion that is written stays. -/
theorem hasCompletion_pairEvent (h : Tracked commands seen st) (hcommand : command ∈ commands) (hhas : HasCompletion command.sourceSeq value st) :
    HasCompletion command.sourceSeq value (pairEvent st event) := by
  have hstep := pairEvent_step st event
  generalize pairEvent st event = st' at *
  cases hstep with
  | keyless _ _ _ | opened _ _ _ _ _ | orphan _ _ _ | invalid _ _ _ _ _ => exact hhas
  | reused _ _ _ _ _ _ =>
    unfold HasCompletion
    rw [view_writeTo_ambiguous, view_writeTo_ambiguous]
    exact hhas
  | ended other found hvalue hpending hlatency =>
    obtain ⟨-, -, -, hnone⟩ := h.pending _ found hpending
    have hplace : command.sourceSeq ∈ (st.commands.map view).map Prod.fst := by
      rw [h.fst]
      exact mem_map_of_mem hcommand
    obtain ⟨own, hown, hownPlace⟩ := mem_map.mp hplace
    have hdiffers : command.sourceSeq ≠ found.sourceSeq := by
      intro heq
      have hsome := hhas own hown hownPlace
      rw [hnone own hown (hownPlace.trans heq)] at hsome
      cases hsome
    unfold HasCompletion
    rw [view_writeTo_complete]
    intro w' hw' hw'Place
    obtain ⟨w, hw, rfl⟩ := mem_map.mp hw'
    rw [(setAt_fst _ _ w).1] at hw'Place
    rw [setAt, if_neg (by rw [hw'Place]; exact hdiffers)]
    exact hhas w hw hw'Place

theorem hasCompletion_foldl (h : Tracked commands seen st)
    (hfeed : Feed commands seen rest) (hcommand : command ∈ commands) (hhas : HasCompletion command.sourceSeq value st) :
    HasCompletion command.sourceSeq value (rest.foldl pairEvent st) := by
  induction rest generalizing seen st with
  | nil => exact hhas
  | cons event rest ih => exact ih (tracked_pairEvent h hfeed.next) hfeed.tail (hasCompletion_pairEvent h hcommand hhas)

/-- An event of another key leaves what is pending for a key. -/
theorem pending_pairEvent_of_ne (hkey : event.pairingKey? ≠ some key) : (pairEvent st event).pending key = st.pending key := by
  have hstep := pairEvent_step st event
  generalize pairEvent st event = st' at *
  cases hstep with
  | keyless _ _ _ | orphan _ _ _ => rfl
  | opened command place hvalue hplace hpending | reused command _ place hvalue hplace hpending =>
    have hne : key ≠ place := by
      rintro rfl
      exact hkey (by simp [Event.pairingKey?, hvalue, hplace])
    exact update_of_ne hne _ _
  | invalid value _ hvalue _ _ | ended value _ hvalue _ _ =>
    have hne : key ≠ (value.hwq, value.cid) := by
      rintro rfl
      exact hkey (by simp [Event.pairingKey?, hvalue])
    exact update_of_ne hne _ _

theorem pending_pairEvent_command (hvalue : event.value = .command command)
    (hkey : command.pairingKey? = some key) : (pairEvent st event).pending key = some command := by
  rw [pairEvent, hvalue]
  dsimp only
  rw [pairCommand, hkey]
  exact update_self key _ _

/-- A command that is pending gets the completion that is the next event of its key, when nothing is wrong. -/
theorem hasCompletion_of_pending {second : Event} {after : List Event}
    (h : Tracked commands seen st) (hfeed : Feed commands seen rest) (herrors : errors (rest.foldl pairEvent st) = 0)
    (hpending : st.pending key = some command) (hevents : keyEvents key rest = second :: after) (hsecond : second.value = .completion value) :
    HasCompletion command.sourceSeq value (rest.foldl pairEvent st) := by
  induction rest generalizing seen st with
  | nil => cases hevents
  | cons event rest ih =>
    rw [foldl_cons] at herrors ⊢
    have htracked := tracked_pairEvent h hfeed.next
    by_cases hkey : event.pairingKey? = some key
    · rw [keyEvents_cons, if_pos hkey] at hevents
      obtain ⟨rfl, -⟩ := cons.inj hevents
      obtain rfl : (value.hwq, value.cid) = key := by simpa [Event.pairingKey?, hsecond] using hkey
      refine hasCompletion_foldl htracked hfeed.tail (h.pending _ command hpending).1 ?_
      have hle := errors_le_foldl rest (pairEvent st event)
      rw [herrors] at hle
      have hstep := pairEvent_step st event
      generalize pairEvent st event = st' at *
      cases hstep with
      | keyless other hvalue _ | opened other _ hvalue _ _ | reused other _ _ hvalue _ _ =>
        rw [hsecond] at hvalue
        cases hvalue
      | orphan other hvalue hnone =>
        rw [hsecond] at hvalue
        cases hvalue
        rw [hpending] at hnone
        cases hnone
      | invalid other _ hvalue _ _ =>
        simp only [errors] at hle
        omega
      | ended other found hvalue hfound _ =>
        rw [hsecond] at hvalue
        cases hvalue
        obtain rfl : command = found := some.inj (hpending.symm.trans hfound)
        unfold HasCompletion
        rw [view_writeTo_complete]
        intro w' hw' hw'Place
        obtain ⟨w, hw, rfl⟩ := mem_map.mp hw'
        rw [(setAt_fst _ _ w).1] at hw'Place
        rw [setAt, if_pos hw'Place]
    · rw [keyEvents_cons, if_neg hkey] at hevents
      exact ih htracked hfeed.tail herrors (by rw [pending_pairEvent_of_ne hkey, hpending]) hevents

/-- A command gets the completion that follows it among the events of its key, when nothing is wrong. -/
theorem hasCompletion_of_follows {first second : Event} {before after : List Event} (h : Tracked commands seen st) (hfeed : Feed commands seen rest)
    (herrors : errors (rest.foldl pairEvent st) = 0) (hevents : keyEvents key rest = before ++ first :: second :: after)
    (hfirst : first.value = .command command) (hsecond : second.value = .completion value) :
    HasCompletion command.sourceSeq value (rest.foldl pairEvent st) := by
  induction rest generalizing seen st before with
  | nil => simp [keyEvents] at hevents
  | cons event rest ih =>
    rw [foldl_cons] at herrors ⊢
    have htracked := tracked_pairEvent h hfeed.next
    by_cases hkey : event.pairingKey? = some key
    · rw [keyEvents_cons, if_pos hkey] at hevents
      cases before with
      | nil =>
        obtain ⟨rfl, htail⟩ := cons.inj hevents
        have hcommandKey : command.pairingKey? = some key := by simpa [Event.pairingKey?, hfirst] using hkey
        exact hasCompletion_of_pending htracked hfeed.tail herrors (pending_pairEvent_command hfirst hcommandKey) htail hsecond
      | cons other before => exact ih htracked hfeed.tail herrors (cons.inj hevents).2
    · rw [keyEvents_cons, if_neg hkey] at hevents
      exact ih htracked hfeed.tail herrors hevents

/-! ## The end of a run -/

/-- The commands without completion that have a key. -/
theorem unmatched_eq (st : PairState) : (pairingOf st).unmatchedCommands = (st.commands.map view).countP fun w => w.2.1.isNone && w.2.2.isSome := by
  rw [countP_map]
  rfl

/-- Every command is completed, or has a key and is not, or has no key. -/
theorem length_eq_counts {views : List View} (hkeyed : ∀ w ∈ views, w.2.1.isSome = true → w.2.2.isSome = true) :
    views.length = views.countP (fun w => w.2.1.isSome) + views.countP (fun w => w.2.1.isNone && w.2.2.isSome) +
      views.countP fun w => w.2.2.isNone := by
  induction views with
  | nil => rfl
  | cons w views ih =>
    rw [forall_mem_cons] at hkeyed
    rw [length_cons, countP_cons, countP_cons, countP_cons, ih hkeyed.2]
    obtain ⟨place, completion, key⟩ := w
    have hfirst := hkeyed.1
    cases completion <;> cases key <;> simp at hfirst ⊢ <;> omega

/-- The commands without a key are the keyless events. -/
theorem countP_keyless (events : List Event) :
    events.countP keyless = (events.filterMap Event.command?).countP fun command => command.pairingKey?.isNone := by
  induction events with
  | nil => rfl
  | cons event events ih =>
    rw [countP_cons, ih, filterMap_cons]
    cases hvalue : event.value <;> simp [keyless, Event.command?, hvalue, countP_cons]

/-- After all events: every command is counted once. -/
theorem Tracked.counts (h : Tracked commands seen st) (hseen : seen.countP keyless = commands.countP fun command => command.pairingKey?.isNone) :
    st.paired + (pairingOf st).unmatchedCommands + st.missingCommandKeys = commands.length := by
  have hviews := congrArg length h.places
  have hkeys : (st.commands.map view).countP (fun w => w.2.2.isNone) = commands.countP fun command => command.pairingKey?.isNone := by
    have hpairs := congrArg (countP fun pair : Nat × Option (Int × Int) => pair.2.isNone) h.places
    simp only [countP_map, comp_def] at hpairs ⊢
    exact hpairs
  have hparts := length_eq_counts h.keyed
  simp only [length_map] at hviews hparts
  rw [← hviews, hparts, h.count, unmatched_eq, h.missing, hseen, hkeys]

/-- After all events, when nothing was wrong: nothing is unmatched exactly when nothing is pending. -/
theorem Tracked.unmatched_iff (h : Tracked commands seen st) (herrors : errors st = 0)
    (hseen : ∀ command ∈ commands, ∃ event ∈ seen, event.value = .command command) :
    (pairingOf st).unmatchedCommands = 0 ↔ ∀ key, st.pending key = none := by
  rw [unmatched_eq, countP_eq_zero]
  constructor
  · intro hnone key
    by_contra hpending
    obtain ⟨command, hcommand⟩ := ne_none_iff_exists'.mp hpending
    obtain ⟨hmem, hkey, -, hopen⟩ := h.pending key command hcommand
    have hpair : (command.sourceSeq, command.pairingKey?) ∈ (st.commands.map view).map fun w => (w.1, w.2.2) := by
      rw [h.places]
      exact mem_map.mpr ⟨command, hmem, rfl⟩
    obtain ⟨w, hw, heq⟩ := mem_map.mp hpair
    obtain ⟨hplace, hkey'⟩ := Prod.mk.inj heq
    refine hnone w hw ?_
    rw [hopen w hw hplace, hkey', hkey]
    rfl
  · intro hnone w hw hboth
    have hplace : w.1 ∈ commands.map StreamCommand.sourceSeq := by
      rw [← h.fst]
      exact mem_map_of_mem hw
    obtain ⟨command, hcommand, hsame⟩ := mem_map.mp hplace
    obtain ⟨event, hevent, hvalue⟩ := hseen command hcommand
    rcases h.settled herrors event hevent command hvalue with ⟨key, hkey⟩ | hdone
    · rw [hnone key] at hkey
      cases hkey
    · have hsome := hdone w hw hsame.symm
      rw [Bool.and_eq_true, isNone_iff_eq_none] at hboth
      rw [hboth.1] at hsome
      cases hsome

/-- The pairing is complete when nothing was wrong and nothing is unmatched: all commands are paired then. -/
theorem complete_iff (hcounts : st.paired + (pairingOf st).unmatchedCommands + st.missingCommandKeys = commands.length)
    (hlength : st.commands.length = commands.length) :
    (pairingOf st).complete = true ↔ errors st = 0 ∧ (pairingOf st).unmatchedCommands = 0 := by
  have hcomplete : (pairingOf st).complete = true ↔ st.paired = st.commands.length ∧ st.orphanCompletions = 0 ∧ st.ambiguousReuse = 0 ∧
      st.invalidLatency = 0 ∧ st.missingCommandKeys = 0 ∧ (pairingOf st).unmatchedCommands = 0 := decide_eq_true_iff
  rw [hcomplete, errors]
  omega

end PairingAux

end EbpfSyscall.CompareStreams
