import EbpfSyscall.Kvio.CoordinatorRun
import EbpfSyscall.Lemmas.Coordinator

/-!
# Invariants of the coordinator

What the threads of the connections keep (`ThreadInv`) and, from that, what the main thread can rely on in each of its phases
(`MainInv`): the event is set only when every client is ready, from then on nobody gets a slot, and nobody who was turned away before
the final check goes unnoticed.
-/

namespace EbpfSyscall.Kvio

open Checked Coordinator CoordinatorState List Assoc

/-- The events that the threads of the connections record. -/
def RunEvent.FromSession : RunEvent → Prop
  | .claimed _ => True
  | .turnedAway _ => True
  | .ready _ => True
  | .notReady _ => True
  | _ => False

/-- What ties the threads of the connections to the tables and to what happened. -/
structure ThreadInv (co : Coordination) (s : CoordinatorState) : Prop where
  slots : ∀ i c, (s.sessions i).client? = some c → s.conns.get c = some i
  known : ∀ c ∈ s.conns.keys, c ∈ co.shards.keys
  claims : ∀ c, s.log.count (.claimed c) = if c ∈ s.conns.keys then 1 else 0
  readies : ∃ clients : List Text, clients.Nodup ∧ clients.length = s.readyCount ∧ ∀ c ∈ clients, ∃ i, s.sessions i = .ready c
  answered : ∀ i c, s.sessions i = .answered c ∨ s.sessions i = .probing c ∨ s.sessions i = .ready c → .ready c ∈ s.log
  refused : ∀ c, .notReady c ∈ s.log → c ∈ s.conns.keys ∧ ∀ i, (s.sessions i).client? = some c → ∃ reply, s.sessions i = .refusing c reply
  event : s.readyEvent = true → co.clients.length ≤ s.readyCount
  turned : ∀ c, .turnedAway c ∈ s.log → c ∈ s.failures.keys

/-- Every client has a thread that is ready. -/
def AllReady (co : Coordination) (s : CoordinatorState) : Prop := ∀ c ∈ co.clients, ∃ i, s.sessions i = .ready c

/-- The run was started after every client had been ready. -/
structure Underway (co : Coordination) (s : CoordinatorState) : Prop where
  allReady : AllReady co s
  inOrder : ∃ before after, s.log = before ++ after ∧ (∀ c ∈ co.clients, .ready c ∈ before) ∧
    ∀ c, .started c ∉ before ∧ .done c ∉ before

/-- What has been received when these connections are left. -/
structure Received (co : Coordination) (s : CoordinatorState) (rest : List (Text × Nat)) (status : RunStatus) : Prop where
  underway : Underway co s
  started : ∀ conn ∈ s.conns.entries, .started conn.1 ∈ s.log
  honest : ∀ c report, s.results.get c = some report → c ∈ s.conns.keys ∧ co.Reports c report
  done : ∃ front, s.conns.entries = front ++ rest ∧
    (status = .complete → ∀ conn ∈ front, conn.1 ∈ s.results.keys ∧ .done conn.1 ∈ s.log)
  noneFailed : status = .complete → ∀ c, .noResult c ∉ s.log

/-- The final check has been made, and if the status is still complete it found nothing. -/
structure FinallyChecked (s : CoordinatorState) (status : RunStatus) : Prop where
  checked : .finalCheck ∈ s.log
  noneTurnedAway : status = .complete → ∀ c, .turnedAway c ∉ s.log.takeWhile (· ≠ .finalCheck)

/-- What the main thread can rely on. -/
def MainInv (co : Coordination) (s : CoordinatorState) : MainThread → Prop
  | .waiting => (∀ e ∈ s.log, e.FromSession) ∧ s.results = .empty
  | .checkMissing => (∀ e ∈ s.log, e.FromSession) ∧ s.results = .empty
  | .checkFailures => (∀ e ∈ s.log, e.FromSession) ∧ s.results = .empty
  | .checkReady => (∀ e ∈ s.log, e.FromSession) ∧ s.results = .empty
  | .aborting _ => True
  | .starting rest => Underway co s ∧ s.results = .empty ∧ (∀ c, .noResult c ∉ s.log) ∧ .finalCheck ∉ s.log ∧
      ∃ front, s.conns.entries = front ++ rest ∧ ∀ conn ∈ front, .started conn.1 ∈ s.log
  | .receiving rest status => Received co s rest status ∧ .finalCheck ∉ s.log
  | .endProbing _ rest status => Received co s rest status ∧ .finalCheck ∉ s.log
  | .finalCheck status => Received co s [] status ∧ .finalCheck ∉ s.log
  | .merging status => Received co s [] status ∧ FinallyChecked s status
  | .ended status rows => status = .complete → Received co s [] status ∧ FinallyChecked s status ∧
      ∃ offsetNs, rows = merge s.startCoordinatorNs s.results.entries offsetNs
  | .raised => True

namespace CoordinatorRunAux

variable {co : Coordination} {s t : CoordinatorState} {i : Nat} {client : Text} {session : Session} {events : List RunEvent}

theorem mem_shards : client ∈ co.shards.keys ↔ client ∈ co.clients := by
  obtain ⟨owner, h⟩ := shardWorkload_eq_ok co.accepted
  rw [mem_keys_iff]
  constructor
  · rintro ⟨shard, hget⟩
    exact h.mem_clients hget
  · intro hclient
    obtain ⟨shard, -, hget⟩ := h.shards_get hclient
    exact ⟨shard, hget⟩

/-! ## The threads of the connections -/

/-- A thread may stay, leave its client unless it is ready, or take the lock. -/
def Stays (x y : Session) : Prop :=
  y = x ∨ (y.client? = none ∧ ∀ c, x ≠ .ready c) ∨ ∃ c, x = .answered c ∧ y = .probing c

theorem Stays.client? {x y : Session} (h : Stays x y) {c : Text} (hy : y.client? = some c) : x.client? = some c := by
  rcases h with rfl | ⟨hnone, -⟩ | ⟨c', rfl, rfl⟩
  · exact hy
  · rw [hnone] at hy
    cases hy
  · exact hy

theorem Stays.ready {x y : Session} (h : Stays x y) {c : Text} (hx : x = .ready c) : y = .ready c := by
  rcases h with rfl | ⟨-, hne⟩ | ⟨c', rfl, rfl⟩
  · exact hx
  · exact absurd hx (hne c)
  · cases hx

@[simp] theorem sessions_goTo_self (s : CoordinatorState) (i : Nat) (session : Session) : (s.goTo i session).sessions i = session :=
  Function.update_self _ _ _

theorem sessions_goTo_of_ne (s : CoordinatorState) {i j : Nat} (h : j ≠ i) (session : Session) : (s.goTo i session).sessions j = s.sessions j :=
  Function.update_of_ne h _ _

theorem stays_goTo (h : Stays (s.sessions i) session) (j : Nat) : Stays (s.sessions j) ((s.goTo i session).sessions j) := by
  by_cases heq : j = i
  · subst heq
    rwa [sessions_goTo_self]
  · rw [sessions_goTo_of_ne _ heq]
    exact Or.inl rfl

/-- A step that gives no slot, reads no answer and makes nobody ready. -/
theorem threadInv_stays (h : ThreadInv co s) (hconns : t.conns = s.conns) (hcount : t.readyCount = s.readyCount)
    (hevent : t.readyEvent = s.readyEvent) (hfailures : ∀ c ∈ s.failures.keys, c ∈ t.failures.keys)
    (hlog : t.log = s.log ++ events)
    (hevents : ∀ e ∈ events, ∀ c, e ≠ .claimed c ∧ e ≠ .notReady c ∧ (e = .turnedAway c → c ∈ t.failures.keys))
    (hsessions : ∀ j, Stays (s.sessions j) (t.sessions j)) : ThreadInv co t := by
  refine ⟨?_, ?_, ?_, ?_, ?_, ?_, ?_, ?_⟩
  · intro j c hclient
    rw [hconns]
    exact h.slots j c ((hsessions j).client? hclient)
  · rw [hconns]
    exact h.known
  · intro c
    have hnone : events.count (.claimed c) = 0 := count_eq_zero.mpr fun hin => (hevents _ hin c).1 rfl
    rw [hlog, count_append, hnone, hconns, h.claims]
    rfl
  · obtain ⟨clients, hnodup, hlength, hready⟩ := h.readies
    refine ⟨clients, hnodup, hlength.trans hcount.symm, fun c hc => ?_⟩
    obtain ⟨j, hj⟩ := hready c hc
    exact ⟨j, (hsessions j).ready hj⟩
  · intro j c hor
    rw [hlog]
    refine mem_append_left _ (h.answered j c ?_)
    rcases hsessions j with heq | ⟨hnone, -⟩ | ⟨c', hx, hy⟩
    · rwa [heq] at hor
    · rcases hor with hor | hor | hor <;> · rw [hor] at hnone; cases hnone
    · rw [hy] at hor
      simp only [reduceCtorEq, false_or, or_false, Session.probing.injEq] at hor
      exact Or.inl (hor ▸ hx)
  · intro c hin
    rw [hlog] at hin
    have hbefore : .notReady c ∈ s.log := by
      rcases mem_append.mp hin with hin | hin
      · exact hin
      · exact absurd rfl (hevents _ hin c).2.1
    obtain ⟨hclaimed, hrefusing⟩ := h.refused c hbefore
    refine ⟨hconns ▸ hclaimed, fun j hj => ?_⟩
    obtain ⟨reply, hreply⟩ := hrefusing j ((hsessions j).client? hj)
    rcases hsessions j with heq | ⟨hnone, -⟩ | ⟨c', hx, -⟩
    · exact ⟨reply, heq.trans hreply⟩
    · rw [hnone] at hj
      cases hj
    · rw [hx] at hreply
      cases hreply
  · intro hset
    rw [hcount]
    exact h.event (hevent ▸ hset)
  · intro c hin
    rw [hlog] at hin
    rcases mem_append.mp hin with hin | hin
    · exact hfailures c (h.turned c hin)
    · exact (hevents _ hin c).2.2 rfl

theorem keys_fail {c : Text} {failure : Failure} : ∀ c' ∈ s.failures.keys, c' ∈ (s.fail c failure).failures.keys :=
  fun _ hin => mem_keys_set.mpr (Or.inr hin)

/-- Two threads do not work for the same client. -/
theorem thread_unique (h : ThreadInv co s) {j : Nat} (hi : (s.sessions i).client? = some client)
    (hj : (s.sessions j).client? = some client) : i = j :=
  Option.some.inj ((h.slots i client hi).symm.trans (h.slots j client hj))

theorem mem_log_of_ne {log : List RunEvent} {e event : RunEvent} (h : e ∈ log ++ [event]) (hne : e ≠ event) : e ∈ log := by
  rcases mem_append.mp h with hin | hin
  · exact hin
  · exact absurd (mem_singleton.mp hin) hne

theorem threadInv_claim (h : ThreadInv co s) (hsession : s.sessions i = .arriving client) (hknown : client ∈ co.shards.keys)
    (hfree : client ∉ s.conns.keys) :
    ThreadInv co (({ s with conns := s.conns.set client i }.record (.claimed client)).goTo i (.claimed client)) := by
  have hother : ∀ {j c}, j ≠ i →
      (({ s with conns := s.conns.set client i }.record (.claimed client)).goTo i (.claimed client)).sessions j = c → s.sessions j = c :=
    fun hne hc => (sessions_goTo_of_ne _ hne _).symm.trans hc
  have hne : ∀ {c}, c ∈ s.conns.keys → c ≠ client := fun hin heq => hfree (heq ▸ hin)
  have hclaimed : ∀ {j c}, (s.sessions j).client? = some c → c ∈ s.conns.keys := fun hj =>
    mem_keys_iff.mpr ⟨_, h.slots _ _ hj⟩
  refine ⟨?_, ?_, ?_, ?_, ?_, ?_, h.event, ?_⟩
  · intro j c hj
    show (s.conns.set client i).get c = some j
    by_cases heq : j = i
    · rw [heq, sessions_goTo_self] at hj
      cases hj
      rw [heq, get_set_self]
    · rw [hother heq rfl |> congrArg Session.client? |>.symm] at hj
      rw [get_set_of_ne _ (hne (hclaimed hj))]
      exact h.slots j c hj
  · intro c hc
    rcases mem_keys_set.mp hc with rfl | hc
    · exact hknown
    · exact h.known c hc
  · intro c
    show (s.log ++ [RunEvent.claimed client]).count (RunEvent.claimed c) = if c ∈ (s.conns.set client i).keys then 1 else 0
    rw [count_append, h.claims]
    by_cases heq : c = client
    · subst heq
      simp [hfree, mem_keys_set]
    · have hne' : client ≠ c := fun hsame => heq hsame.symm
      simp [heq, hne', mem_keys_set]
  · obtain ⟨clients, hnodup, hlength, hready⟩ := h.readies
    refine ⟨clients, hnodup, hlength, fun c hc => ?_⟩
    obtain ⟨j, hj⟩ := hready c hc
    refine ⟨j, ?_⟩
    rw [sessions_goTo_of_ne _ (fun heq => by rw [heq, hsession] at hj; cases hj)]
    exact hj
  · intro j c hor
    by_cases heq : j = i
    · rw [heq, sessions_goTo_self] at hor
      simp at hor
    · refine mem_append_left _ (h.answered j c ?_)
      rwa [sessions_goTo_of_ne _ heq] at hor
  · intro c hin
    obtain ⟨hc, hrefusing⟩ := h.refused c (mem_log_of_ne hin (by simp))
    refine ⟨mem_keys_set.mpr (Or.inr hc), fun j hj => ?_⟩
    by_cases heq : j = i
    · rw [heq, sessions_goTo_self] at hj
      exact absurd (Option.some.inj hj).symm (hne hc)
    · rw [sessions_goTo_of_ne _ heq] at hj ⊢
      exact hrefusing j hj
  · intro c hin
    exact h.turned c (mem_log_of_ne hin (by simp))

/-- A client that has the slot answers. -/
theorem threadInv_answer (h : ThreadInv co s) (hsession : s.sessions i = .claimed client) {event : RunEvent}
    (hanswer : event = .ready client ∧ session = .answered client ∨
      event = .notReady client ∧ ∃ reply, session = .refusing client reply) :
    ThreadInv co ((s.record event).goTo i session) := by
  have hclient : (s.sessions i).client? = some client := by rw [hsession]; rfl
  have hsame : session.client? = some client := by
    rcases hanswer with ⟨-, rfl⟩ | ⟨-, reply, rfl⟩ <;> rfl
  have hevent : (∀ c, RunEvent.claimed c ≠ event) ∧ ∀ c, RunEvent.turnedAway c ≠ event := by
    rcases hanswer with ⟨rfl, -⟩ | ⟨rfl, -⟩ <;> simp
  have hbefore : ∀ j c, (((s.record event).goTo i session).sessions j).client? = some c → (s.sessions j).client? = some c := by
    intro j c hj
    by_cases heq : j = i
    · rw [heq, sessions_goTo_self, hsame] at hj
      rw [heq, hclient, hj]
    · rwa [sessions_goTo_of_ne _ heq] at hj
  refine ⟨fun j c hj => h.slots j c (hbefore j c hj), h.known, ?_, ?_, ?_, ?_, h.event, ?_⟩
  · intro c
    show (s.log ++ [event]).count (.claimed c) = _
    have hnone : [event].count (.claimed c) = 0 := count_eq_zero.mpr (by simpa using hevent.1 c)
    rw [count_append, hnone]
    exact h.claims c
  · obtain ⟨clients, hnodup, hlength, hready⟩ := h.readies
    refine ⟨clients, hnodup, hlength, fun c hc => ?_⟩
    obtain ⟨j, hj⟩ := hready c hc
    refine ⟨j, ?_⟩
    rw [sessions_goTo_of_ne _ (fun heq => by rw [heq, hsession] at hj; cases hj)]
    exact hj
  · intro j c hor
    by_cases heq : j = i
    · rw [heq, sessions_goTo_self] at hor
      rcases hanswer with ⟨rfl, rfl⟩ | ⟨-, reply, rfl⟩
      · simp only [Session.answered.injEq, reduceCtorEq, or_false] at hor
        exact mem_append_right _ (by simp [hor])
      · simp at hor
    · rw [sessions_goTo_of_ne _ heq] at hor
      exact mem_append_left _ (h.answered j c hor)
  · intro c hin
    rcases mem_append.mp (show RunEvent.notReady c ∈ s.log ++ [event] from hin) with hold | hnew
    · obtain ⟨hc, hrefusing⟩ := h.refused c hold
      refine ⟨hc, fun j hj => ?_⟩
      obtain ⟨reply, hreply⟩ := hrefusing j (hbefore j c hj)
      rw [sessions_goTo_of_ne _ (fun heq => by rw [heq, hsession] at hreply; cases hreply)]
      exact ⟨reply, hreply⟩
    · rcases hanswer with ⟨rfl, -⟩ | ⟨rfl, reply, rfl⟩
      · simp at hnew
      · obtain rfl : c = client := RunEvent.notReady.inj (mem_singleton.mp hnew)
        refine ⟨mem_keys_iff.mpr ⟨i, h.slots i c hclient⟩, fun j hj => ?_⟩
        obtain rfl := thread_unique h hclient (hbefore j c hj)
        exact ⟨reply, sessions_goTo_self _ _ _⟩
  · intro c hin
    exact h.turned c (mem_log_of_ne hin (hevent.2 c))

theorem threadInv_probed (h : ThreadInv co s) (hsession : s.sessions i = .probing client) (clock : Clock) :
    ThreadInv co ({ s.markReady client clock co.clients with lock := none }.goTo i (.ready client)) := by
  have hclient : (s.sessions i).client? = some client := by rw [hsession]; rfl
  have hbefore : ∀ j c, (({ s.markReady client clock co.clients with lock := none }.goTo i (.ready client)).sessions j).client? = some c →
      (s.sessions j).client? = some c := by
    intro j c hj
    by_cases heq : j = i
    · rw [heq, sessions_goTo_self] at hj
      rw [heq, hclient]
      exact hj
    · rwa [sessions_goTo_of_ne _ heq] at hj
  refine ⟨fun j c hj => h.slots j c (hbefore j c hj), h.known, h.claims, ?_, ?_, ?_, ?_, h.turned⟩
  · obtain ⟨clients, hnodup, hlength, hready⟩ := h.readies
    have hnew : client ∉ clients := by
      intro hin
      obtain ⟨j, hj⟩ := hready client hin
      obtain rfl := thread_unique h hclient (show (s.sessions j).client? = some client by rw [hj]; rfl)
      rw [hsession] at hj
      cases hj
    refine ⟨client :: clients, nodup_cons.mpr ⟨hnew, hnodup⟩, congrArg (· + 1) hlength, fun c hc => ?_⟩
    rcases mem_cons.mp hc with rfl | hc
    · exact ⟨i, sessions_goTo_self _ _ _⟩
    · obtain ⟨j, hj⟩ := hready c hc
      refine ⟨j, ?_⟩
      rw [sessions_goTo_of_ne _ (fun heq => by rw [heq, hsession] at hj; cases hj)]
      exact hj
  · intro j c hor
    by_cases heq : j = i
    · rw [heq, sessions_goTo_self] at hor
      simp only [reduceCtorEq, Session.ready.injEq, false_or] at hor
      exact h.answered i c (Or.inr (Or.inl (hor ▸ hsession)))
    · rw [sessions_goTo_of_ne _ heq] at hor
      exact h.answered j c hor
  · intro c hin
    obtain ⟨hc, hrefusing⟩ := h.refused c hin
    refine ⟨hc, fun j hj => ?_⟩
    obtain ⟨reply, hreply⟩ := hrefusing j (hbefore j c hj)
    rw [sessions_goTo_of_ne _ (fun heq => by rw [heq, hsession] at hreply; cases hreply)]
    exact ⟨reply, hreply⟩
  · intro hset
    show co.clients.length ≤ s.readyCount + 1
    rcases Bool.or_eq_true_iff.mp hset with hset | hset
    · exact (h.event hset).trans (Nat.le_succ _)
    · exact (of_decide_eq_true hset).ge

theorem threadInv_sessionStep (h : ThreadInv co s) (hstep : SessionStep co i s t) : ThreadInv co t := by
  cases hstep with
  | accept hsession | hello client hsession | noHello hsession | unknown hsession hlock hunknown =>
    exact threadInv_stays h rfl rfl rfl (fun _ hin => hin) (append_nil _).symm (by simp)
      (stays_goTo (Or.inr (Or.inl ⟨rfl, by simp [hsession]⟩)))
  | @turnAway client hsession hlock hknown htaken =>
    refine threadInv_stays h rfl rfl rfl keys_fail rfl ?_ (stays_goTo (Or.inr (Or.inl ⟨rfl, ?_⟩)))
    · intro e hin c
      obtain rfl := mem_singleton.mp hin
      refine ⟨by simp, by simp, fun heq => ?_⟩
      cases heq
      exact mem_keys_set.mpr (Or.inl rfl)
    · show ∀ c, s.sessions i ≠ .ready c
      simp [hsession]
  | claim hsession hlock hknown hfree => exact threadInv_claim h hsession hknown hfree
  | ready hsession => exact threadInv_answer h hsession (Or.inl ⟨rfl, rfl⟩)
  | notReady hsession reply hreply => exact threadInv_answer h hsession (Or.inr ⟨rfl, reply, rfl⟩)
  | refuse hsession hlock =>
    refine threadInv_stays h rfl rfl rfl keys_fail (append_nil _).symm (by simp) (stays_goTo (Or.inr (Or.inl ⟨rfl, ?_⟩)))
    show ∀ c, s.sessions i ≠ .ready c
    simp [hsession]
  | @lock client hsession hlock =>
    exact threadInv_stays h rfl rfl rfl (fun _ hin => hin) (append_nil _).symm (by simp)
      (stays_goTo (Or.inr (Or.inr ⟨client, hsession, rfl⟩)))
  | probed hsession htrips hclock => exact threadInv_probed h hsession _
  | badPong hsession =>
    refine threadInv_stays h rfl rfl rfl (fun _ hin => hin) (append_nil _).symm (by simp)
      (stays_goTo (Or.inr (Or.inl ⟨rfl, ?_⟩)))
    show ∀ c, s.sessions i ≠ .ready c
    simp [hsession]

/-- The event is set only when every client is ready. -/
theorem allReady_of_event (h : ThreadInv co s) (hset : s.readyEvent = true) : AllReady co s := by
  obtain ⟨clients, hnodup, hlength, hready⟩ := h.readies
  have hsub : clients ⊆ co.clients := by
    intro c hc
    obtain ⟨i, hi⟩ := hready c hc
    have hclaimed := mem_keys_iff.mpr ⟨i, h.slots i c (by rw [hi]; rfl)⟩
    exact mem_shards.mp (h.known c hclaimed)
  have hperm := (hnodup.subperm hsub).perm_of_length_le (by rw [hlength]; exact h.event hset)
  exact fun c hc => hready c (hperm.mem_iff.mpr hc)

/-- What a step of a connection leaves as it is. -/
structure SessionEffect (co : Coordination) (s t : CoordinatorState) : Prop where
  main : t.main = s.main
  results : t.results = s.results
  startNs : t.startCoordinatorNs = s.startCoordinatorNs
  log : ∃ events, t.log = s.log ++ events ∧ ∀ e ∈ events, e.FromSession
  ready : ∀ j c, s.sessions j = .ready c → t.sessions j = .ready c
  conns : AllReady co s → t.conns = s.conns

theorem ready_goTo (hsession : ∀ c, s.sessions i ≠ .ready c) : ∀ j c, s.sessions j = .ready c → (s.goTo i session).sessions j = .ready c := by
  intro j c hj
  have hne : j ≠ i := fun heq => hsession c (heq ▸ hj)
  rw [sessions_goTo_of_ne _ hne]
  exact hj

theorem sessionEffect (h : ThreadInv co s) (hstep : SessionStep co i s t) : SessionEffect co s t := by
  cases hstep with
  | accept hsession | hello client hsession | noHello hsession | unknown hsession hlock hunknown =>
    exact ⟨rfl, rfl, rfl, ⟨[], (append_nil _).symm, by simp⟩, ready_goTo (by simp [hsession]), fun _ => rfl⟩
  | turnAway hsession hlock hknown htaken =>
    refine ⟨rfl, rfl, rfl, ⟨_, rfl, by simp [RunEvent.FromSession]⟩, ready_goTo (i := i) (s := (s.fail _ _).record _) ?_, fun _ => rfl⟩
    exact fun c heq => by cases hsession.symm.trans heq
  | @claim client hsession hlock hknown hfree =>
    refine ⟨rfl, rfl, rfl, ⟨_, rfl, by simp [RunEvent.FromSession]⟩, ready_goTo (i := i) (s := { s with conns := _ }.record _) ?_, ?_⟩
    · exact fun c heq => by cases hsession.symm.trans heq
    · -- Every client has a thread and with it its slot.
      intro hall
      obtain ⟨j, hj⟩ := hall client (mem_shards.mp hknown)
      exact absurd (mem_keys_iff.mpr ⟨j, h.slots j client (by rw [hj]; rfl)⟩) hfree
  | ready hsession | notReady hsession reply hreply =>
    refine ⟨rfl, rfl, rfl, ⟨_, rfl, by simp [RunEvent.FromSession]⟩, ready_goTo (i := i) (s := s.record _) ?_, fun _ => rfl⟩
    exact fun c heq => by cases hsession.symm.trans heq
  | refuse hsession hlock =>
    refine ⟨rfl, rfl, rfl, ⟨[], (append_nil _).symm, by simp⟩, ready_goTo (i := i) (s := s.fail _ _) ?_, fun _ => rfl⟩
    exact fun c heq => by cases hsession.symm.trans heq
  | lock hsession hlock | badPong hsession =>
    refine ⟨rfl, rfl, rfl, ⟨[], (append_nil _).symm, by simp⟩, ready_goTo (i := i) (s := { s with lock := _ }) ?_, fun _ => rfl⟩
    exact fun c heq => by cases hsession.symm.trans heq
  | probed hsession htrips hclock =>
    refine ⟨rfl, rfl, rfl, ⟨[], (append_nil _).symm, by simp⟩,
      ready_goTo (i := i) (s := { s.markReady _ _ _ with lock := _ }) ?_, fun _ => rfl⟩
    exact fun c heq => by cases hsession.symm.trans heq

/-! ## The main thread -/

/-- The log grows by events that are no starts and no results of the time before the start. -/
theorem underway_mono (h : Underway co s) (hready : ∀ j c, s.sessions j = .ready c → t.sessions j = .ready c)
    (hlog : t.log = s.log ++ events) : Underway co t := by
  refine ⟨fun c hc => ?_, ?_⟩
  · obtain ⟨j, hj⟩ := h.allReady c hc
    exact ⟨j, hready j c hj⟩
  · obtain ⟨before, after, heq, hbefore⟩ := h.inOrder
    exact ⟨before, after ++ events, by rw [hlog, heq, append_assoc], hbefore⟩

theorem received_mono {rest : List (Text × Nat)} {status : RunStatus} (h : Received co s rest status)
    (hready : ∀ j c, s.sessions j = .ready c → t.sessions j = .ready c) (hconns : t.conns = s.conns) (hresults : t.results = s.results) (hlog : t.log = s.log ++ events) (hevents : ∀ c, .noResult c ∉ events) : Received co t rest status := by
  refine ⟨underway_mono h.underway hready hlog, ?_, ?_, ?_, ?_⟩
  · rw [hconns, hlog]
    exact fun conn hin => mem_append_left _ (h.started conn hin)
  · rw [hconns, hresults]
    exact h.honest
  · obtain ⟨front, hfront, hdone⟩ := h.done
    rw [hconns, hresults, hlog]
    refine ⟨front, hfront, fun hstatus conn hin => ?_⟩
    obtain ⟨hresult, hlogged⟩ := hdone hstatus conn hin
    exact ⟨hresult, mem_append_left _ hlogged⟩
  · intro hstatus c hin
    rw [hlog] at hin
    rcases mem_append.mp hin with hin | hin
    · exact h.noneFailed hstatus c hin
    · exact hevents c hin

theorem finallyChecked_mono {status : RunStatus} (h : FinallyChecked s status) (hlog : t.log = s.log ++ events) : FinallyChecked t status := by
  have hsame : t.log.takeWhile (· ≠ .finalCheck) = s.log.takeWhile (· ≠ .finalCheck) := by
    rw [hlog, takeWhile_append, if_neg]
    intro hlength
    have hall := takeWhile_eq_self_iff.mp ((List.takeWhile_prefix _).eq_of_length hlength)
    simpa using hall _ h.checked
  refine ⟨?_, ?_⟩
  · rw [hlog]
    exact mem_append_left _ h.checked
  · rw [hsame]
    exact h.noneTurnedAway

theorem mainInv_sessionStep (h : ThreadInv co s) (hmain : MainInv co s s.main) (hstep : SessionStep co i s t) : MainInv co t t.main := by
  obtain ⟨hsame, hresults, hstart, ⟨events, hlog, hevents⟩, hready, hconns⟩ := sessionEffect h hstep
  have hfromSession : (∀ e ∈ s.log, e.FromSession) → ∀ e ∈ t.log, e.FromSession := by
    intro hold e hin
    rw [hlog] at hin
    rcases mem_append.mp hin with hin | hin
    · exact hold e hin
    · exact hevents e hin
  have hnoResult : ∀ c, .noResult c ∉ events := fun c hin => hevents _ hin
  have hunchecked : .finalCheck ∉ s.log → .finalCheck ∉ t.log := by
    intro hold hin
    rw [hlog] at hin
    rcases mem_append.mp hin with hin | hin
    · exact hold hin
    · exact hevents _ hin
  have hreceived : ∀ {rest status}, Received co s rest status → Received co t rest status := fun hold =>
    received_mono hold hready (hconns hold.underway.allReady) hresults hlog hnoResult
  rw [hsame]
  cases hphase : s.main with
  | waiting | checkMissing | checkFailures | checkReady =>
    rw [hphase] at hmain
    exact ⟨hfromSession hmain.1, hresults.trans hmain.2⟩
  | aborting missing => trivial
  | starting rest =>
    rw [hphase] at hmain
    obtain ⟨hunderway, hempty, hnone, hunchecked', front, hfront, hstarted⟩ := hmain
    refine ⟨underway_mono hunderway hready hlog, hresults.trans hempty, fun c hin => ?_, hunchecked hunchecked', front, ?_, ?_⟩
    · rw [hlog] at hin
      rcases mem_append.mp hin with hin | hin
      · exact hnone c hin
      · exact hnoResult c hin
    · rw [hconns hunderway.allReady]
      exact hfront
    · rw [hlog]
      exact fun conn hin => mem_append_left _ (hstarted conn hin)
  | receiving rest status | endProbing client rest status | finalCheck status =>
    rw [hphase] at hmain
    exact ⟨hreceived hmain.1, hunchecked hmain.2⟩
  | merging status =>
    rw [hphase] at hmain
    exact ⟨hreceived hmain.1, finallyChecked_mono hmain.2 hlog⟩
  | ended status rows =>
    rw [hphase] at hmain
    intro hstatus
    obtain ⟨hold, hchecked, hrows⟩ := hmain hstatus
    refine ⟨hreceived hold, finallyChecked_mono hchecked hlog, ?_⟩
    rw [hresults, hstart]
    exact hrows
  | raised => trivial

theorem threadInv_mainStep (h : ThreadInv co s) (hstep : MainStep co s t) : ThreadInv co t := by
  cases hstep with
  | send | done | clean | unclean => exact threadInv_stays h rfl rfl rfl (fun _ hin => hin) rfl (by simp) fun _ => Or.inl rfl
  | noResult => exact threadInv_stays h rfl rfl rfl keys_fail rfl (by simp) fun _ => Or.inl rfl
  | _ => exact threadInv_stays h rfl rfl rfl (fun _ hin => hin) (append_nil _).symm (by simp) fun _ => Or.inl rfl

theorem mainInv_mainStep (h : ThreadInv co s) (hmain : MainInv co s s.main) (hstep : MainStep co s t) : MainInv co t t.main := by
  cases hstep with
  | wait hphase | allClaimed hphase | noFailure hphase =>
    rw [hphase] at hmain
    exact hmain
  | missing hphase | failed hphase | timeout hphase | abortRaise hphase | endRaise hphase | mergeRaise hphase hclock => trivial
  | start startNs hphase hready =>
    rw [hphase] at hmain
    obtain ⟨hlog, hempty⟩ := hmain
    have hall := allReady_of_event h hready
    have hnone : ∀ e ∈ s.log, (∀ c, e ≠ .started c) ∧ (∀ c, e ≠ .done c) ∧ (∀ c, e ≠ .noResult c) ∧ e ≠ .finalCheck := by
      intro e hin
      have hfrom := hlog e hin
      cases e <;> simp_all [RunEvent.FromSession]
    refine ⟨⟨hall, s.log, [], (append_nil _).symm, ?_, ?_⟩, hempty, ?_, ?_, [], rfl, by simp⟩
    · intro c hc
      obtain ⟨i, hi⟩ := hall c hc
      exact h.answered i c (Or.inr (Or.inr hi))
    · exact fun c => ⟨fun hin => (hnone _ hin).1 c rfl, fun hin => (hnone _ hin).2.1 c rfl⟩
    · exact fun c hin => (hnone _ hin).2.2.1 c rfl
    · exact fun hin => (hnone _ hin).2.2.2 rfl
  | abort hphase => exact fun hstatus => by cases hstatus
  | @send client i rest hphase =>
    rw [hphase] at hmain
    obtain ⟨hunderway, hempty, hnone, hunchecked, front, hfront, hstarted⟩ := hmain
    refine ⟨underway_mono hunderway (fun _ _ hj => hj) rfl, hempty, ?_, ?_, front ++ [(client, i)], ?_, ?_⟩
    · exact fun c hin => hnone c (mem_log_of_ne hin (by simp))
    · exact fun hin => hunchecked (mem_log_of_ne hin (by simp))
    · show s.conns.entries = _
      rw [hfront, append_assoc]
      rfl
    · intro conn hin
      rcases mem_append.mp hin with hin | hin
      · exact mem_append_left _ (hstarted conn hin)
      · rw [mem_singleton.mp hin]
        exact mem_append_right _ (mem_singleton.mpr rfl)
  | sent hphase =>
    rw [hphase] at hmain
    obtain ⟨hunderway, hempty, hnone, hunchecked, front, hfront, hstarted⟩ := hmain
    refine ⟨⟨underway_mono hunderway (fun _ _ hj => hj) (append_nil _).symm, ?_, ?_, ⟨[], rfl, by simp⟩,
      fun _ => hnone⟩, hunchecked⟩
    · show ∀ conn ∈ s.conns.entries, _
      rw [hfront, append_nil]
      exact hstarted
    · intro c report hget
      change s.results.get c = some report at hget
      rw [hempty] at hget
      cases hget
  | @done client i rest status hphase report hreport keepOpen =>
    rw [hphase] at hmain
    obtain ⟨hreceived, hunchecked⟩ := hmain
    have hnext : Received co ({ s with results := s.results.set client report
                                       main := if keepOpen then .endProbing client rest status else .receiving rest status }.record
        (.done client)) rest status := by
      refine ⟨underway_mono hreceived.underway (fun _ _ hj => hj) rfl, ?_, ?_, ?_, ?_⟩
      · exact fun conn hin => mem_append_left _ (hreceived.started conn hin)
      · intro c other hget
        change (s.results.set client report).get c = some other at hget
        rw [get_set] at hget
        split at hget
        · rename_i heq
          obtain ⟨front, hfront, -⟩ := hreceived.done
          cases hget
          refine ⟨?_, heq ▸ hreport⟩
          show c ∈ s.conns.entries.map Prod.fst
          rw [hfront, heq]
          simp
        · exact hreceived.honest c other hget
      · obtain ⟨front, hfront, hdone⟩ := hreceived.done
        refine ⟨front ++ [(client, i)], ?_, ?_⟩
        · show s.conns.entries = _
          rw [hfront, append_assoc]
          rfl
        · intro hstatus conn hin
          rcases mem_append.mp hin with hin | hin
          · obtain ⟨hresult, hlogged⟩ := hdone hstatus conn hin
            exact ⟨mem_keys_set.mpr (Or.inr hresult), mem_append_left _ hlogged⟩
          · rw [mem_singleton.mp hin]
            exact ⟨mem_keys_set.mpr (Or.inl rfl), mem_append_right _ (mem_singleton.mpr rfl)⟩
      · exact fun hstatus c hin => hreceived.noneFailed hstatus c (mem_log_of_ne hin (by simp))
    have hnotChecked : .finalCheck ∉ s.log ++ [RunEvent.done client] := fun hin => hunchecked (mem_log_of_ne hin (by simp))
    cases keepOpen with
    | true | false => exact ⟨hnext, hnotChecked⟩
  | @noResult client i rest status hphase reply hreply =>
    rw [hphase] at hmain
    obtain ⟨hreceived, hunchecked⟩ := hmain
    refine ⟨⟨underway_mono hreceived.underway (fun _ _ hj => hj) rfl, ?_, hreceived.honest, ?_, by simp⟩, ?_⟩
    · exact fun conn hin => mem_append_left _ (hreceived.started conn hin)
    · obtain ⟨front, hfront, -⟩ := hreceived.done
      refine ⟨front ++ [(client, i)], ?_, by simp⟩
      show s.conns.entries = _
      rw [hfront, append_assoc]
      rfl
    · exact fun hin => hunchecked (mem_log_of_ne hin (by simp))
  | endProbed hphase htrips hlast hfirst | received hphase =>
    rw [hphase] at hmain
    exact ⟨received_mono hmain.1 (fun _ _ hj => hj) rfl rfl (append_nil _).symm (by simp), hmain.2⟩
  | @clean status hphase hfailures =>
    rw [hphase] at hmain
    refine ⟨received_mono hmain.1 (fun _ _ hj => hj) rfl rfl rfl (by simp), mem_append_right _ (mem_singleton.mpr rfl), ?_⟩
    intro _ c hin
    have hkey := h.turned c (mem_log_of_ne ((takeWhile_sublist _).subset hin) (by simp))
    rw [Assoc.keys, hfailures] at hkey
    cases hkey
  | @unclean status hphase hfailures =>
    rw [hphase] at hmain
    obtain ⟨front, hfront, -⟩ := hmain.1.done
    exact ⟨⟨underway_mono hmain.1.underway (fun _ _ hj => hj) rfl,
      fun conn hin => mem_append_left _ (hmain.1.started conn hin), hmain.1.honest, ⟨front, hfront, by simp⟩, by simp⟩,
      mem_append_right _ (mem_singleton.mpr rfl), by simp⟩
  | merge hphase hclock =>
    rw [hphase] at hmain
    intro hstatus
    exact ⟨received_mono hmain.1 (fun _ _ hj => hj) rfl rfl (append_nil _).symm (by simp), finallyChecked_mono hmain.2 (append_nil _).symm, _, rfl⟩

/-- Both invariants hold in every state that can be reached. -/
theorem inv_of_reaches (hreach : co.Reaches s) : ThreadInv co s ∧ MainInv co s s.main := by
  induction hreach with
  | refl =>
    refine ⟨⟨?_, ?_, ?_, ⟨[], nodup_nil, rfl, by simp⟩, ?_, ?_, ?_, ?_⟩, ?_, rfl⟩
    · exact fun i c hclient => by cases hclient
    · exact fun c hc => by cases hc
    · exact fun c => rfl
    · exact fun i c hor => by simp at hor
    · exact fun c hin => by cases hin
    · exact fun hset => by cases hset
    · exact fun c hin => by cases hin
    · exact fun e hin => by cases hin
  | tail _ hstep ih =>
    rcases hstep with ⟨i, hstep⟩ | hstep
    · exact ⟨threadInv_sessionStep ih.1 hstep, mainInv_sessionStep ih.1 ih.2 hstep⟩
    · exact ⟨threadInv_mainStep ih.1 hstep, mainInv_mainStep ih.1 ih.2 hstep⟩

end CoordinatorRunAux

end EbpfSyscall.Kvio
