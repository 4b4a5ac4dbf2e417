import EbpfSyscall.Kvio.Coordinator

/-!
# The protocol of the coordinator

`Coordinator` of `tools/kvio/coordinator.py`: one thread a connection (`_serve_client`) and the main thread (`run`), over tables that
they share. A step is what a thread does between two points at which others can come in between. What is received may be anything,
also the end of the connection; a client that says that it is done has run the shard it was sent (`run_client`). Sending does not fail.
The log says what happened, in order; the source keeps no such list.
-/

namespace EbpfSyscall.Kvio

open Checked

/-- A message from a client. -/
inductive Message where
  | hello (client : Text)
  | ready
  | done (report : Report) (keepOpen : Bool)
  /-- Any other message. -/
  | other (msg : Text)

/-- What is recorded about a client that failed. -/
inductive Failure where
  | duplicate
  | notReady (reply : Option Message)
  | noResult (reply : Option Message)
  | neverConnected

/-- The measured clock of a client. -/
structure Clock where
  offsetNs : Int
  uncertaintyNs : Int
  minRttNs : Int
  medianRttNs : Int
  endOffsetNs : Option Int := none
  driftNs : Option Int := none
  deriving DecidableEq, Repr

/-- A round trip: the clock of the coordinator before and after, and that of the client. -/
structure RoundTrip where
  t0 : Int
  t1 : Int
  tClient : Int
  deriving DecidableEq, Repr

/-- `PROBES`. -/
def probes : Nat := 25

namespace RoundTrip

def rtt (trip : RoundTrip) : Int := trip.t1 - trip.t0

/-- The clock of the client minus that of the coordinator, if both ways take the same time. -/
def offset (trip : RoundTrip) : Int := trip.tClient - (trip.t0 + trip.rtt / 2)

/-- The order of the samples, pairs of a round trip time and an offset. -/
def le (a b : RoundTrip) : Bool := a.rtt < b.rtt || (a.rtt = b.rtt && a.offset ≤ b.offset)

end RoundTrip

/-- `_probe_clock`, from the round trips: the best sample, and the median of an odd number of round trip times. -/
def probeClock (trips : List RoundTrip) : Except PyError Clock := do
  let sorted := trips.insertionSort fun a b => RoundTrip.le a b = true
  let best ← require sorted.head? (.valueError "min() arg is an empty sequence")
  let median ← require sorted[trips.length / 2]? (.valueError "no median for empty data")
  pure { offsetNs := best.offset, uncertaintyNs := best.rtt / 2, minRttNs := best.rtt, medianRttNs := median.rtt }

/-- Where the thread of a connection is. -/
inductive Session where
  /-- There is no such connection yet. -/
  | absent
  /-- The connection is open, and the hello is next. -/
  | greeting
  /-- The hello named this client, and the lock is next. -/
  | arriving (client : Text)
  /-- The connection has the slot of the client, and the answer to the shard is next. -/
  | claimed (client : Text)
  /-- The client is ready, and the lock is next. -/
  | answered (client : Text)
  /-- The client is not ready, and the lock is next. -/
  | refusing (client : Text) (reply : Option Message)
  /-- The thread has the lock and probes the clock of the client. -/
  | probing (client : Text)
  | ready (client : Text)
  | over

/-- The client whose slot the thread works for. -/
def Session.client? : Session → Option Text
  | .claimed client => some client
  | .answered client => some client
  | .refusing client _ => some client
  | .probing client => some client
  | .ready client => some client
  | _ => none

inductive RunStatus where
  | complete
  | partly
  deriving DecidableEq, Repr

/-- Where the main thread is. -/
inductive MainThread where
  /-- Waiting for the event or the timeout. -/
  | waiting
  /-- The three parts of the test whether all are ready. -/
  | checkMissing
  | checkFailures
  | checkReady
  | aborting (missing : List Text)
  /-- Sending the start to these connections. -/
  | starting (rest : List (Text × Nat))
  /-- Receiving the results from these connections. -/
  | receiving (rest : List (Text × Nat)) (status : RunStatus)
  /-- Probing the clock of a client that is done and keeps its connection open. -/
  | endProbing (client : Text) (rest : List (Text × Nat)) (status : RunStatus)
  | finalCheck (status : RunStatus)
  | merging (status : RunStatus)
  | ended (status : RunStatus) (rows : List MergedRow)
  | raised

/-- What happened. -/
inductive RunEvent where
  /-- A connection got the slot of a client. -/
  | claimed (client : Text)
  /-- A connection was turned away because the slot of its client is taken. -/
  | turnedAway (client : Text)
  | ready (client : Text)
  | notReady (client : Text)
  | started (client : Text)
  | done (client : Text)
  | noResult (client : Text)
  | finalCheck
  deriving DecidableEq, Repr

structure CoordinatorState where
  conns : Assoc Text Nat := .empty
  failures : Assoc Text Failure := .empty
  clock : Assoc Text Clock := .empty
  readyCount : Nat := 0
  readyEvent : Bool := false
  /-- The connection whose thread has the lock. -/
  lock : Option Nat := none
  sessions : Nat → Session := fun _ => .absent
  results : Assoc Text Report := .empty
  startCoordinatorNs : Int := 0
  /-- `manifest["failures"]`. -/
  reported : Option (Assoc Text Failure) := none
  main : MainThread := .waiting
  log : List RunEvent := []

namespace CoordinatorState

def goTo (s : CoordinatorState) (i : Nat) (session : Session) : CoordinatorState :=
  { s with sessions := Function.update s.sessions i session }

def record (s : CoordinatorState) (event : RunEvent) : CoordinatorState := { s with log := s.log ++ [event] }

/-- `self.failures[c] = …`. -/
def fail (s : CoordinatorState) (client : Text) (failure : Failure) : CoordinatorState :=
  { s with failures := s.failures.set client failure }

/-- `self.clock[c] = …`, the counter, and the event once all are ready. -/
def markReady (s : CoordinatorState) (client : Text) (clock : Clock) (clients : List Text) : CoordinatorState :=
  { s with
    clock := s.clock.set client clock
    readyCount := s.readyCount + 1
    readyEvent := s.readyEvent || decide (s.readyCount + 1 = clients.length) }

/-- The failures in the manifest of a run that does not start. -/
def withMissing (failures : Assoc Text Failure) (missing : List Text) : Assoc Text Failure :=
  missing.foldl (fun failures client => failures.set client .neverConnected) failures

end CoordinatorState

/-- A coordinator with its workload and its clients, and the shards of the default assignment. -/
structure Coordination where
  wl : Workload3
  clients : List Text
  shards : Assoc Text Workload3
  assignment : Assignment
  accepted : shardWorkload wl clients none = .ok (shards, assignment)

/-- The report of a client that has run the shard it was sent to the end. -/
def Coordination.Reports (co : Coordination) (client : Text) (report : Report) : Prop :=
  ∃ (σ : Type) (run : ClientRun σ), co.shards.get client = some run.shard ∧ (∀ w, run.last.workers w = .exited) ∧ report = run.report

open CoordinatorState

/-- One step of the thread of a connection: the accept loop starts it, and `_serve_client` goes on. -/
inductive SessionStep (co : Coordination) (i : Nat) : CoordinatorState → CoordinatorState → Prop where
  | accept {s : CoordinatorState} (hsession : s.sessions i = .absent) : SessionStep co i s (s.goTo i .greeting)
  | hello {s : CoordinatorState} (client : Text) (hsession : s.sessions i = .greeting) : SessionStep co i s (s.goTo i (.arriving client))
  | noHello {s : CoordinatorState} (hsession : s.sessions i = .greeting) : SessionStep co i s (s.goTo i .over)
  | unknown {s : CoordinatorState} {client : Text} (hsession : s.sessions i = .arriving client) (hlock : s.lock = none)
      (hunknown : client ∉ co.shards.keys) : SessionStep co i s (s.goTo i .over)
  | turnAway {s : CoordinatorState} {client : Text} (hsession : s.sessions i = .arriving client) (hlock : s.lock = none)
      (hknown : client ∈ co.shards.keys) (htaken : client ∈ s.conns.keys) :
      SessionStep co i s (((s.fail client .duplicate).record (.turnedAway client)).goTo i .over)
  | claim {s : CoordinatorState} {client : Text} (hsession : s.sessions i = .arriving client) (hlock : s.lock = none)
      (hknown : client ∈ co.shards.keys) (hfree : client ∉ s.conns.keys) :
      SessionStep co i s (({ s with conns := s.conns.set client i }.record (.claimed client)).goTo i (.claimed client))
  | ready {s : CoordinatorState} {client : Text} (hsession : s.sessions i = .claimed client) :
      SessionStep co i s ((s.record (.ready client)).goTo i (.answered client))
  | notReady {s : CoordinatorState} {client : Text} (hsession : s.sessions i = .claimed client) (reply : Option Message)
      (hreply : reply ≠ some .ready) : SessionStep co i s ((s.record (.notReady client)).goTo i (.refusing client reply))
  | refuse {s : CoordinatorState} {client : Text} {reply : Option Message} (hsession : s.sessions i = .refusing client reply)
      (hlock : s.lock = none) : SessionStep co i s ((s.fail client (.notReady reply)).goTo i .over)
  | lock {s : CoordinatorState} {client : Text} (hsession : s.sessions i = .answered client) (hlock : s.lock = none) :
      SessionStep co i s ({ s with lock := some i }.goTo i (.probing client))
  | probed {s : CoordinatorState} {client : Text} {trips : List RoundTrip} {clock : Clock} (hsession : s.sessions i = .probing client)
      (htrips : trips.length = probes) (hclock : probeClock trips = .ok clock) :
      SessionStep co i s ({ s.markReady client clock co.clients with lock := none }.goTo i (.ready client))
  | badPong {s : CoordinatorState} {client : Text} (hsession : s.sessions i = .probing client) :
      SessionStep co i s ({ s with lock := none }.goTo i .over)

/-- One step of `run`. -/
inductive MainStep (co : Coordination) : CoordinatorState → CoordinatorState → Prop where
  | wait {s : CoordinatorState} (hmain : s.main = .waiting) : MainStep co s { s with main := .checkMissing }
  | missing {s : CoordinatorState} (hmain : s.main = .checkMissing) (hmissing : co.clients.filter (· ∉ s.conns.keys) ≠ []) :
      MainStep co s { s with main := .aborting (co.clients.filter (· ∉ s.conns.keys)) }
  | allClaimed {s : CoordinatorState} (hmain : s.main = .checkMissing) (hmissing : co.clients.filter (· ∉ s.conns.keys) = []) :
      MainStep co s { s with main := .checkFailures }
  | failed {s : CoordinatorState} (hmain : s.main = .checkFailures) (hfailures : s.failures.entries ≠ []) :
      MainStep co s { s with main := .aborting [] }
  | noFailure {s : CoordinatorState} (hmain : s.main = .checkFailures) (hfailures : s.failures.entries = []) :
      MainStep co s { s with main := .checkReady }
  | timeout {s : CoordinatorState} (hmain : s.main = .checkReady) (hready : s.readyEvent = false) :
      MainStep co s { s with main := .aborting [] }
  | start {s : CoordinatorState} (startNs : Int) (hmain : s.main = .checkReady) (hready : s.readyEvent = true) :
      MainStep co s { s with startCoordinatorNs := startNs, main := .starting s.conns.entries }
  | abort {s : CoordinatorState} {missing : List Text} (hmain : s.main = .aborting missing) :
      MainStep co s { s with reported := some (withMissing s.failures missing), main := .ended .partly [] }
  /-- A claim while the connections are gone through. -/
  | abortRaise {s : CoordinatorState} {missing : List Text} (hmain : s.main = .aborting missing) :
      MainStep co s { s with reported := some (withMissing s.failures missing), main := .raised }
  | send {s : CoordinatorState} {client : Text} {i : Nat} {rest : List (Text × Nat)} (hmain : s.main = .starting ((client, i) :: rest)) :
      MainStep co s ({ s with main := .starting rest }.record (.started client))
  | sent {s : CoordinatorState} (hmain : s.main = .starting []) :
      MainStep co s { s with main := .receiving s.conns.entries .complete }
  | done {s : CoordinatorState} {client : Text} {i : Nat} {rest : List (Text × Nat)} {status : RunStatus}
      (hmain : s.main = .receiving ((client, i) :: rest) status) {report : Report} (hreport : co.Reports client report)
      (keepOpen : Bool) :
      MainStep co s ({ s with results := s.results.set client report
                              main := if keepOpen then .endProbing client rest status else .receiving rest status }.record
        (.done client))
  | noResult {s : CoordinatorState} {client : Text} {i : Nat} {rest : List (Text × Nat)} {status : RunStatus}
      (hmain : s.main = .receiving ((client, i) :: rest) status) (reply : Option Message)
      (hreply : ∀ report keepOpen, reply ≠ some (.done report keepOpen)) :
      MainStep co s (({ s with main := .receiving rest .partly }.fail client (.noResult reply)).record (.noResult client))
  | endProbed {s : CoordinatorState} {client : Text} {rest : List (Text × Nat)} {status : RunStatus}
      (hmain : s.main = .endProbing client rest status) {trips : List RoundTrip} {last first : Clock}
      (htrips : trips.length = probes) (hlast : probeClock trips = .ok last) (hfirst : s.clock.get client = some first) :
      MainStep co s { s with
        clock := s.clock.set client
          { first with endOffsetNs := some last.offsetNs, driftNs := some (last.offsetNs - first.offsetNs) }
        main := .receiving rest status }
  | endRaise {s : CoordinatorState} {client : Text} {rest : List (Text × Nat)} {status : RunStatus}
      (hmain : s.main = .endProbing client rest status) : MainStep co s { s with main := .raised }
  | received {s : CoordinatorState} {status : RunStatus} (hmain : s.main = .receiving [] status) :
      MainStep co s { s with main := .finalCheck status }
  | clean {s : CoordinatorState} {status : RunStatus} (hmain : s.main = .finalCheck status) (hfailures : s.failures.entries = []) :
      MainStep co s ({ s with main := .merging status }.record .finalCheck)
  | unclean {s : CoordinatorState} {status : RunStatus} (hmain : s.main = .finalCheck status) (hfailures : s.failures.entries ≠ []) :
      MainStep co s ({ s with reported := some s.failures, main := .merging .partly }.record .finalCheck)
  | merge {s : CoordinatorState} {status : RunStatus} {offsetNs : Text → Int} (hmain : s.main = .merging status)
      (hclock : ∀ client ∈ s.results.keys, ∃ clock, s.clock.get client = some clock ∧ offsetNs client = clock.offsetNs) :
      MainStep co s { s with main := .ended status (Kvio.merge s.startCoordinatorNs s.results.entries offsetNs) }
  | mergeRaise {s : CoordinatorState} {status : RunStatus} (hmain : s.main = .merging status)
      (hclock : ∃ client ∈ s.results.keys, s.clock.get client = none) : MainStep co s { s with main := .raised }

/-- A state that some interleaving of the threads leads to. -/
def Coordination.Reaches (co : Coordination) (s : CoordinatorState) : Prop :=
  Relation.ReflTransGen (fun s t => (∃ i, SessionStep co i s t) ∨ MainStep co s t) {} s

end EbpfSyscall.Kvio
