import EbpfSyscall.Kvio.RealRun
import EbpfSyscall.Kvio.TypedRun

/-!
# Many clients

`tools/kvio/coordinator.py`: a workload is split by stream over clients (`shard_workload`), each client runs its share in real mode
(`run_client`), and the coordinator merges the rows of all of them in its own clock (`_merge`). The messages between the two carry the
values that are arguments here.
-/

namespace EbpfSyscall.Kvio

open Checked

/-- Which client has which stream. -/
abbrev Assignment := Assoc (Option Text) Text

namespace Coordinator

/-- `repr` of a stream. -/
def quotedStream : Option Text → String
  | none => "None"
  | some stream => Intent2.quoted stream

/-- `sorted` of streams: texts are not compared with `None`. -/
def sortedStreams (streams : List (Option Text)) : Except PyError (List (Option Text)) :=
  if none ∈ streams ∧ 1 < streams.length then .error .typeError
  else .ok (streams.insertionSort (fun a b => a.getD [] ≤ b.getD []))

/-- `repr` of a list of streams. -/
def quotedStreams (streams : List (Option Text)) : String := "[" ++ ", ".intercalate (streams.map quotedStream) ++ "]"

/-- The streams in the order in which they first occur. -/
def streamsOf (wl : Workload3) : List (Option Text) :=
  wl.operations.foldl (fun streams operation => if operation.stream ∈ streams then streams else streams ++ [operation.stream]) []

/-- `{s: clients[i % len(clients)] for i, s in enumerate(streams)}`. -/
def roundRobin (clients : List Text) (streams : List (Option Text)) : Except PyError Assignment :=
  foldFrom (fun assignment i stream => do
    let client ← require clients[i % clients.length]? .zeroDivisionError
    pure (assignment.set stream client)) 0 .empty streams

/-- The assignment that was given, or the round robin. -/
def assigned (wl : Workload3) (clients : List Text) : Option Assignment → Except PyError Assignment
  | some assignment => .ok assignment
  | none => roundRobin clients (streamsOf wl)

/-- `owner`: the client of an operation by its id. -/
def owners (wl : Workload3) (assignment : Assignment) : Except PyError (Assoc Text Text) :=
  wl.operations.foldlM (fun owner operation => do
    let client ← require (assignment.get operation.stream) (.keyError (quotedStream operation.stream))
    pure (owner.set operation.opId client)) .empty

/-- An edge between two operations, with the clients that have them. -/
structure Edge where
  opId : Text
  dep : Text
  client : Text
  depClient : Text
  deriving DecidableEq, Repr

/-- `repr` of an edge. -/
def Edge.quoted (edge : Edge) : String :=
  s!"({Intent2.quoted edge.opId}, {Intent2.quoted edge.dep}, {Intent2.quoted edge.client}, {Intent2.quoted edge.depClient})"

def edgeOf (owner : Assoc Text Text) (pair : Text × Text) : Except PyError Edge := do
  let depClient ← require (owner.get pair.2) (.keyError (String.ofList pair.2))
  let client ← require (owner.get pair.1) (.keyError (String.ofList pair.1))
  pure ⟨pair.1, pair.2, client, depClient⟩

/-- `cross`: the dependencies between operations of different clients. -/
def crossEdges (wl : Workload3) (owner : Assoc Text Text) : Except PyError (List Edge) := do
  let edges ← (wl.operations.flatMap fun operation => operation.deps.map fun dep => (operation.opId, dep.op)).mapM (edgeOf owner)
  pure (edges.filter fun edge => edge.depClient ≠ edge.client)

/-- What the refusal of cross-shard dependencies says. -/
def crossMessage (cross : List Edge) : String :=
  let shown := ", ".intercalate ((cross.take 8).map Edge.quoted)
  s!"cross-shard dependencies need an acknowledgement relay this coordinator does not implement: [{shown}]" ++
    (if 8 < cross.length then " ..." else "")

/-- The operations of a client, in their order and with new positions. -/
def share (wl : Workload3) (owner : Assoc Text Text) (client : Text) : List Operation3 :=
  (wl.operations.filter fun operation => owner.get operation.opId = some client).mapIdx fun i operation => { operation with seq := i }

/-- The shard of a client. -/
def shardFor (wl : Workload3) (assignment : Assignment) (owner : Assoc Text Text) (client : Text) : Except PyError Workload3 := do
  let notes ← require wl.provenance.notes (.keyError "notes")
  let streams ← sortedStreams ((assignment.entries.filter fun entry => entry.2 = client).map Prod.fst)
  let note := s!"shard for client {String.ofList client}: streams {quotedStreams streams}"
  let shard : Workload3 :=
    { wl with
      operations := share wl owner client
      provenance := { wl.provenance with notes := some (notes ++ [note.toList]) } }
  validateWorkload shard
  pure shard

end Coordinator

open Coordinator

/-- `shard_workload`. -/
def shardWorkload (wl : Workload3) (clients : List Text) (assignment : Option Assignment) :
    Except PyError (Assoc Text Workload3 × Assignment) := do
  let assignment ← assigned wl clients assignment
  let unknown := assignment.keys.filter (· ∉ streamsOf wl)
  let listed ← sortedStreams unknown
  ensure (unknown = []) (.valueError s!"assignment names streams not in the workload: {quotedStreams listed}")
  let owner ← owners wl assignment
  let cross ← crossEdges wl owner
  ensure (cross = []) (.crossShardError (crossMessage cross))
  let shards ← clients.foldlM (fun shards client => do
    let shard ← shardFor wl assignment owner client
    pure (shards.set client shard)) .empty
  pure (shards, assignment)

/-! ## Running and merging -/

/-- What a client sends when it is done: the reading of its clock before the run, and the rows. -/
structure Report where
  startClientNs : Int
  rows : List (Text × Row)

/-- A row of the merged ledger: the row of the client and its times in the clock of the coordinator. -/
structure MergedRow where
  client : Text
  opId : Text
  row : Row
  coordEligibleNs : Option Int
  coordSubmitNs : Option Int
  coordCompleteNs : Option Int
  deriving DecidableEq, Repr

/-- `_merge`: the rows of all clients; `offsetNs` is what the probe of the client measured. -/
def merge (startCoordinatorNs : Int) (results : List (Text × Report)) (offsetNs : Text → Int) : List MergedRow :=
  results.flatMap fun result => result.2.rows.map fun row =>
    let coord (time : Int) : Int := time + result.2.startClientNs - offsetNs result.1 - startCoordinatorNs
    { client := result.1
      opId := row.1
      row := row.2
      coordEligibleNs := row.2.eligibleNs.map coord
      coordSubmitNs := row.2.submitNs.map coord
      coordCompleteNs := row.2.completeNs.map coord }

/-- A run of a client from the start message on: it reads its clock, prepares for some time, and runs its executor, whose `t0` is a
reading after that. -/
structure ClientRun (σ : Type) where
  shard : Workload3
  settings : Settings
  perform : Operation3 → σ → Except PyError (Outcome × σ)
  serviceNs : Text → Int
  ex : Executor σ
  accepted : Executor.ofWorkload shard settings perform serviceNs = .ok ex
  startClientNs : Int
  prepareNs : Int
  prepareNs_nonneg : 0 ≤ prepareNs
  first : RealRun ex.workers
  last : RealRun ex.workers
  started : ex.startReal (startClientNs + prepareNs) = .ok first
  reaches : ex.ReachesReal first last

/-- What the client sends. -/
def ClientRun.report {σ : Type} (run : ClientRun σ) : Report :=
  ⟨run.startClientNs, run.ex.order.map fun opId => (opId, run.last.board.rows opId)⟩

end EbpfSyscall.Kvio
