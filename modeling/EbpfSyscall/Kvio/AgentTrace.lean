import EbpfSyscall.Lib.Residency
import EbpfSyscall.Json

/-!
# Plans from agent traces

`agent_trace.py` compiles the requests of an agent trace to loads, stores and evictions of prompt chunks. `compile_lmcache_agent` has the
prompts and keeps a cache of its own, with the least recently used chunk evicted first; `compile_tracelab` has token counts only and
takes from them which chunks were cached. Hashes, the tokenizer and the reading of timestamps come from the host.
-/

namespace EbpfSyscall.Kvio

namespace AgentTrace

open Checked

inductive TraceFormat where
  | lmcacheAgent
  | traceLab
  deriving DecidableEq, Repr

/-- `policy`. -/
inductive Policy where
  | byPrefix
  | bySubstring
  deriving DecidableEq, Repr

/-- `session_scope`. -/
inductive SessionScope where
  | file
  | field
  deriving DecidableEq, Repr

/-- A record of a trace with what `read_records` adds to it. -/
structure SourceRecord where
  fields : Dict
  kvioFile : String
  kvioLine : Nat
  kvioIngest : Nat

def SourceRecord.location (record : SourceRecord) : String := s!"{record.kvioFile}:{record.kvioLine}"

/-- The tokenizer, the hashes and the timestamps. A key is a digest in hexadecimal digits. -/
structure AgentHost (Key : Type) where
  /-- `encode`, the tokenizer. -/
  encode : Text → List Json
  /-- SHA-256 of the predecessor, if there is one, and of eight bytes for each token. -/
  chunkHash : Option Key → List Nat → Key
  /-- SHA-256 of `tracelab:{session}:{chunk_index}`. -/
  roundHash : Text → Nat → Key
  /-- `_session_digest`. -/
  sessionDigest : List (Option Json) → Text
  /-- `_record_timestamp`: a finite float, as the number it stands for. -/
  recordTimestamp : SourceRecord → TraceFormat → Except PyError Rat
  /-- The order of texts. -/
  keyLe : Key → Key → Bool

/-- An operation of the plan. -/
inductive Operation (Key : Type) where
  | load (chunkKey : Key) (chunkIndex : Nat)
  | store (chunkKey : Key) (chunkIndex : Nat)
  | delete (chunkKey : Key)
  deriving DecidableEq, Repr

structure Request (Key : Type) where
  requestIndex : Nat
  session : Text
  sourceFile : String
  sourceLine : Nat
  timestamp : Rat
  inputTokens : Nat
  completeChunks : Nat
  ignoredTailTokens : Nat
  operations : List (Operation Key)
  deriving DecidableEq

structure Summary where
  requests : Nat
  sessions : Nat
  inputTokens : Nat
  loads : Nat
  stores : Nat
  evictions : Nat
  maxResidentChunks : Nat
  deriving DecidableEq, Repr

structure Plan (Key : Type) where
  chunkTokens : Nat
  warmKeys : List Key
  requests : List (Request Key)
  summary : Summary
  deriving DecidableEq

/-- A record with its timestamp. -/
structure Stamped (α : Type) where
  timestamp : Rat
  record : SourceRecord
  value : α

/-- The key of `enriched.sort`. -/
def Stamped.le {α : Type} (a b : Stamped α) : Bool :=
  a.timestamp < b.timestamp || a.timestamp == b.timestamp && a.record.kvioIngest ≤ b.record.kvioIngest

def sortStamped {α : Type} (items : List (Stamped α)) : List (Stamped α) := items.insertionSort fun a b => a.le b

/-- `len({r["session"] for r in requests})`. -/
def sessionCount {Key : Type} (requests : List (Request Key)) : Nat := (requests.map Request.session).dedup.length

variable {Key : Type} [DecidableEq Key]

/-! ## Prompts -/

def chunkDigest (H : AgentHost Key) (tokenIds : List Int) (predecessor : Option Key) : Except PyError Key := do
  checkAll tokenIds fun tokenId => do
    ensure (0 ≤ tokenId) (.traceError s!"tokenizer returned a negative token id: {tokenId}")
    ensure (tokenId < 2 ^ 64) .overflowError
  pure (H.chunkHash predecessor (tokenIds.map Int.toNat))

/-- The token ids, when all are integers. -/
def intTokens (tokens : List Json) : Option (List Int) :=
  tokens.mapM fun
    | .int i => some i
    | _ => none

/-- `token_ids[index:index + chunk_tokens] for index in range(0, len(token_ids) - chunk_tokens + 1, chunk_tokens)`. -/
def chunksOf (chunkTokens : Nat) (tokenIds : List Int) : List (List Int) :=
  (List.range (tokenIds.length / chunkTokens)).map fun i => (tokenIds.drop (i * chunkTokens)).take chunkTokens

/-- The keys of the chunks of a prompt. -/
def keysOf (H : AgentHost Key) (policy : Policy) : Option Key → List (List Int) → Except PyError (List Key)
  | _, [] => .ok []
  | predecessor, chunk :: chunks => do
    let key ← chunkDigest H chunk (if policy = .byPrefix then predecessor else none)
    let keys ← keysOf H policy (some key) chunks
    pure (key :: keys)

/-- The variables of the loop over the keys of a request. -/
structure Hits (Key : Type) where
  operations : List (Operation Key)
  loads : Nat
  resident : List Key
  newInRequest : List Key
  misses : List (Nat × Key)

def hitStep (preexisting : List Key) (st : Hits Key) (item : Key × Nat) : Hits Key :=
  if item.1 ∈ preexisting then
    { st with
      operations := st.operations ++ [.load item.1 item.2]
      loads := st.loads + 1
      resident := Residency.moveToEnd st.resident item.1 }
  else if item.1 ∈ st.newInRequest then st
  else { st with newInRequest := st.newInRequest ++ [item.1], misses := st.misses ++ [(item.2, item.1)] }

/-- The variables of the loop over the misses of a request. -/
structure Misses (Key : Type) where
  operations : List (Operation Key)
  stores : Nat
  evictions : Nat
  resident : List Key

/-- `resident.popitem(last=False)` when the cache is full. -/
def evict (capacityChunks : Int) (st : Misses Key) : Misses Key :=
  if capacityChunks ≠ 0 ∧ capacityChunks ≤ st.resident.length then
    match st.resident with
    | oldKey :: rest => { st with operations := st.operations ++ [.delete oldKey], evictions := st.evictions + 1, resident := rest }
    | [] => st
  else st

def missStep (capacityChunks : Int) (st : Misses Key) (miss : Nat × Key) : Misses Key :=
  let st := evict capacityChunks st
  { st with
    operations := st.operations ++ [.store miss.2 miss.1]
    stores := st.stores + 1
    resident := Residency.setKey st.resident miss.2 }

/-- The variables of the loop over the requests. -/
structure Progress (Key : Type) where
  resident : List Key := []
  stores : Nat := 0
  loads : Nat := 0
  evictions : Nat := 0
  tokenTotal : Nat := 0
  maxResident : Nat := 0
  requests : List (Request Key) := []

/-- Hits are against the cache at the arrival of the request; then the misses are stored. -/
def serve (capacityChunks : Int) (resident keys : List Key) : Hits Key × Misses Key :=
  let hits := keys.zipIdx.foldl (hitStep resident) ⟨[], 0, resident, [], []⟩
  (hits, hits.misses.foldl (missStep capacityChunks) ⟨hits.operations, 0, 0, hits.resident⟩)

/-- The digest of the session of a record. -/
def effectiveSession (H : AgentHost Key) (sessionScope : SessionScope) (record : SourceRecord) : Text :=
  match sessionScope with
  | .file => H.sessionDigest [some (.str record.kvioFile.toList)]
  | .field => H.sessionDigest [record.fields.get "session_id"]

/-- The keys of the complete chunks of a prompt, and how many tokens it has. -/
def promptKeys (H : AgentHost Key) (chunkTokens : Nat) (policy : Policy) (input : Text) : Except PyError (Nat × List Key) := do
  let tokenIds ← require (intTokens (H.encode input)) (.traceError "tokenizer must return integer token ids")
  let keys ← keysOf H policy none (chunksOf chunkTokens tokenIds)
  pure (tokenIds.length, keys)

/-- One request. -/
def requestStep (H : AgentHost Key) (chunkTokens : Nat) (policy : Policy) (capacityChunks : Int) (sessionScope : SessionScope)
    (st : Progress Key) (requestIndex : Nat) (item : Stamped Text) : Except PyError (Progress Key) := do
  let (tokens, keys) ← promptKeys H chunkTokens policy item.value
  let (hits, misses) := serve capacityChunks st.resident keys
  pure {
    resident := misses.resident
    stores := st.stores + misses.stores
    loads := st.loads + hits.loads
    evictions := st.evictions + misses.evictions
    tokenTotal := st.tokenTotal + tokens
    maxResident := max st.maxResident misses.resident.length
    requests := st.requests ++ [{
      requestIndex
      session := effectiveSession H sessionScope item.record
      sourceFile := item.record.kvioFile
      sourceLine := item.record.kvioLine
      timestamp := item.timestamp
      inputTokens := tokens
      completeChunks := keys.length
      ignoredTailTokens := tokens % chunkTokens
      operations := misses.operations }] }

/-- `isinstance(record.get("input"), str)`, and the text. -/
def inputOf (record : SourceRecord) : Option Text :=
  match record.fields.get "input" with
  | some (.str input) => some input
  | _ => none

/-- `str(record.get("session_id", ""))` is empty. -/
def emptySessionId (record : SourceRecord) : Bool :=
  match record.fields.get "session_id" with
  | none | some (.str []) => true
  | _ => false

/-- The checks of a record, and its timestamp. -/
def enrich (H : AgentHost Key) (sessionScope : SessionScope) (record : SourceRecord) : Except PyError (Stamped Text) := do
  let input ← require (inputOf record) (.traceError (record.location ++ ": lmcache-agent record has no string input"))
  ensure (¬(sessionScope = .field ∧ emptySessionId record = true))
    (.traceError (record.location ++ ": --session-scope=field needs a non-empty session_id"))
  let timestamp ← H.recordTimestamp record .lmcacheAgent
  pure ⟨timestamp, record, input⟩

def compileLmcacheAgent (H : AgentHost Key) (records : List SourceRecord) (chunkTokens : Int) (policy : Policy) (capacityChunks : Int)
    (sessionScope : SessionScope) : Except PyError (Plan Key) := do
  ensure (0 < chunkTokens) (.traceError "chunk_tokens must be positive")
  ensure (0 ≤ capacityChunks) (.traceError "capacity_chunks must be non-negative")
  let enriched ← records.mapM (enrich H sessionScope)
  ensure (enriched ≠ []) .indexError
  let st ← foldFrom (requestStep H chunkTokens.toNat policy capacityChunks sessionScope) 0 {} (sortStamped enriched)
  pure {
    chunkTokens := chunkTokens.toNat
    warmKeys := []
    requests := st.requests
    summary := {
      requests := enriched.length
      sessions := sessionCount st.requests
      inputTokens := st.tokenTotal
      loads := st.loads
      stores := st.stores
      evictions := st.evictions
      maxResidentChunks := st.maxResident } }

/-! ## Token counts -/

/-- `_positive_int`. -/
def positiveInt (value : Option Json) (field location : String) : Except PyError Nat := do
  let integer ← match value with
    | some (.int i) => .ok (i, true)
    | some (.float (.finite q)) => .ok (q.num.tdiv q.den, q.den == 1)
    | some (.float (.inf _)) => .error .overflowError
    | some (.float .nan) => .error (.valueError "cannot convert float NaN to integer")
    | _ => .error (.traceError s!"{location}: {field} must be numeric")
  ensure (integer.2 = true ∧ 0 ≤ integer.1) (.traceError s!"{location}: {field} must be a non-negative integer")
  pure integer.1.toNat

/-- The variables of the loops of a round. -/
structure Rounds (Key : Type) where
  known : List Key := []
  warm : List Key := []
  stores : Nat := 0
  loads : Nat := 0
  operations : List (Operation Key) := []

/-- A chunk of the observed prefix: it must have been there before when nothing has stored it. -/
def prefixStep (H : AgentHost Key) (session : Text) (st : Rounds Key) (chunkIndex : Nat) : Rounds Key :=
  let key := H.roundHash session chunkIndex
  let st := if key ∈ st.known then st else { st with warm := st.warm ++ [key], known := st.known ++ [key] }
  { st with operations := st.operations ++ [.load key chunkIndex], loads := st.loads + 1 }

/-- A chunk after the prefix. -/
def storeStep (H : AgentHost Key) (session : Text) (st : Rounds Key) (chunkIndex : Nat) : Rounds Key :=
  let key := H.roundHash session chunkIndex
  if key ∈ st.known then st
  else { st with known := st.known ++ [key], operations := st.operations ++ [.store key chunkIndex], stores := st.stores + 1 }

/-- The operations of a round. -/
def roundOperations (H : AgentHost Key) (session : Text) (prefixChunks totalChunks : Nat) (st : Rounds Key) : Rounds Key :=
  (List.range' prefixChunks (totalChunks - prefixChunks)).foldl (storeStep H session)
    ((List.range prefixChunks).foldl (prefixStep H session) { st with operations := [] })

/-- The variables of the loop over the rounds. -/
structure TraceLabState (Key : Type) where
  rounds : Rounds Key := {}
  inputTotal : Nat := 0
  requests : List (Request Key) := []

def roundStep (H : AgentHost Key) (chunkTokens : Nat) (st : TraceLabState Key) (requestIndex : Nat) (item : Stamped Unit) :
    Except PyError (TraceLabState Key) := do
  let record := item.record
  let total ← positiveInt (record.fields.get "input_tokens_total") "input_tokens_total" record.location
  let observed ← positiveInt (record.fields.get "prefix_tokens") "prefix_tokens" record.location
  ensure (observed ≤ total) (.traceError (record.location ++ ": prefix_tokens exceeds input_tokens_total"))
  let session := H.sessionDigest
    [record.fields.get "provider", record.fields.get "project", record.fields.get "session_file", record.fields.get "session_id"]
  let rounds := roundOperations H session (observed / chunkTokens) (total / chunkTokens) st.rounds
  pure {
    rounds
    inputTotal := st.inputTotal + total
    requests := st.requests ++ [{
      requestIndex
      session
      sourceFile := record.kvioFile
      sourceLine := record.kvioLine
      timestamp := item.timestamp
      inputTokens := total
      completeChunks := total / chunkTokens
      ignoredTailTokens := total % chunkTokens
      operations := rounds.operations }] }

/-- `provider and record.get("provider") != provider`. -/
def ofProvider (provider : Text) (record : SourceRecord) : Bool :=
  provider == [] || decide (record.fields.get "provider" = some (.str provider))

/-- The fields that a round must have. -/
def roundFields : List String := ["provider", "session_id", "input_tokens_total", "prefix_tokens"]

def selectRound (H : AgentHost Key) (record : SourceRecord) : Except PyError (Stamped Unit) := do
  checkAll roundFields fun field =>
    ensure (Python.present (record.fields.get field) = true) (.traceError (record.location ++ ": TraceLab round is missing " ++ field))
  let timestamp ← H.recordTimestamp record .traceLab
  pure ⟨timestamp, record, ()⟩

def compileTraceLab (H : AgentHost Key) (records : List SourceRecord) (chunkTokens : Int) (provider : Text) : Except PyError (Plan Key) := do
  ensure (0 < chunkTokens) (.traceError "chunk_tokens must be positive")
  let selected ← (records.filter (ofProvider provider)).mapM (selectRound H)
  ensure (selected ≠ []) (.traceError "no TraceLab rounds remain after filtering")
  let st ← foldFrom (roundStep H chunkTokens.toNat) 0 {} (sortStamped selected)
  pure {
    chunkTokens := chunkTokens.toNat
    warmKeys := st.rounds.warm.insertionSort fun a b => H.keyLe a b
    requests := st.requests
    summary := {
      requests := selected.length
      sessions := sessionCount st.requests
      inputTokens := st.inputTotal
      loads := st.rounds.loads
      stores := st.rounds.stores
      evictions := 0
      maxResidentChunks := st.rounds.known.length } }

end AgentTrace

end EbpfSyscall.Kvio
