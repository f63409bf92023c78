import Charlotte.Graft.LogStore
import Charlotte.Graft.SnapshotCodec

/-!
# State of a consensus node

The record `RaftNode` of `node.rs`, its collaborators and the small helpers the
handlers share.

What a node does to the outside world is recorded in order in `effects`: each
write to its durable stores with the contents after it, each message handed to
the transport, and the points where it grants a vote, becomes leader or applies
an entry. The record is a device of the model: it lets a crash fall between any
two effects of one call. A handler that can reach one of the assertions on empty
configurations is a `Call`, which fails with the effects it had until then: the
process stops there.
-/

namespace Charlotte.Graft

inductive SnapshotError
  | unsupported
  | malformed
  deriving DecidableEq, Repr

/-- The replicated application. A rejected `restore` leaves its state as it was. -/
structure StateMachine (σ : Type) where
  applyWithResult : σ → ℕ → Bytes → σ × Bytes
  snapshot : σ → Bytes
  restore : σ → Bytes → Except SnapshotError σ
  reset : σ → σ
  /-- Present when the machine answers queries. -/
  query : Option (σ → Bytes → Bytes)

/-- What a node finds again after a crash. -/
structure Durable where
  persistentState : PersistentState
  logStore : LogStore
  deriving DecidableEq, Repr

/-- A transport message with its addressee. A response also carries the peer
that was called, and for a snapshot chunk what the caller noted when sending. -/
inductive Message
  | voteRequest (dest : Text) (request : VoteRequest)
  | voteResponse (dest peerId : Text) (response : VoteResponse)
  | appendEntries (dest : Text) (request : AppendEntriesRequest)
  | appendEntriesResponse (dest peerId : Text) (response : AppendEntriesResponse)
  | installSnapshot (dest : Text) (request : InstallSnapshotRequest)
  | installSnapshotResponse (dest peerId : Text) (response : InstallSnapshotResponse)
      (sentNextOffset : ℕ) (sentDone : Bool)
  deriving DecidableEq, Repr

inductive Effect
  | write (durable : Durable)
  | send (message : Message)
  | granted (term : ℕ) (candidate : Text)
  | elected (term : ℕ)
  | applied (index : ℕ) (entry : LogEntry)
  deriving DecidableEq, Repr

/-- A call on a node. It fails when an assertion stops the process, with the
effects of the call up to that point. -/
abbrev Call (α : Type) := Except (List Effect) α

@[simp]
theorem Call.ok_bind {α β : Type} (a : α) (f : α → Call β) : ((Except.ok a : Call α) >>= f) = f a := rfl

@[simp]
theorem Call.pure_eq {α : Type} (a : α) : (pure a : Call α) = .ok a := rfl

theorem Call.bind_eq_ok {α β : Type} {x : Call α} {f : α → Call β} {b : β} :
    x >>= f = .ok b ↔ ∃ a, x = .ok a ∧ f a = .ok b := by
  cases x with
  | error => simp [bind, Except.bind]
  | ok => simp

theorem Call.map_eq_ok {α β : Type} {x : Call α} {f : α → β} {b : β} :
    x.map f = .ok b ↔ ∃ a, x = .ok a ∧ f a = b := by
  cases x <;> simp [Except.map]

structure PendingSnapshot where
  leaderId : Text
  leaderTerm : ℕ
  lastIncludedIndex : ℕ
  lastIncludedTerm : ℕ
  offset : ℕ
  data : Bytes
  deriving DecidableEq, Repr

/-- A query admitted before its log fence; `domain` is the identity of the
allocation shared with the node that admitted it. -/
structure PendingRead where
  domain : ℕ
  term : ℕ
  index : ℕ
  membershipEpoch : ℕ
  query : Bytes
  deriving DecidableEq, Repr

structure RaftNode (σ : Type) where
  me : Peer
  state : NodeState
  currentTerm : ℕ
  votedFor : Option Text
  timeoutMillis : ℕ
  lastHeartbeatMillis : ℕ
  lastSuccessfulLeaderSyncMillis : Option ℕ
  timeoutAtMillis : ℕ
  electionSequenceCounter : ℕ
  commitIndex : ℕ
  lastApplied : ℕ
  nextIndex : TextMap ℕ
  matchIndex : TextMap ℕ
  lastFollowerContactMillis : TextMap ℕ
  appliedCommandResults : Std.ExtTreeMap ℕ Bytes
  snapshotOffsets : TextMap ℕ
  clusterConfiguration : ClusterConfiguration
  snapshotConfiguration : ClusterConfiguration
  membershipEpoch : ℕ
  decommissioned : Bool
  joining : Bool
  joiningFrom : Option Text
  pendingJoiners : TextMap (Peer × ℕ)
  pendingAutoFinalizeMembers : List Text
  pendingAutoFinalizeFenceIndex : ℕ
  finalizeConfigurationPending : Bool
  snapshotMinEntries : ℕ
  snapshotChunkBytes : ℕ
  knownLeaderId : Option Text
  pendingSnapshot : Option PendingSnapshot
  logStore : LogStore
  persistentState : PersistentState
  stateMachine : Option σ
  currentMillis : ℕ
  randState : UInt64
  grantedVotes : TextSet
  readDomain : Option ℕ
  effects : List Effect

/-- What a node is launched with, apart from its durable stores. -/
structure RaftNodeConfig (σ : Type) where
  me : Peer
  timeoutMillis : ℕ
  stateMachine : Option σ
  clusterConfiguration : ClusterConfiguration
  snapshotMinEntries : ℕ
  snapshotChunkBytes : ℕ

namespace RaftNode

variable {σ : Type}

/-! ## Effects -/

variable (n : RaftNode σ)

def record (effect : Effect) : RaftNode σ :=
  { n with effects := n.effects ++ [effect] }

def send (message : Message) : RaftNode σ := n.record (.send message)

/-- The value of an assertion-guarded computation, or the end of the process. -/
def require {α : Type} (n : RaftNode σ) (value : Option α) : Call α :=
  match value with
  | some a => .ok a
  | none => .error n.effects

theorem require_some {α : Type} (n : RaftNode σ) (a : α) : n.require (some a) = .ok a := rfl

def durable : Durable := ⟨n.persistentState, n.logStore⟩

/-- Replace the persistent state in one write. -/
def persist (state : PersistentState) : RaftNode σ :=
  { n with persistentState := state, effects := n.effects ++ [.write ⟨state, n.logStore⟩] }

def persistCurrentTerm (term : ℕ) : RaftNode σ :=
  n.persist { n.persistentState with currentTerm := term }

def persistVotedFor (peerId : Option Text) : RaftNode σ :=
  n.persist { n.persistentState with votedFor := peerId }

def persistJoinAdmission (admission : Option JoinAdmission) : RaftNode σ :=
  n.persist { n.persistentState with joinAdmission := admission }

/-- Replace the log store in one write. -/
def store (log : LogStore) : RaftNode σ :=
  { n with logStore := log, effects := n.effects ++ [.write ⟨n.persistentState, log⟩] }

/-! ## Timers -/

def electionJitterMillis (timeout random : ℕ) : ℕ := random % max timeout 1

/-- One step of the node's generator, which wraps around. -/
def random : RaftNode σ × ℕ :=
  let state := n.randState * 6364136223846793005 + 1442695040888963407
  ({ n with randState := state }, (state >>> 33).toNat)

def electionTimeoutMillis : RaftNode σ × ℕ :=
  let base := n.timeoutMillis
  let (n, value) := n.random
  let jitter := electionJitterMillis base value
  let backoff := saturatingMul (base / 10) n.electionSequenceCounter
  (n, saturatingAdd (saturatingAdd base jitter) backoff)

/-- Set the election deadline a fresh timeout ahead. -/
def armElectionTimer (currentMillis : ℕ) : RaftNode σ :=
  let (n, timeout) := n.electionTimeoutMillis
  { n with timeoutAtMillis := saturatingAdd currentMillis timeout }

/-! ## Configurations in the log -/

end RaftNode

/-- The configuration after a log entry's data. -/
def ClusterConfiguration.follow (c : ClusterConfiguration) (data : Bytes) :
    Option ClusterConfiguration :=
  match Configuration.decode data with
  | some (.joint members) => c.transitionTo members
  | some .finalize => some c.finalizeTransition
  | _ => some c

namespace RaftNode

variable {σ : Type}

/-- The indices from `first` to `last`. -/
def indices (first last : ℕ) : List ℕ := List.range' first (last + 1 - first)

/-- The snapshot's configuration carried forward through the retained entries. -/
def configurationAt (n : RaftNode σ) (index : ℕ) : Option ClusterConfiguration :=
  (indices (n.logStore.snapshotIndex + 1) index).foldlM (fun configuration position =>
    match n.logStore.entryAt position with
    | some entry => configuration.follow entry.data
    | none => some configuration) n.snapshotConfiguration

def effectiveConfiguration (n : RaftNode σ) : Option ClusterConfiguration :=
  n.configurationAt n.logStore.lastIndex

def hasElectionMajority (n : RaftNode σ) : Option Bool :=
  n.effectiveConfiguration.map fun configuration =>
    configuration.hasJointMajority n.grantedVotes

def acceptsJoiningLeader (n : RaftNode σ) (leaderId : Text) : Bool :=
  n.joining && n.joiningFrom == some leaderId

def isCommitted (n : RaftNode σ) (index : ℕ) : Bool := decide (index ≤ n.commitIndex)

end RaftNode

end Charlotte.Graft
