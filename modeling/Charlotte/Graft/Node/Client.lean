import Charlotte.Graft.Node.Replication

/-!
# Client operations, membership changes and the heartbeat

The calls of `node.rs` that the service makes on its own behalf: proposals of
membership changes, the leader's heartbeat, client commands and reads.
-/

namespace Charlotte.Graft.RaftNode

variable {σ : Type} (M : StateMachine σ)

open Graft.Configuration

/-! ## Membership changes -/

def isConfigurationChange (entry : LogEntry) : Bool :=
  match decode entry.data with
  | some (.joint _) => true
  | some .finalize => true
  | _ => false

variable (n : RaftNode σ)

def hasUncommittedConfigurationChange : Bool :=
  (indices (n.commitIndex + 1) n.logStore.lastIndex).any fun index =>
    (n.logStore.entryAt index).any isConfigurationChange

def submitJointConfiguration (members : List Peer) (currentMillis : ℕ) (n : RaftNode σ) :
    Call (RaftNode σ × Except RaftError ℕ) :=
  if n.clusterConfiguration.isJointConsensus || n.finalizeConfigurationPending ||
      n.hasUncommittedConfigurationChange then
    pure (n, .error .configInProgress)
  else do
    let (n, result) ← submitCommand M (encode (.joint members)) currentMillis n
    match result with
    | .error e => pure (n, .error e)
    | .ok index =>
      let n ← maybeAutoFinalizeJointConfiguration M n
      pure (n, .ok index)

/-- The first retained JOIN of a peer. -/
def findJoin (peerId : Text) : Option ℕ :=
  (indices (n.logStore.snapshotIndex + 1) n.logStore.lastIndex).find? fun index =>
    (n.logStore.entryAt index).any fun entry =>
      match decode entry.data with
      | some (.join existing) => existing.id == peerId
      | _ => false

def submitJoin (peer : Peer) (currentMillis : ℕ) (n : RaftNode σ) :
    Call (RaftNode σ × Except RaftError ℕ) :=
  if n.clusterConfiguration.contains peer.id then pure (n, .ok n.commitIndex)
  else match n.pendingJoiners[peer.id]? with
    | some (_, fence) => pure (n, .ok fence)
    | none =>
      match n.findJoin peer.id with
      | some index => pure (n, .ok index)
      | none => submitCommand M (encode (.join peer)) currentMillis n

variable (currentMillis : ℕ)

def submitFinalizeConfiguration (n : RaftNode σ) : Call (RaftNode σ × Except RaftError ℕ) :=
  submitCommand M (encode .finalize) currentMillis n

/-! ## Heartbeat -/

/-- Propose the joint configuration with every joiner that has caught up. -/
def maybePromotePendingJoiners (n : RaftNode σ) : Call (RaftNode σ) :=
  if n.state ≠ .leader ∨ n.pendingJoiners.isEmpty ∨
      n.clusterConfiguration.isJointConsensus ∨ n.finalizeConfigurationPending then pure n
  else
    let ready := n.pendingJoiners.toList.filter fun (id, (_, fence)) =>
      decide (fence ≤ (n.matchIndex[id]?).getD 0)
    if ready.isEmpty then pure n
    else do
      let members := ready.foldl (fun members (_, (peer, _)) =>
        if members.any fun member => member.id == peer.id then members
        else members ++ [peer]) n.clusterConfiguration.allMembers
      let (n, _) ← submitJointConfiguration M members currentMillis n
      pure n

/-- Send each other peer what it needs next. -/
def sendHeartbeats (peers : List Peer) : RaftNode σ :=
  peers.foldl (fun n peer =>
    if peer.id = n.me.id then n
    else match n.heartbeatFor peer with
      | some message => n.send message
      | none => n) n

def broadcastHeartbeat (n : RaftNode σ) : Call (RaftNode σ) := do
  let n := { n with currentMillis }
  if n.state ≠ .leader then pure n
  else
    let peers ← n.require n.replicationPeers
    maybePromotePendingJoiners M currentMillis (n.sendHeartbeats peers)

/-! ## Client commands and reads -/

def commandResult (index : ℕ) : Option Bytes := n.appliedCommandResults[index]?

/-- Submit a command; its result is known when it commits within the call. -/
def handleClientCommand (command : Bytes) (currentMillis : ℕ) (n : RaftNode σ) :
    Call (RaftNode σ × Except (RaftError × Option Text) Bytes) := do
  let (n, result) ← submitCommand M command currentMillis n
  match result with
  | .error e => pure (n, .error (e, n.knownLeaderId))
  | .ok index =>
    if n.isCommitted index then pure (n, .ok ((n.commandResult index).getD []))
    else pure (n, .error (.notCommitted, n.knownLeaderId))

/-- Admit a read and append its fence. `domain` is the identity of a fresh
allocation, `none` if there is no memory for one; it is used only when the node
has none yet. -/
def beginRead (query : Bytes) (currentMillis : ℕ) (domain : Option ℕ) (n : RaftNode σ) :
    Call (RaftNode σ × Except RaftError PendingRead) :=
  if n.state ≠ .leader ∨ n.joining ∨ n.decommissioned ∨
      n.clusterConfiguration.isVoter n.me.id = false then
    pure (n, .error .notLeader)
  else if maxCommandBytes < query.length ∨ n.logStore.lastIndex = 2 ^ 64 - 1 then
    pure (n, .error .tooLarge)
  else match n.readDomain.or domain with
    | none => pure (n, .error .resourceLimit)
    | some identity => do
        let n := { n with readDomain := some identity }
        let read : PendingRead :=
          ⟨identity, n.currentTerm, n.logStore.lastIndex + 1, n.membershipEpoch, query⟩
        let n := { n with currentMillis }
        let n ← advanceCommitIndex M (n.appendEntry [])
        pure (n, .ok read)

def readReady (read : PendingRead) (n : RaftNode σ) : Except RaftError Bool :=
  if n.state ≠ .leader ∨ n.currentTerm ≠ read.term ∨ n.joining ∨ n.decommissioned then
    .error .notLeader
  else if n.membershipEpoch ≠ read.membershipEpoch ∨ n.readDomain ≠ some read.domain then
    .error .readBarrier
  else
    .ok (decide (read.index ≤ n.commitIndex) && decide (n.lastApplied = n.commitIndex) &&
      decide (n.logStore.termAt n.commitIndex = read.term))

def handleClientQuery (read : PendingRead) (n : RaftNode σ) :
    Except (RaftError × Option Text) Bytes :=
  match n.readReady read with
  | .error e => .error (e, n.knownLeaderId)
  | .ok false => .error (.readBarrier, n.knownLeaderId)
  | .ok true =>
    match n.stateMachine, M.query with
    | some machine, some query => .ok (query machine read.query)
    | _, _ => .ok []

end Charlotte.Graft.RaftNode
