import Charlotte.Graft.Node.Commit

/-!
# Construction, admission and elections

`RaftNode::new`, `begin_joining` and the vote handlers.
-/

namespace Charlotte.Graft.RaftNode

variable {σ : Type} (M : StateMachine σ)

/-! ## Construction -/

/-- The configuration an envelope describes; `none` inside when it names no
current members. -/
def envelopeConfiguration (envelope : SnapshotEnvelope) : Option (Option ClusterConfiguration) :=
  if envelope.currentMembers.isEmpty then some none
  else do
    let configuration ← ClusterConfiguration.stable envelope.currentMembers
    if envelope.nextMembers.isEmpty then some (some configuration)
    else do
      let configuration ← configuration.transitionTo envelope.nextMembers
      some (some configuration)

/-- An envelope without an epoch stands for its snapshot's index. -/
def envelopeEpoch (envelope : SnapshotEnvelope) (snapshotIndex : ℕ) : ℕ :=
  if envelope.membershipEpoch = 0 then snapshotIndex else envelope.membershipEpoch

/-- What the snapshot on disk contributes at construction: the configuration
with its epoch, if the envelope has one, and the application's data. -/
def readSnapshot (log : LogStore) : Option (Option (ClusterConfiguration × ℕ) × Bytes) :=
  match SnapshotCodec.decodeSnapshotPayload log.snapshotData with
  | some envelope => do
      let configuration ← envelopeConfiguration envelope
      some (configuration.map fun c => (c, envelopeEpoch envelope log.snapshotIndex),
        envelope.stateMachineSnapshot)
  | none => some (none, log.snapshotData)

/-- The same for any log; one without a snapshot contributes nothing. -/
def loadSnapshot (log : LogStore) : Call (Option (ClusterConfiguration × ℕ) × Option Bytes) :=
  if 0 < log.snapshotIndex then
    match readSnapshot log with
    | some (restored, data) => pure (restored, some data)
    | none => throw []
  else pure (none, none)

/-- The seed of the generator: the id's bytes as digits, wrapped. -/
def idSeed (id : Text) : UInt64 := id.foldl (fun a b => a * 31 + UInt64.ofNat b.toNat) 0

/-- The node as constructed, before the retained log is consulted. -/
def initial (config : RaftNodeConfig σ) (durable : Durable) (currentMillis : ℕ)
    (machine : Option σ) (restored : Option (ClusterConfiguration × ℕ)) : RaftNode σ :=
  let me := config.me
  let configuration := (restored.map Prod.fst).getD config.clusterConfiguration
  let snapshotIndex := durable.logStore.snapshotIndex
  let randState := idSeed me.id * 6364136223846793005 + 1442695040888963407
  let deadline := saturatingAdd (saturatingAdd currentMillis config.timeoutMillis)
    (electionJitterMillis config.timeoutMillis (randState >>> 33).toNat)
  -- a later snapshot that contains this node shows that its admission completed
  let completed := fun admission : JoinAdmission =>
    restored.isSome && decide (admission.snapshotIndex < snapshotIndex) &&
      configuration.contains me.id
  let admission := durable.persistentState.joinAdmission
  let joiningFrom := (admission.filter fun a => !completed a).map JoinAdmission.anchorId
  let joint := configuration.isJointConsensus
  let n : RaftNode σ := {
    me
    state := .follower
    currentTerm := durable.persistentState.currentTerm
    votedFor := durable.persistentState.votedFor
    timeoutMillis := config.timeoutMillis
    lastHeartbeatMillis := currentMillis
    lastSuccessfulLeaderSyncMillis := none
    timeoutAtMillis := if joiningFrom.isSome then 2 ^ 64 - 1 else deadline
    electionSequenceCounter := 0
    commitIndex := snapshotIndex
    lastApplied := snapshotIndex
    nextIndex := ∅
    matchIndex := ∅
    lastFollowerContactMillis := ∅
    appliedCommandResults := ∅
    snapshotOffsets := ∅
    clusterConfiguration := configuration
    snapshotConfiguration := configuration
    membershipEpoch := (restored.map Prod.snd).getD 0
    decommissioned := !configuration.contains me.id
    joining := joiningFrom.isSome
    joiningFrom
    pendingJoiners := ∅
    pendingAutoFinalizeMembers :=
      if joint then configuration.nextMembers.values.map Peer.id else []
    pendingAutoFinalizeFenceIndex := if joint then snapshotIndex else 0
    finalizeConfigurationPending := false
    snapshotMinEntries := config.snapshotMinEntries
    snapshotChunkBytes := config.snapshotChunkBytes
    knownLeaderId := joiningFrom
    pendingSnapshot := none
    logStore := durable.logStore
    persistentState := durable.persistentState
    stateMachine := machine
    currentMillis
    randState
    grantedVotes := ∅
    readDomain := none
    effects := [] }
  if admission.any completed then n.persistJoinAdmission none else n

/-- The application, restored from a snapshot if there is one. -/
def restoreMachine (machine : Option σ) (application : Option Bytes) :
    Except SnapshotError (Option σ) :=
  match machine, application with
  | some machine, some data => (M.restore machine data).map some
  | machine, _ => .ok machine

/-- Start a node from its durable stores. An inner error is a snapshot that the
application rejects. -/
def new (config : RaftNodeConfig σ) (durable : Durable) (currentMillis : ℕ) :
    Call (Except SnapshotError (RaftNode σ)) := do
  let (restored, application) ← loadSnapshot durable.logStore
  match restoreMachine M config.stateMachine application with
  | .error e => pure (.error e)
  | .ok machine =>
    let n := initial config durable currentMillis machine restored
    let effective ← n.require n.effectiveConfiguration
    pure (.ok { n with decommissioned := !effective.contains n.me.id })

/-- Enter the non-voting admission state for one cluster anchor. -/
def beginJoining (anchorId : Text) (currentMillis : ℕ) (n : RaftNode σ) : RaftNode σ :=
  let n := n.persistJoinAdmission (some ⟨anchorId, n.logStore.snapshotIndex⟩)
  let n := { n with readDomain := none }
  let n := n.store LogStore.new
  let n := { n with
    stateMachine := n.stateMachine.map M.reset
    commitIndex := 0
    lastApplied := 0
    membershipEpoch := 0
    nextIndex := ∅
    matchIndex := ∅
    lastFollowerContactMillis := ∅
    snapshotOffsets := ∅
    appliedCommandResults := ∅
    pendingJoiners := ∅
    pendingAutoFinalizeMembers := []
    pendingAutoFinalizeFenceIndex := 0
    finalizeConfigurationPending := false
    pendingSnapshot := none
    votedFor := none }
  let n := n.persistVotedFor none
  { n with
    currentMillis
    lastHeartbeatMillis := currentMillis
    lastSuccessfulLeaderSyncMillis := none
    electionSequenceCounter := 0
    state := .follower
    joining := true
    joiningFrom := some anchorId
    knownLeaderId := some anchorId
    grantedVotes := ∅
    timeoutAtMillis := 2 ^ 64 - 1 }

/-! ## Elections -/

variable (n : RaftNode σ)

/-- A node stands for election as a voter that is not being admitted. -/
def mayStand : Option Bool :=
  if n.joining then some false
  else n.effectiveConfiguration.map fun configuration => configuration.isVoter n.me.id

def stepDown (term currentMillis : ℕ) (n : RaftNode σ) : RaftNode σ :=
  let n := { n with pendingSnapshot := none, currentTerm := term }
  let n := n.persistCurrentTerm term
  let n := { n with state := .follower, votedFor := none }
  let n := n.persistVotedFor none
  let n := { n with
    grantedVotes := ∅
    lastFollowerContactMillis := ∅
    knownLeaderId := none
    lastSuccessfulLeaderSyncMillis := none
    electionSequenceCounter := 0 }
  n.armElectionTimer currentMillis

/-- Forget the progress recorded for the members of a configuration. -/
def resetProgress (members : List Peer) (lastIndex : ℕ) : RaftNode σ :=
  members.foldl (fun n peer =>
    if peer.id = n.me.id then n
    else { n with
      nextIndex := n.nextIndex.insert peer.id (lastIndex + 1)
      matchIndex := n.matchIndex.insert peer.id 0
      snapshotOffsets := n.snapshotOffsets.insert peer.id 0 }) n

variable (currentMillis : ℕ)

/-- Enter the leader state of the current term. -/
def takeLead (n : RaftNode σ) : RaftNode σ :=
  let n := { n with
    state := .leader
    knownLeaderId := some n.me.id
    lastSuccessfulLeaderSyncMillis := none
    currentMillis
    grantedVotes := ∅
    lastFollowerContactMillis := ∅ }
  n.record (.elected n.currentTerm)

def becomeLeader (n : RaftNode σ) : Call (RaftNode σ) := do
  let n := n.takeLead currentMillis
  let configuration ← n.require n.effectiveConfiguration
  let n := n.resetProgress configuration.allMembers n.logStore.lastIndex
  advanceCommitIndex M (n.appendEntry [])

/-- Enter the candidate state of the next term with the own vote. -/
def becomeCandidate (n : RaftNode σ) : RaftNode σ :=
  let n := { n with
    state := .candidate
    pendingSnapshot := none
    currentTerm := n.currentTerm + 1 }
  let n := n.persistCurrentTerm n.currentTerm
  let n := { n with votedFor := some n.me.id }
  let n := n.persistVotedFor n.votedFor
  let n := n.record (.granted n.currentTerm n.me.id)
  let n := { n with
    electionSequenceCounter := saturatingAdd n.electionSequenceCounter 1
    knownLeaderId := none
    lastSuccessfulLeaderSyncMillis := none
    grantedVotes := (∅ : TextSet).insert n.me.id }
  n.armElectionTimer currentMillis

/-- Ask the other voters for their votes. -/
def requestVotes (members : List Peer) : RaftNode σ :=
  let request : VoteRequest := ⟨n.currentTerm, n.me.id, n.logStore.lastIndex, n.logStore.lastTerm⟩
  members.foldl (fun n peer =>
    if peer.id = n.me.id ∨ peer.isVoter = false then n
    else n.send (.voteRequest peer.id request)) n

def startElection (n : RaftNode σ) : Call (RaftNode σ) := do
  let n := { n with currentMillis }
  if !(← n.require n.mayStand) then
    pure ({ n with state := .follower }.armElectionTimer currentMillis)
  else
    let n := n.becomeCandidate currentMillis
    let configuration ← n.require n.effectiveConfiguration
    let n := n.requestVotes configuration.allMembers
    -- a single voter already has a majority after its own vote
    if ← n.require n.hasElectionMajority then becomeLeader M currentMillis n else pure n

/-- Give a candidate the vote of the current term. -/
def grantVote (candidateId : Text) (currentMillis : ℕ) (n : RaftNode σ) : RaftNode σ :=
  let n := { n with votedFor := some candidateId }
  let n := n.persistVotedFor n.votedFor
  let n := n.record (.granted n.currentTerm candidateId)
  let n := { n with lastHeartbeatMillis := currentMillis }
  n.armElectionTimer currentMillis

def handleVoteRequest (request : VoteRequest) (currentMillis : ℕ) (n : RaftNode σ) :
    Call (RaftNode σ × VoteResponse) := do
  let n := { n with currentMillis }
  let n := if n.currentTerm < request.term then n.stepDown request.term currentMillis else n
  let refused : RaftNode σ × VoteResponse := (n, ⟨n.me.id, n.currentTerm, false⟩)
  if request.term < n.currentTerm || n.joining then pure refused
  else
    let configuration ← n.require n.effectiveConfiguration
    if configuration.isVoter n.me.id && configuration.isVoter request.candidateId &&
        (n.votedFor.isNone || n.votedFor == some request.candidateId) then
      let lastLogIndex := n.logStore.lastIndex
      let lastLogTerm := n.logStore.lastTerm
      if lastLogTerm < request.lastLogTerm ∨
          request.lastLogTerm = lastLogTerm ∧ lastLogIndex ≤ request.lastLogIndex then
        let n := n.grantVote request.candidateId currentMillis
        pure (n, ⟨n.me.id, n.currentTerm, true⟩)
      else pure refused
    else pure refused

def handleVoteResponse (peerId : Text) (response : VoteResponse) (currentMillis : ℕ)
    (n : RaftNode σ) : Call (RaftNode σ) := do
  let n := { n with currentMillis }
  if n.state ≠ .candidate then pure n
  else if n.currentTerm < response.term then pure (n.stepDown response.term currentMillis)
  else if response.term ≠ n.currentTerm ∨ response.voteGranted = false then pure n
  else
    let configuration ← n.require n.effectiveConfiguration
    if configuration.isVoter peerId then
      let n := { n with grantedVotes := n.grantedVotes.insert peerId }
      if ← n.require n.hasElectionMajority then becomeLeader M currentMillis n else pure n
    else pure n

end Charlotte.Graft.RaftNode
