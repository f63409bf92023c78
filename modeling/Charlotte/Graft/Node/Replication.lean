import Charlotte.Graft.Node.Election

/-!
# Log replication

`handle_append_entries`, `handle_install_snapshot`, their responses and the
leader's heartbeat.
-/

namespace Charlotte.Graft.RaftNode

variable {σ : Type} (M : StateMachine σ)

/-! ## The follower's side -/

variable (n : RaftNode σ)

/-- A request of this term or a later one whose sender may not lead this node. -/
def refusesLeader (leaderId : Text) (term : ℕ) : Bool :=
  leaderId == n.me.id ||
    (!n.clusterConfiguration.isVoter leaderId && !n.acceptsJoiningLeader leaderId) ||
    (term == n.currentTerm && n.state == .follower &&
      n.knownLeaderId.any fun leader => leader != leaderId)

/-- Accept the sender of a request as leader of its term. Within the current
term the node only steps back; its vote stays. -/
def followLeader (leaderId : Text) (term currentMillis : ℕ) (n : RaftNode σ) : RaftNode σ :=
  let n :=
    if n.currentTerm < term then n.stepDown term currentMillis
    else if n.state ≠ .follower then { n with
      state := .follower
      knownLeaderId := none
      lastSuccessfulLeaderSyncMillis := none
      grantedVotes := ∅ }
    else n
  let n := { n with lastHeartbeatMillis := currentMillis }
  let n := n.armElectionTimer currentMillis
  { n with knownLeaderId := some leaderId }

/-- Compare entries with the log from an index on; from the first conflict or
the end of the log on, the entries replace what the log has. -/
def mergeEntries (index : ℕ) : List LogEntry → RaftNode σ → RaftNode σ
  | [], n => n
  | entry :: rest, n =>
    if index ≤ n.logStore.lastIndex then
      if n.logStore.termAt index ≠ entry.term then
        let n := n.store (n.logStore.truncateFrom index)
        n.store (n.logStore.append (entry :: rest))
      else mergeEntries (index + 1) rest n
    else n.store (n.logStore.append (entry :: rest))

/-- Follow the leader's commit index as far as the request's entries reach. -/
def followCommit (leaderCommit lastNewIndex : ℕ) (n : RaftNode σ) : Call (RaftNode σ) :=
  let newCommit := min leaderCommit lastNewIndex
  if n.commitIndex < leaderCommit ∧ n.commitIndex < newCommit then
    applyCommitted M { n with commitIndex := newCommit }
  else pure n

variable (request : AppendEntriesRequest)

/-- The request from the snapshot on. `inl`: the answer to a request that stays
below the snapshot or contradicts its last entry. -/
def normalizeRequest : AppendEntriesResponse ⊕ AppendEntriesRequest :=
  let snapshotIndex := n.logStore.snapshotIndex
  if request.prevLogIndex < snapshotIndex then
    let overlap := snapshotIndex - request.prevLogIndex
    match request.entries[overlap - 1]? with
    | none => .inl ⟨n.me.id, n.currentTerm, true, snapshotIndex⟩
    | some entry =>
      if entry.term ≠ n.logStore.snapshotTerm then
        .inl ⟨n.me.id, n.currentTerm, false, snapshotIndex⟩
      else .inr { request with
        entries := request.entries.drop overlap
        prevLogIndex := snapshotIndex
        prevLogTerm := n.logStore.snapshotTerm }
  else .inr request

/-- Match and take over the entries of a normalised request. -/
def appendFromLeader (currentMillis : ℕ) (n : RaftNode σ) :
    Call (RaftNode σ × AppendEntriesResponse) := do
  let lastIndex := n.logStore.lastIndex
  if lastIndex < request.prevLogIndex then
    pure (n, ⟨n.me.id, n.currentTerm, false, lastIndex⟩)
  else if 0 < request.prevLogIndex ∧
      n.logStore.termAt request.prevLogIndex ≠ request.prevLogTerm then
    pure (n, ⟨n.me.id, n.currentTerm, false, request.prevLogIndex⟩)
  else
    let lastNewIndex := request.prevLogIndex + request.entries.length
    let n := n.mergeEntries (request.prevLogIndex + 1) request.entries
    let n ← n.followCommit M request.leaderCommit lastNewIndex
    let n := { n with lastSuccessfulLeaderSyncMillis := some currentMillis }
    pure (n, ⟨n.me.id, n.currentTerm, true, lastNewIndex⟩)

def handleAppendEntries (currentMillis : ℕ)
    (n : RaftNode σ) : Call (RaftNode σ × AppendEntriesResponse) :=
  let n := { n with currentMillis }
  if request.term < n.currentTerm then pure (n, ⟨n.me.id, n.currentTerm, false, 0⟩)
  else if n.refusesLeader request.leaderId request.term then
    pure (n, ⟨n.me.id, n.currentTerm, false, n.logStore.lastIndex⟩)
  else
    let n := n.followLeader request.leaderId request.term currentMillis
    match n.normalizeRequest request with
    | .inl response => pure (n, response)
    | .inr request => n.appendFromLeader M request currentMillis

variable (request : InstallSnapshotRequest)

/-- The pending stream after the bookkeeping for a chunk's offset. -/
def openStream (pending : Option PendingSnapshot) : Option PendingSnapshot :=
  if request.offset = 0 then
    some ⟨request.leaderId, request.term, request.lastIncludedIndex, request.lastIncludedTerm, 0, []⟩
  else pending.filter fun snap =>
    snap.leaderId == request.leaderId && snap.leaderTerm == request.term

/-- The chunk continues the pending stream. -/
def continues (snap : PendingSnapshot) : Bool :=
  request.leaderId == snap.leaderId && request.term == snap.leaderTerm &&
    request.lastIncludedIndex == snap.lastIncludedIndex &&
    request.lastIncludedTerm == snap.lastIncludedTerm && request.offset == snap.offset

/-- Take over the membership of an installed snapshot. -/
def adoptEnvelope (index : ℕ) (configuration : ClusterConfiguration) (membershipEpoch : ℕ)
    (n : RaftNode σ) : RaftNode σ :=
  let n := { n with
    snapshotConfiguration := configuration
    clusterConfiguration := configuration
    membershipEpoch
    decommissioned := !configuration.contains n.me.id }
  let n :=
    if n.decommissioned then n
    else { n.persistJoinAdmission none with joining := false, joiningFrom := none }
  { n with
    pendingAutoFinalizeMembers := configuration.nextMembers.values.map Peer.id
    pendingAutoFinalizeFenceIndex := if configuration.isJointConsensus then index else 0
    finalizeConfigurationPending := false }

/-- Restore the application from a complete stream and install it in the log.
Inner `none`: the application rejects the data and nothing changes. -/
def installStream (snap : PendingSnapshot) (n : RaftNode σ) : Call (Option (RaftNode σ)) := do
  let envelope := SnapshotCodec.decodeSnapshotPayload snap.data
  let application := (envelope.map SnapshotEnvelope.stateMachineSnapshot).getD snap.data
  match restoreMachine M n.stateMachine (some application) with
  | .error _ => pure none
  | .ok machine =>
    let n := { n with stateMachine := machine }
    let n := n.store (n.logStore.installSnapshot snap.lastIncludedIndex
      snap.lastIncludedTerm snap.data)
    let n := { n with
      commitIndex := snap.lastIncludedIndex
      lastApplied := snap.lastIncludedIndex }
    match envelope with
    | none => pure (some n)
    | some envelope =>
      match ← n.require (envelopeConfiguration envelope) with
      | none => pure (some n)
      | some configuration =>
        pure (some (n.adoptEnvelope snap.lastIncludedIndex configuration
          (envelopeEpoch envelope snap.lastIncludedIndex)))

/-- Take a chunk of a snapshot beyond the commit index. -/
def takeChunk (currentMillis : ℕ) (n : RaftNode σ) :
    Call (RaftNode σ × InstallSnapshotResponse) := do
  let refused : RaftNode σ → InstallSnapshotResponse := fun n =>
    ⟨n.me.id, n.currentTerm, false, request.lastIncludedIndex, 0, false⟩
  let pending := openStream request n.pendingSnapshot
  match pending with
  | none => pure ({ n with pendingSnapshot := none }, refused n)
  | some snap =>
    if !continues request snap then
      pure ({ n with pendingSnapshot := some snap },
        { refused n with nextOffset := snap.offset })
    else if maxSnapshotBytes < snap.data.length + request.data.length then
      pure ({ n with pendingSnapshot := none }, refused n)
    else
      let snap := { snap with
        data := snap.data ++ request.data
        offset := snap.offset + request.data.length }
      let response : InstallSnapshotResponse :=
        ⟨n.me.id, n.currentTerm, true, request.lastIncludedIndex, snap.offset, request.done⟩
      if request.done then
        match ← installStream M snap n with
        | none => pure ({ n with pendingSnapshot := none }, refused n)
        | some n =>
          pure ({ n with
            pendingSnapshot := none
            lastSuccessfulLeaderSyncMillis := some currentMillis }, response)
      else pure ({ n with pendingSnapshot := some snap }, response)

def handleInstallSnapshot (currentMillis : ℕ)
    (n : RaftNode σ) : Call (RaftNode σ × InstallSnapshotResponse) :=
  let n := { n with currentMillis }
  if request.term < n.currentTerm then
    pure (n, ⟨n.me.id, n.currentTerm, false, request.lastIncludedIndex, 0, false⟩)
  else if n.refusesLeader request.leaderId request.term then
    pure (n, ⟨n.me.id, n.currentTerm, false, n.logStore.snapshotIndex, 0, false⟩)
  else
    let n := n.followLeader request.leaderId request.term currentMillis
    if request.lastIncludedIndex ≤ n.commitIndex then
      -- a delayed snapshot never moves progress backwards
      pure ({ n with pendingSnapshot := none },
        ⟨n.me.id, n.currentTerm, true, request.lastIncludedIndex,
          saturatingAdd request.offset request.data.length, true⟩)
    else n.takeChunk M request currentMillis

/-! ## The leader's side -/

def acceptsReplicationResponse (peerId reportedPeerId : Text) : Option Bool :=
  if peerId ≠ reportedPeerId ∨ peerId = n.me.id then some false
  else do
    let configuration ← n.effectiveConfiguration
    some (configuration.contains peerId || n.pendingJoiners.contains peerId)

/-- Keep the strongest acknowledgement of this leadership. -/
def recordReplicationProgress (peerId : Text) (index : ℕ) : RaftNode σ :=
  let confirmed := max ((n.matchIndex[peerId]?).getD 0) index
  let next := max ((n.nextIndex[peerId]?).getD 1) (saturatingAdd confirmed 1)
  { n with
    matchIndex := n.matchIndex.insert peerId confirmed
    nextIndex := n.nextIndex.insert peerId next }

def handleAppendEntriesResponse (peerId : Text) (response : AppendEntriesResponse)
    (currentMillis : ℕ) (n : RaftNode σ) : Call (RaftNode σ) := do
  let n := { n with currentMillis }
  if n.state ≠ .leader then pure n
  else if !(← n.require (n.acceptsReplicationResponse peerId response.peerId)) then pure n
  else if n.currentTerm < response.term then pure (n.stepDown response.term currentMillis)
  else if response.term ≠ n.currentTerm then pure n
  else if response.success then
    if n.logStore.lastIndex < response.matchIndex then pure n
    else
      let n := n.recordReplicationProgress peerId response.matchIndex
      let n := { n with
        lastFollowerContactMillis := n.lastFollowerContactMillis.insert peerId currentMillis }
      let n ← advanceCommitIndex M n
      maybeAutoFinalizeJointConfiguration M n
  else
    let confirmedNext := saturatingAdd ((n.matchIndex[peerId]?).getD 0) 1
    match n.nextIndex[peerId]? with
    | none => pure n
    | some next =>
      pure { n with nextIndex := n.nextIndex.insert peerId (max (next - 1) confirmedNext) }

def handleInstallSnapshotResponse (peerId : Text) (response : InstallSnapshotResponse)
    (sentNextOffset : ℕ) (sentDone : Bool) (currentMillis : ℕ) (n : RaftNode σ) :
    Call (RaftNode σ) := do
  let n := { n with currentMillis }
  if !(← n.require (n.acceptsReplicationResponse peerId response.peerId)) then pure n
  else if n.currentTerm < response.term then pure (n.stepDown response.term currentMillis)
  else if n.state ≠ .leader ∨ response.term ≠ n.currentTerm then pure n
  else if response.success then
    if n.logStore.lastIndex < response.lastIncludedIndex then pure n
    else
      let n := { n with
        snapshotOffsets := n.snapshotOffsets.insert peerId sentNextOffset }
      if sentDone && response.done then
        let n := n.recordReplicationProgress peerId response.lastIncludedIndex
        let n := { n with snapshotOffsets := n.snapshotOffsets.insert peerId 0 }
        advanceCommitIndex M n
      else pure n
  else pure { n with
    snapshotOffsets := n.snapshotOffsets.insert peerId response.nextOffset }

/-- The configured members, and the joiners that are not yet members. -/
def replicationPeers : Option (List Peer) := do
  let configuration ← n.effectiveConfiguration
  some (n.pendingJoiners.toList.foldl (fun peers (_, (peer, _)) =>
    if peers.any fun member => member.id == peer.id then peers else peers ++ [peer])
    configuration.allMembers)

/-- What the heartbeat sends to one peer: a chunk of the snapshot to a peer that
still needs compacted entries, the entries it misses to any other. -/
def heartbeatFor (peer : Peer) : Option Message :=
  let next := (n.nextIndex[peer.id]?).getD 1
  let prevLogIndex := next - 1
  let snapshotIndex := n.logStore.snapshotIndex
  if 0 < snapshotIndex ∧ next ≤ snapshotIndex then
    let snapshot := n.logStore.snapshotData
    let offset := (n.snapshotOffsets[peer.id]?).getD 0
    let last := min (saturatingAdd offset n.snapshotChunkBytes) snapshot.length
    if offset ≤ last then
      some (.installSnapshot peer.id {
        term := n.currentTerm
        leaderId := n.me.id
        lastIncludedIndex := snapshotIndex
        lastIncludedTerm := n.logStore.snapshotTerm
        offset
        data := (snapshot.take last).drop offset
        done := last == snapshot.length })
    else none
  else
    some (.appendEntries peer.id {
      term := n.currentTerm
      leaderId := n.me.id
      prevLogIndex
      prevLogTerm := if 0 < prevLogIndex then n.logStore.termAt prevLogIndex else 0
      leaderCommit := n.commitIndex
      entries := if next ≤ n.logStore.lastIndex then n.logStore.entriesFrom next else [] })

end Charlotte.Graft.RaftNode
