import Charlotte.Graft.Node.State

/-!
# Commitment and application

How a node advances its commit index, applies what is committed and compacts
its log. Applying a joint configuration can propose the final one, whose commit
applies further entries within the same call. The nesting follows the source:
the functions named `…With` take the routine that applies committed entries,
and `applyLoop` passes itself down with less fuel.
-/

namespace Charlotte.Graft.RaftNode

variable {σ : Type} (M : StateMachine σ)

/-! ## Compaction -/

variable (n : RaftNode σ)

/-- The membership snapshot of the current configuration. -/
def wrapSnapshot (membershipEpoch : ℕ) (application : Bytes) : Bytes :=
  SnapshotCodec.wrapSnapshotPayloadWithMembershipEpoch n.clusterConfiguration.currentMembers.values
    (if n.clusterConfiguration.isJointConsensus then n.clusterConfiguration.nextMembers.values
      else [])
    membershipEpoch application

def maybeCompactLocalSnapshot : RaftNode σ :=
  match n.stateMachine with
  | none => n
  | some machine =>
    if n.snapshotMinEntries = 0 ∨ n.commitIndex = 0 ∨ ¬ n.pendingJoiners.isEmpty ∨
        n.commitIndex ≤ n.logStore.snapshotIndex ∨
        n.commitIndex - n.logStore.snapshotIndex < n.snapshotMinEntries then n
    else
      let snapshot := n.wrapSnapshot n.membershipEpoch (M.snapshot machine)
      let term := n.logStore.termAt n.commitIndex
      let n := n.store (n.logStore.installSnapshot n.commitIndex term snapshot)
      { n with snapshotConfiguration := n.clusterConfiguration }

/-- Make the membership that admitted this node durable. -/
def snapshotAdmittedMembership (index : ℕ) : RaftNode σ :=
  let application := (n.stateMachine.map M.snapshot).getD []
  let snapshot := n.wrapSnapshot index application
  let term := n.logStore.termAt index
  let n := n.store (n.logStore.installSnapshot index term snapshot)
  { n with snapshotConfiguration := n.clusterConfiguration }

/-! ## Commit index -/

/-- The peers known to hold the entry at an index, this node included. -/
def replicatedTo (configuration : ClusterConfiguration) (index : ℕ) : TextSet :=
  configuration.allMembers.foldl (fun replicated peer =>
    if peer.id ≠ n.me.id ∧ index ≤ (n.matchIndex[peer.id]?).getD 0 then
      replicated.insert peer.id
    else replicated) ((∅ : TextSet).insert n.me.id)

def isFinalize (entry : LogEntry) : Bool :=
  match Configuration.decode entry.data with
  | some .finalize => true
  | _ => false

/-- Every uncommitted FINALIZE up to the index has the majorities of the
configuration before it. -/
def pendingFinalizesHaveQuorum (replicated : TextSet) (index : ℕ) : Option Bool :=
  (indices (n.commitIndex + 1) index).allM fun position =>
    if (n.logStore.entryAt position).any isFinalize then do
      let configuration ← n.configurationAt (position - 1)
      some (configuration.hasJointMajority replicated)
    else some true

/-- Whether the entry at the index may be committed. -/
def canCommit (index : ℕ) : Option Bool :=
  if n.logStore.termAt index ≠ n.currentTerm then some false
  else do
    let configuration ← n.configurationAt index
    let replicated := n.replicatedTo configuration index
    let pending ← n.pendingFinalizesHaveQuorum replicated index
    some (configuration.hasJointMajority replicated && pending)

/-- The largest index that may be committed, the present one if there is none. -/
def candidateCommit : Option ℕ :=
  (indices (n.commitIndex + 1) n.logStore.lastIndex).foldlM (fun candidate index => do
    let ready ← n.canCommit index
    some (if ready then index else candidate)) n.commitIndex

/-! ## Application -/

/-- Keep at most the newest 128 results. -/
def trimResults : ℕ → Std.ExtTreeMap ℕ Bytes → Std.ExtTreeMap ℕ Bytes
  | 0, results => results
  | fuel + 1, results =>
    if 128 < results.size then
      match results.minKey? with
      | some oldest => trimResults fuel (results.erase oldest)
      | none => results
    else results

/-- Hand a command to the application and keep its result. -/
def applyToMachine (entry : LogEntry) : RaftNode σ :=
  match n.stateMachine with
  | none => n
  | some machine =>
    let (machine, result) := M.applyWithResult machine entry.term entry.data
    let results := n.appliedCommandResults.insert n.lastApplied result
    { n with
      stateMachine := some machine
      appliedCommandResults := trimResults results.size results }

def advanceCommitIndexWith (apply : RaftNode σ → Call (RaftNode σ)) (n : RaftNode σ) :
    Call (RaftNode σ) := do
  let candidate ← n.require n.candidateCommit
  if n.commitIndex < candidate then apply { n with commitIndex := candidate } else pure n

/-- Append one entry of the current term to the own log. -/
def appendEntry (data : Bytes) : RaftNode σ :=
  n.store (n.logStore.append [⟨n.currentTerm, n.me.id, data⟩])

def submitCommandWith (apply : RaftNode σ → Call (RaftNode σ)) (command : Bytes)
    (currentMillis : ℕ) (n : RaftNode σ) : Call (RaftNode σ × Except RaftError ℕ) :=
  let n := { n with currentMillis }
  if n.state ≠ .leader then pure (n, .error .notLeader)
  else if maxCommandBytes < command.length then pure (n, .error .tooLarge)
  else do
    let n := n.appendEntry command
    let index := n.logStore.lastIndex
    let n ← advanceCommitIndexWith apply n
    pure (n, .ok index)

def maybeAutoFinalizeWith (apply : RaftNode σ → Call (RaftNode σ)) (n : RaftNode σ) :
    Call (RaftNode σ) :=
  let fence := n.pendingAutoFinalizeFenceIndex
  if n.state ≠ .leader ∨ ¬ n.clusterConfiguration.isJointConsensus ∨
      n.finalizeConfigurationPending ∨ n.pendingAutoFinalizeMembers = [] then pure n
  else if fence = 0 ∨ n.commitIndex < fence ∨
      n.pendingAutoFinalizeMembers.any (fun id =>
        decide (id ≠ n.me.id) && decide ((n.matchIndex[id]?).getD 0 < fence)) then pure n
  else do
    let (n, result) ← submitCommandWith apply (Configuration.encode .finalize) n.currentMillis n
    match result with
    | .ok _ => pure { n with finalizeConfigurationPending := true }
    | .error _ => pure n

/-- The node under its new cluster configuration. -/
def adoptConfiguration (index : ℕ) (configuration : ClusterConfiguration) :
    RaftNode σ :=
  let n := { n with
    clusterConfiguration := configuration
    membershipEpoch := index
    decommissioned := !configuration.contains n.me.id }
  let n :=
    if configuration.contains n.me.id then
      let n :=
        if n.joining then (n.snapshotAdmittedMembership M index).persistJoinAdmission none
        else n
      { n with joining := false, joiningFrom := none }
    else n
  let n :=
    if configuration.isVoter n.me.id then n
    else { n with
      state := .follower
      knownLeaderId := none
      lastSuccessfulLeaderSyncMillis := none
      lastFollowerContactMillis := ∅
      grantedVotes := ∅ }
  let active := configuration.allMembers.map Peer.id
  { n with
    nextIndex := n.nextIndex.filter fun id _ => active.contains id
    matchIndex := n.matchIndex.filter fun id _ => active.contains id
    snapshotOffsets := n.snapshotOffsets.filter fun id _ => active.contains id }

/-- `none` when the data is not a configuration command. -/
def applyConfigurationCommandWith (apply : RaftNode σ → Call (RaftNode σ)) (index : ℕ)
    (data : Bytes) (n : RaftNode σ) : Call (Option (RaftNode σ)) :=
  match Configuration.decode data with
  | none => pure none
  | some (.join peer) =>
    pure (some { n with pendingJoiners := n.pendingJoiners.insert peer.id (peer, index) })
  | some (.joint members) => do
      let ids := members.map Peer.id
      let n := { n with
        pendingJoiners := n.pendingJoiners.filter fun id _ => !ids.contains id
        pendingAutoFinalizeMembers := ids
        pendingAutoFinalizeFenceIndex := index
        finalizeConfigurationPending := false }
      let configuration ← n.require (n.clusterConfiguration.transitionTo members)
      let n ← maybeAutoFinalizeWith apply (n.adoptConfiguration M index configuration)
      pure (some n)
  | some .finalize =>
    let n := { n with
      pendingAutoFinalizeMembers := []
      pendingAutoFinalizeFenceIndex := 0
      finalizeConfigurationPending := false }
    pure (some (n.adoptConfiguration M index n.clusterConfiguration.finalizeTransition))

/-- The loop of `apply_committed`. Every round applies one entry, and each
nested call starts after the entry that caused it, so the fuel bounds both. -/
def applyLoop : ℕ → RaftNode σ → Call (RaftNode σ)
  | 0, n => pure n
  | fuel + 1, n =>
    if n.lastApplied < n.commitIndex then
      let n := { n with lastApplied := n.lastApplied + 1 }
      match n.logStore.entryAt n.lastApplied with
      | none => applyLoop fuel n
      | some entry =>
        let n := n.record (.applied n.lastApplied entry)
        if entry.isNoop then applyLoop fuel n
        else do
          let apply := fun n => (applyLoop fuel n).map (maybeCompactLocalSnapshot M)
          match ← applyConfigurationCommandWith M apply n.lastApplied entry.data n with
          | some n => applyLoop fuel n
          | none => applyLoop fuel (n.applyToMachine M entry)
    else pure n

/-- Each entry is applied once, and each joint entry adds at most one more. -/
def applyFuel : ℕ := 2 * (n.logStore.lastIndex - n.lastApplied) + 1

def applyCommitted : Call (RaftNode σ) :=
  (applyLoop M n.applyFuel n).map (maybeCompactLocalSnapshot M)

def advanceCommitIndex : Call (RaftNode σ) :=
  advanceCommitIndexWith (applyCommitted M) n

def submitCommand (command : Bytes) (currentMillis : ℕ) (n : RaftNode σ) :
    Call (RaftNode σ × Except RaftError ℕ) :=
  submitCommandWith (applyCommitted M) command currentMillis n

def maybeAutoFinalizeJointConfiguration : Call (RaftNode σ) :=
  maybeAutoFinalizeWith (applyCommitted M) n

end Charlotte.Graft.RaftNode
