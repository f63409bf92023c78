import Charlotte.Graft.Safety.Election

/-!
# What a running node applies

A node applies entries in the order of their indices, each once. As long as none of them is a membership
change, the node's membership stays as it is and the application is handed exactly these entries. This
holds along every run, whatever membership changes it sees, for a node that is not restarted, does not
begin an admission and installs no snapshot.
-/

namespace Charlotte.Graft

open List Function

variable {σ : Type}

/-- The entries that effects apply, with their indices. -/
def appliedIn (effects : List Effect) : List (ℕ × LogEntry) :=
  effects.filterMap fun effect =>
    match effect with
    | .applied index entry => some (index, entry)
    | _ => none

namespace RaftNode

/-- What a node knows of the membership, its own admission included. -/
def membership (n : RaftNode σ) : ClusterConfiguration × TextMap (Peer × ℕ) × ℕ × Bool :=
  (n.clusterConfiguration, n.pendingJoiners, n.membershipEpoch, n.joining)

/-- What of a node matters here. -/
def view (n : RaftNode σ) := (appliedIn n.effects, n.me, n.lastApplied, n.membership, n.stateMachine)

variable (M : StateMachine σ)

/-- Between the two states the node has applied the entries. -/
structure Applies (new : List (ℕ × LogEntry)) (n n' : RaftNode σ) : Prop where
  me : n'.me = n.me
  le : n.lastApplied ≤ n'.lastApplied
  within : ∀ a ∈ new, n.lastApplied < a.1 ∧ a.1 ≤ n'.lastApplied
  order : new.Pairwise (·.1 < ·.1)
  /-- Entries that are no membership changes go to the application, and nowhere else. -/
  plain : (∀ a ∈ new, a.2.Plain) → n'.membership = n.membership ∧
    n'.stateMachine = n.stateMachine.map (M.replay · (new.map Prod.snd))

/-- A part of a call leads from one state to the other. -/
def Calls (n n' : RaftNode σ) : Prop :=
  ∃ new, appliedIn n'.effects = appliedIn n.effects ++ new ∧ n.Applies M new n'

/-- A call that returns leads to the node it returns. -/
structure Within {α : Type} (n : RaftNode σ) (f : α → RaftNode σ) (call : Call α) : Prop where
  calls : ∀ a, call = .ok a → n.Calls M (f a)

variable {M} {n n' n'' : RaftNode σ} {new new' : List (ℕ × LogEntry)}

theorem Applies.trans (h : n.Applies M new n') (h' : n'.Applies M new' n'') :
    n.Applies M (new ++ new') n'' where
  me := h'.me.trans h.me
  le := h.le.trans h'.le
  within := forall_mem_append.mpr
    ⟨fun a ha => ⟨(h.within a ha).1, (h.within a ha).2.trans h'.le⟩,
      fun a ha => ⟨h.le.trans_lt (h'.within a ha).1, (h'.within a ha).2⟩⟩
  order := pairwise_append.mpr
    ⟨h.order, h'.order, fun a ha b hb => (h.within a ha).2.trans_lt (h'.within b hb).1⟩
  plain := fun hplain => by
    obtain ⟨hleft, hright⟩ := forall_mem_append.mp hplain
    obtain ⟨hmembers, hmachine⟩ := h.plain hleft
    obtain ⟨hmembers', hmachine'⟩ := h'.plain hright
    refine ⟨hmembers'.trans hmembers, ?_⟩
    rw [hmachine', hmachine, Option.map_map, map_append]
    congr 1
    funext s
    exact (foldl_append ..).symm

theorem Applies.same (hme : n'.me = n.me) (hle : n.lastApplied ≤ n'.lastApplied)
    (hmembers : n'.membership = n.membership) (hmachine : n'.stateMachine = n.stateMachine) :
    n.Applies M [] n' :=
  ⟨hme, hle, nofun, .nil, fun _ => ⟨hmembers, hmachine.trans Option.map_id'.symm⟩⟩

theorem Calls.trans (h : n.Calls M n') (h' : n'.Calls M n'') : n.Calls M n'' := by
  obtain ⟨new, heffects, happlies⟩ := h
  obtain ⟨new', heffects', happlies'⟩ := h'
  exact ⟨new ++ new', by rw [heffects', heffects, append_assoc], happlies.trans happlies'⟩

/-- A change of other fields, with effects that apply nothing. -/
theorem Calls.same (h : n'.view = n.view) : n.Calls M n' := by
  simp only [view, Prod.mk.injEq] at h
  obtain ⟨heffects, hme, hlast, hmembers, hmachine⟩ := h
  exact ⟨[], heffects.trans (append_nil _).symm, .same hme hlast.ge hmembers hmachine⟩

theorem Calls.refl (n : RaftNode σ) : n.Calls M n := .same rfl

/-- The next entry is applied. -/
theorem Calls.applied (entry : LogEntry)
    (heffects : appliedIn n'.effects = appliedIn n.effects ++ [(n.lastApplied + 1, entry)])
    (hme : n'.me = n.me) (hlast : n'.lastApplied = n.lastApplied + 1)
    (hplain : entry.Plain → n'.membership = n.membership ∧
      n'.stateMachine = n.stateMachine.map (M.replay · [entry])) : n.Calls M n' := by
  refine ⟨_, heffects, hme, by omega, ?_, pairwise_singleton _ _, fun h => ?_⟩
  · rw [forall_mem_singleton]
    exact ⟨Nat.lt_succ_self _, hlast.ge⟩
  · exact hplain (h _ mem_cons_self)

section Rules

variable {α β : Type} {f : α → RaftNode σ} {g : β → RaftNode σ} {call : Call α} {k : α → Call β}

theorem Within.pure {a : α} (h : n.Calls M (f a)) : n.Within M f (Pure.pure a) where
  calls := by
    rintro _ ⟨⟩
    exact h

theorem Within.require {m : RaftNode σ} {x : Option α} (h : ∀ a, n.Within M g (k a)) :
    n.Within M g (m.require x >>= k) where
  calls := fun b hb => by
    obtain ⟨a, -, hb⟩ := Call.bind_eq_ok.mp hb
    exact (h a).calls b hb

theorem Within.bind (h : n.Within M f call) (h' : ∀ a, (f a).Within M g (k a)) :
    n.Within M g (call >>= k) where
  calls := fun b hb => by
    obtain ⟨a, ha, hb⟩ := Call.bind_eq_ok.mp hb
    exact (h.calls a ha).trans ((h' a).calls b hb)

theorem Within.map (h : n.Within M f call) {change : α → β} (h' : ∀ a, (f a).Calls M (g (change a))) :
    n.Within M g (call.map change) where
  calls := fun b hb => by
    obtain ⟨a, ha, rfl⟩ := Call.map_eq_ok.mp hb
    exact (h.calls a ha).trans (h' a)

theorem Within.node {call : Call (RaftNode σ × β)} (h : n.Within M Prod.fst call) :
    n.Within M id (call.map Prod.fst) :=
  h.map fun result => .refl result.1

theorem Within.after (h' : n'.Within M f call) (h : n.Calls M n') : n.Within M f call where
  calls := fun a ha => h.trans (h'.calls a ha)

end Rules

theorem calls_clock (currentMillis : ℕ) (n : RaftNode σ) : n.Calls M { n with currentMillis } :=
  .same rfl

theorem calls_appendEntry (data : Bytes) (n : RaftNode σ) : n.Calls M (n.appendEntry data) :=
  .same (by simp [view, membership, appendEntry, store, appliedIn])

/-! ### Applying what is committed -/

section Apply

variable {apply : RaftNode σ → Call (RaftNode σ)} (happly : ∀ m : RaftNode σ, m.Within M id (apply m))

include happly

theorem within_advance (n : RaftNode σ) : n.Within M id (advanceCommitIndexWith apply n) := by
  refine .require fun candidate => ?_
  split
  · exact (happly _).after (.same rfl)
  · exact .pure (.refl n)

theorem within_submitWith (command : Bytes) (currentMillis : ℕ) (n : RaftNode σ) :
    n.Within M Prod.fst (submitCommandWith apply command currentMillis n) := by
  unfold submitCommandWith
  simp only
  split
  · exact .pure (calls_clock ..)
  split
  · exact .pure (calls_clock ..)
  · exact Within.bind (f := id) (g := Prod.fst) ((within_advance happly _).after
      ((calls_clock ..).trans (calls_appendEntry ..))) fun m => .pure (.refl m)

theorem within_autoFinalize (n : RaftNode σ) : n.Within M id (maybeAutoFinalizeWith apply n) := by
  unfold maybeAutoFinalizeWith
  simp only
  split
  · exact .pure (.refl n)
  split
  · exact .pure (.refl n)
  · refine (within_submitWith happly _ _ n).bind fun ⟨m, result⟩ => ?_
    cases result with
    | ok => exact .pure (.same rfl)
    | error => exact .pure (.refl m)

end Apply

theorem adoptConfiguration_same (n : RaftNode σ) (index : ℕ) (configuration : ClusterConfiguration) :
    appliedIn (n.adoptConfiguration M index configuration).effects = appliedIn n.effects ∧
      (n.adoptConfiguration M index configuration).me = n.me ∧
      (n.adoptConfiguration M index configuration).lastApplied = n.lastApplied := by
  simp only [adoptConfiguration, snapshotAdmittedMembership]
  repeat' split
  all_goals exact ⟨by simp [store, persistJoinAdmission, persist, appliedIn], rfl, rfl⟩

/-- A membership change is applied. -/
theorem calls_configuration {apply : RaftNode σ → Call (RaftNode σ)}
    (happly : ∀ m : RaftNode σ, m.Within M id (apply m)) {entry : LogEntry}
    (hchange : ¬ entry.Plain) {m : RaftNode σ}
    (hm : m = { n with lastApplied := n.lastApplied + 1 }.record (.applied (n.lastApplied + 1) entry))
    {result : Option (RaftNode σ)}
    (h : applyConfigurationCommandWith M apply m.lastApplied entry.data m = .ok result) :
    ∃ n', result = some n' ∧ n.Calls M n' := by
  have heffects : appliedIn m.effects = appliedIn n.effects ++ [(n.lastApplied + 1, entry)] := by
    rw [hm]
    simp [record, appliedIn]
  have hme : m.me = n.me := by rw [hm]; rfl
  have hlast : m.lastApplied = n.lastApplied + 1 := by rw [hm]; rfl
  have hvacuous : ∀ m' : RaftNode σ, appliedIn m'.effects = appliedIn m.effects → m'.me = m.me →
      m'.lastApplied = m.lastApplied → n.Calls M m' := fun m' he hi hl =>
    .applied entry (he.trans heffects) (hi.trans hme) (hl.trans hlast) fun hplain =>
      absurd hplain hchange
  have hadopt : ∀ (m' : RaftNode σ) (index : ℕ) (configuration : ClusterConfiguration),
      m'.effects = m.effects → m'.me = m.me → m'.lastApplied = m.lastApplied →
      n.Calls M (m'.adoptConfiguration M index configuration) := fun m' index configuration he hi hl => by
    obtain ⟨he', hi', hl'⟩ := m'.adoptConfiguration_same (M := M) index configuration
    exact hvacuous _ (he'.trans (congrArg appliedIn he)) (hi'.trans hi) (hl'.trans hl)
  unfold applyConfigurationCommandWith at h
  split at h
  · next hd => exact absurd hd hchange
  · cases h
    exact ⟨_, rfl, hvacuous _ rfl rfl rfl⟩
  · obtain ⟨configuration, -, h⟩ := Call.bind_eq_ok.mp h
    obtain ⟨n₁, h₁, h⟩ := Call.bind_eq_ok.mp h
    cases h
    have hauto := (within_autoFinalize happly _).calls n₁ h₁
    refine ⟨n₁, rfl, Calls.trans ?_ hauto⟩
    exact hadopt _ _ _ rfl rfl rfl
  · cases h
    exact ⟨_, rfl, hadopt _ _ _ rfl rfl rfl⟩

theorem calls_applyToMachine {entry : LogEntry} (hnoop : entry.isNoop = false) :
    n.Calls M (({ n with lastApplied := n.lastApplied + 1 }.record
      (.applied (n.lastApplied + 1) entry)).applyToMachine M entry) := by
  unfold applyToMachine
  cases h : n.stateMachine with
  | none =>
    simp only [record]
    exact .applied entry (by simp [appliedIn]) rfl rfl fun _ => ⟨rfl, by simp [h]⟩
  | some machine =>
    simp only [record]
    exact .applied entry (by simp [appliedIn]) rfl rfl fun _ =>
      ⟨rfl, by simp [h, StateMachine.replay, hnoop]⟩

theorem calls_compact (n : RaftNode σ) : n.Calls M (n.maybeCompactLocalSnapshot M) := by
  unfold maybeCompactLocalSnapshot
  split
  · exact .refl n
  split
  · exact .refl n
  · exact .same (by simp [view, membership, store, appliedIn])

/-- The induction is on the fuel; a membership change makes a nested call with less of it. -/
theorem within_applyLoop (fuel : ℕ) (n : RaftNode σ) : n.Within M id (applyLoop M fuel n) := by
  induction fuel generalizing n with
  | zero => exact .pure (.refl n)
  | succ fuel ih =>
    rw [applyLoop]
    split
    · simp only
      split
      · exact (ih _).after ⟨[], (append_nil _).symm, .same rfl (Nat.le_succ _) rfl rfl⟩
      · rename_i entry hentry
        split
        · rename_i hnoop
          refine (ih _).after (.applied entry (by simp [record, appliedIn]) rfl rfl fun _ => ⟨rfl, ?_⟩)
          simp [record, StateMachine.replay, hnoop]
        · rename_i hnoop
          refine ⟨fun n' h => ?_⟩
          obtain ⟨result, hresult, h⟩ := Call.bind_eq_ok.mp h
          by_cases hplain : entry.Plain
          · have hnone : Configuration.decode entry.data = none := hplain
            simp only [applyConfigurationCommandWith, hnone] at hresult
            cases hresult
            exact (calls_applyToMachine (Bool.eq_false_iff.mpr hnoop)).trans ((ih _).calls n' h)
          · obtain ⟨n₁, rfl, hcalls⟩ :=
              calls_configuration (fun m => (ih m).map calls_compact) hplain rfl hresult
            exact hcalls.trans ((ih n₁).calls n' h)
    · exact .pure (.refl n)

theorem within_applyCommitted (n : RaftNode σ) : n.Within M id (n.applyCommitted M) :=
  (within_applyLoop _ n).map calls_compact

theorem within_advanceCommitIndex (n : RaftNode σ) : n.Within M id (n.advanceCommitIndex M) :=
  within_advance within_applyCommitted n

theorem within_submitCommand (command : Bytes) (currentMillis : ℕ) (n : RaftNode σ) :
    n.Within M Prod.fst (submitCommand M command currentMillis n) :=
  within_submitWith within_applyCommitted command currentMillis n

/-! ### The handlers -/

variable (currentMillis : ℕ) (n : RaftNode σ)

theorem calls_stepDown (term : ℕ) : n.Calls M (n.stepDown term currentMillis) :=
  .same (by simp [view, membership, stepDown, persistCurrentTerm, persistVotedFor, persist,
    armElectionTimer, electionTimeoutMillis, random, appliedIn])

theorem calls_foldl {α : Type} {step : RaftNode σ → α → RaftNode σ}
    (h : ∀ (n : RaftNode σ) a, n.Calls M (step n a)) (items : List α) :
    n.Calls M (items.foldl step n) := by
  induction items generalizing n with
  | nil => exact .refl n
  | cons a items ih => exact (h n a).trans (ih _)

theorem calls_send (message : Message) : n.Calls M (n.send message) :=
  .same (by simp [view, membership, send, record, appliedIn])

theorem calls_resetProgress (members : List Peer) (lastIndex : ℕ) :
    n.Calls M (n.resetProgress members lastIndex) := by
  refine calls_foldl n (fun n peer => ?_) members
  split
  · exact .refl n
  · exact .same rfl

theorem within_becomeLeader : n.Within M id (becomeLeader M currentMillis n) := by
  have hlead : n.Calls M (n.takeLead currentMillis) :=
    .same (by simp [view, membership, takeLead, record, appliedIn])
  refine .require fun configuration => (within_advanceCommitIndex _).after ?_
  exact hlead.trans ((calls_resetProgress ..).trans (calls_appendEntry ..))

theorem calls_requestVotes (members : List Peer) : n.Calls M (n.requestVotes members) := by
  refine calls_foldl n (fun n peer => ?_) members
  split
  · exact .refl n
  · exact calls_send n _

theorem calls_becomeCandidate : n.Calls M (n.becomeCandidate currentMillis) :=
  .same (by simp [view, membership, becomeCandidate, persistCurrentTerm, persistVotedFor, persist,
    record, armElectionTimer, electionTimeoutMillis, random, appliedIn])

theorem within_startElection : n.Within M id (startElection M currentMillis n) := by
  refine .require fun stands => ?_
  split
  · exact .pure (.same rfl)
  · refine .require fun configuration => .require fun majority => ?_
    have hvotes := ((calls_clock (M := M) currentMillis n).trans
      (calls_becomeCandidate currentMillis _)).trans (calls_requestVotes _ configuration.allMembers)
    split
    · exact (within_becomeLeader currentMillis _).after hvotes
    · exact .pure hvotes

theorem within_handleVoteRequest (request : VoteRequest) :
    n.Within M Prod.fst (handleVoteRequest request currentMillis n) := by
  unfold handleVoteRequest
  simp only
  generalize hm : (if { n with currentMillis }.currentTerm < request.term then
    { n with currentMillis }.stepDown request.term currentMillis else { n with currentMillis }) = m
  have hcalls : n.Calls M m := by
    rw [← hm]
    split
    · exact (calls_clock ..).trans (calls_stepDown ..)
    · exact calls_clock ..
  refine .after ?_ hcalls
  repeat' first
    | exact .pure (.refl _)
    | refine .require fun _ => ?_
    | split
  exact .pure (.same (by simp [view, membership, grantVote, persistVotedFor, persist, record,
    armElectionTimer, electionTimeoutMillis, random, appliedIn]))

theorem within_handleVoteResponse (peerId : Text) (response : VoteResponse) :
    n.Within M id (handleVoteResponse M peerId response currentMillis n) := by
  unfold handleVoteResponse
  refine .after ?_ (calls_clock currentMillis n)
  generalize { n with currentMillis } = m
  simp only
  repeat' first
    | exact .pure (.refl _)
    | exact .pure (calls_stepDown ..)
    | split
  refine .require fun configuration => ?_
  have hvote : m.Calls M { m with grantedVotes := m.grantedVotes.insert peerId } := .same rfl
  split
  · refine .after (.require fun majority => ?_) hvote
    split
    · exact within_becomeLeader currentMillis _
    · exact .pure (.refl _)
  · exact .pure (.refl m)

theorem calls_followLeader (leaderId : Text) (term : ℕ) :
    n.Calls M (n.followLeader leaderId term currentMillis) := by
  unfold followLeader
  split
  · exact (calls_stepDown currentMillis n term).trans (.same rfl)
  · split <;> exact .same rfl

theorem calls_mergeEntries (entries : List LogEntry) (index : ℕ) :
    n.Calls M (n.mergeEntries index entries) := by
  induction entries generalizing index with
  | nil => exact .refl n
  | cons entry rest ih =>
    unfold mergeEntries
    split
    · split
      · exact .same (by simp [view, membership, store, appliedIn])
      · exact ih _
    · exact .same (by simp [view, membership, store, appliedIn])

theorem within_followCommit (leaderCommit lastNewIndex : ℕ) :
    n.Within M id (n.followCommit M leaderCommit lastNewIndex) := by
  unfold followCommit
  simp only
  split
  · exact (within_applyCommitted _).after (.same rfl)
  · exact .pure (.refl _)

theorem within_handleAppendEntries (request : AppendEntriesRequest) :
    n.Within M Prod.fst (handleAppendEntries M request currentMillis n) := by
  unfold handleAppendEntries
  refine .after ?_ (calls_clock currentMillis n)
  generalize { n with currentMillis } = m
  simp only
  split
  · exact .pure (.refl m)
  split
  · exact .pure (.refl m)
  refine .after ?_ (calls_followLeader currentMillis m request.leaderId request.term)
  split
  · exact .pure (.refl _)
  unfold appendFromLeader
  simp only
  repeat' first
    | exact .pure (.refl _)
    | split
  exact ((within_followCommit ..).after (calls_mergeEntries ..)).bind fun m => .pure (.same rfl)

theorem within_handleAppendEntriesResponse (peerId : Text) (response : AppendEntriesResponse) :
    n.Within M id (handleAppendEntriesResponse M peerId response currentMillis n) := by
  unfold handleAppendEntriesResponse
  refine .after ?_ (calls_clock currentMillis n)
  generalize { n with currentMillis } = m
  simp only
  repeat' first
    | exact .pure (.refl _)
    | exact .pure (calls_stepDown ..)
    | refine .require fun _ => ?_
    | split
  · refine Within.bind (f := id) (g := id) ((within_advanceCommitIndex _).after ?_) fun m =>
      within_autoFinalize within_applyCommitted m
    exact .same rfl
  · exact .pure (.same rfl)

theorem within_handleInstallSnapshot {request : InstallSnapshotRequest} (hdone : request.done = false) :
    n.Within M Prod.fst (handleInstallSnapshot M request currentMillis n) := by
  unfold handleInstallSnapshot
  refine .after ?_ (calls_clock currentMillis n)
  generalize { n with currentMillis } = m
  simp only
  split
  · exact .pure (.refl m)
  split
  · exact .pure (.refl m)
  refine .after ?_ (calls_followLeader currentMillis m request.leaderId request.term)
  unfold takeChunk
  simp only [hdone]
  repeat' first
    | exact .pure (.same rfl)
    | split

theorem within_handleInstallSnapshotResponse (peerId : Text) (response : InstallSnapshotResponse)
    (sentNextOffset : ℕ) (sentDone : Bool) : n.Within M id
      (handleInstallSnapshotResponse M peerId response sentNextOffset sentDone currentMillis n) := by
  unfold handleInstallSnapshotResponse
  refine .after ?_ (calls_clock currentMillis n)
  generalize { n with currentMillis } = m
  simp only
  repeat' first
    | exact .pure (.refl _)
    | exact .pure (calls_stepDown ..)
    | exact .pure (.same rfl)
    | exact (within_advanceCommitIndex _).after (.same rfl)
    | refine .require fun _ => ?_
    | split

theorem within_submitJoint (members : List Peer) :
    n.Within M Prod.fst (submitJointConfiguration M members currentMillis n) := by
  unfold submitJointConfiguration
  split
  · exact .pure (.refl n)
  · refine (within_submitCommand _ currentMillis n).bind fun ⟨m, result⟩ => ?_
    cases result with
    | error => exact .pure (.refl m)
    | ok => exact (within_autoFinalize within_applyCommitted m).bind fun m => .pure (.refl m)

theorem within_submitJoin (peer : Peer) : n.Within M Prod.fst (submitJoin M peer currentMillis n) := by
  unfold submitJoin
  repeat' first
    | exact .pure (.refl n)
    | split
  exact within_submitCommand _ currentMillis n

theorem calls_sendHeartbeats (peers : List Peer) : n.Calls M (n.sendHeartbeats peers) := by
  refine calls_foldl n (fun n peer => ?_) peers
  split
  · exact .refl n
  split
  · exact calls_send n _
  · exact .refl n

theorem within_promote : n.Within M id (maybePromotePendingJoiners M currentMillis n) := by
  unfold maybePromotePendingJoiners
  simp only
  repeat' first
    | exact .pure (.refl n)
    | split
  exact Within.bind (f := Prod.fst) (g := id) (within_submitJoint currentMillis n _) fun m =>
    .pure (.refl m.1)

theorem within_broadcastHeartbeat : n.Within M id (broadcastHeartbeat M currentMillis n) := by
  unfold broadcastHeartbeat
  refine .after ?_ (calls_clock currentMillis n)
  generalize { n with currentMillis } = m
  simp only
  split
  · exact .pure (.refl m)
  · exact .require fun peers => (within_promote ..).after (calls_sendHeartbeats ..)

theorem within_beginRead (query : Bytes) (domain : Option ℕ) :
    n.Within M Prod.fst (beginRead M query currentMillis domain n) := by
  unfold beginRead
  repeat' first
    | exact .pure (.refl n)
    | split
  refine Within.bind (f := id) (g := Prod.fst) ((within_advanceCommitIndex _).after
    (Calls.trans ?_ (calls_appendEntry ..))) fun m => .pure (.refl m)
  exact .same rfl

end RaftNode

/-! ### Runs -/

/-- The last piece of a snapshot. -/
def Message.completes : Message → Bool
  | .installSnapshot _ request => request.done
  | _ => false

namespace Cluster

variable {S : Setting σ} {c : Cluster σ} {p q : Text} {m : RaftNode σ}

/-- The entries that a node has applied, in this process and in earlier ones. -/
def appliedBy (c : Cluster σ) (p : Text) : List (ℕ × LogEntry) :=
  appliedIn ((c.history.filter (·.1 = p)).map Prod.snd)

/-- The step does not end or restart the node's process, makes it begin no admission and completes no
snapshot for it. -/
def Spares (c : Cluster σ) (p : Text) : Action → Prop
  | .start id _ | .crash id | .beginJoining id _ _ => id ≠ p
  | .deliver position _ _ _ =>
    ∀ message ∈ c.messageAt position, message.dest = p → message.completes = false
  | _ => True

instance (c : Cluster σ) (p : Text) : DecidablePred (c.Spares p)
  | .start id _ | .crash id | .beginJoining id _ _ => inferInstanceAs (Decidable (id ≠ p))
  | .deliver position _ _ _ => inferInstanceAs (Decidable (∀ message ∈ c.messageAt position, _))
  | .startElection _ _ | .broadcastHeartbeat _ _ | .submitCommand _ _ _ | .beginRead _ _ _ _
  | .submitJointConfiguration _ _ _ | .submitFinalizeConfiguration _ _ | .submitJoin _ _ _ => isTrue trivial

theorem appliedBy_observe (c : Cluster σ) (q p : Text) (effects : List Effect) :
    (c.observe q effects).appliedBy p = c.appliedBy p ++ if q = p then appliedIn effects else [] := by
  simp only [appliedBy, observe, filter_append, filter_map, map_append, appliedIn, filterMap_append]
  split
  · next h => simp [Function.comp_def, h]
  · next h => simp [Function.comp_def, h]

/-- What a call leaves of a process. -/
theorem settle_cases {call : Call (Option (RaftNode σ))} {cut : Option ℕ}
    (hm : (c.settle q call cut).nodes p = some m) :
    (q ≠ p ∧ c.nodes p = some m ∧ (c.settle q call cut).appliedBy p = c.appliedBy p) ∨
      q = p ∧ ∃ n', call = .ok (some n') ∧ m = { n' with effects := [] } ∧
        (c.settle q call cut).appliedBy p = c.appliedBy p ++ appliedIn n'.effects := by
  by_cases hid : q = p
  · subst hid
    refine .inr ⟨rfl, ?_⟩
    unfold settle at hm ⊢
    cases cut with
    | some => simp [setNode] at hm
    | none =>
      rcases call with _ | _ | n'
      · simp [setNode] at hm
      · simp [setNode] at hm
      · simp only [setNode, update_self, Option.some.injEq] at hm
        exact ⟨n', rfl, hm.symm, (c.appliedBy_observe q q _).trans (by rw [if_pos rfl])⟩
  · have hother : ∀ (effects : List Effect) (node : Option (RaftNode σ)),
        ((c.observe q effects).setNode q node).nodes p = c.nodes p ∧
        ((c.observe q effects).setNode q node).appliedBy p = c.appliedBy p := fun effects node =>
      ⟨update_of_ne (Ne.symm hid) _ _,
        (c.appliedBy_observe q p effects).trans (by rw [if_neg hid, append_nil])⟩
    refine .inl ⟨hid, ?_⟩
    unfold settle at hm ⊢
    simp only at hm ⊢
    split at hm <;> exact ⟨(hother _ _).1.symm.trans hm, (hother _ _).2⟩

/-- Between steps the effects of a node are in the history. -/
structure Idle (c : Cluster σ) : Prop where
  effects : ∀ {q n}, c.nodes q = some n → n.effects = []

theorem Idle.settle (h : c.Idle) (q : Text) (call : Call (Option (RaftNode σ))) (cut : Option ℕ) :
    (c.settle q call cut).Idle where
  effects := fun hn => by
    obtain ⟨-, hn, -⟩ | ⟨-, _, -, rfl, -⟩ := settle_cases hn
    · exact h.effects hn
    · rfl

theorem Idle.call (h : c.Idle) (q : Text) (cut : Option ℕ) (body : RaftNode σ → Call (RaftNode σ)) :
    (c.call q cut body).Idle := by
  unfold Cluster.call
  split
  · exact h
  · exact h.settle ..

theorem Idle.step (h : c.Idle) (s : Step) : (step S c s).Idle := by
  obtain ⟨action, cut⟩ := s
  cases action with
  | start id =>
    simp only [Cluster.step]
    split
    · exact h
    · exact Idle.settle (c := { c with starts := update c.starts id (c.starts id + 1) }) ⟨h.effects⟩ ..
  | crash id =>
    refine ⟨fun {q n} hn => ?_⟩
    rcases eq_or_ne q id with rfl | hne
    · simp [Cluster.step, setNode] at hn
    · exact h.effects ((update_of_ne hne _ _).symm.trans hn)
  | deliver =>
    simp only [Cluster.step]
    split
    · exact h
    · exact h.call ..
  | beginRead => exact Idle.call (c := { c with domains := c.domains + 1 }) ⟨h.effects⟩ ..
  | _ => exact h.call ..

theorem idle_run (steps : List Step) : (run S steps).Idle := by
  induction steps using reverseRecOn with
  | nil => exact ⟨nofun⟩
  | append_singleton steps s ih =>
    rw [run, foldl_append]
    exact ih.step s

/-- From one state to the other a node has applied entries and become `m`. -/
def Brings (M : StateMachine σ) (c c' : Cluster σ) (p : Text) (m : RaftNode σ) : Prop :=
  ∃ n, c.nodes p = some n ∧ ∃ new, c'.appliedBy p = c.appliedBy p ++ new ∧ n.Applies M new m

variable {M : StateMachine σ}

theorem Brings.same {c' : Cluster σ} (hm : c.nodes p = some m) (h : c'.appliedBy p = c.appliedBy p) :
    Brings M c c' p m :=
  ⟨m, hm, [], h.trans (append_nil _).symm, .same rfl le_rfl rfl rfl⟩

/-- A call of the node itself, or of another one. -/
theorem call_applies {cut : Option ℕ} {body : RaftNode σ → Call (RaftNode σ)}
    (hidle : c.Idle) (hbody : q = p → ∀ n : RaftNode σ, n.Within M id (body n))
    (hm : (c.call q cut body).nodes p = some m) : Brings M c (c.call q cut body) p m := by
  unfold Cluster.call at hm ⊢
  split at hm
  · exact .same hm rfl
  rename_i n hn
  obtain ⟨-, hm, happlied⟩ | ⟨rfl, n', hcall, rfl, happlied⟩ := settle_cases hm
  · exact .same hm happlied
  · obtain ⟨_, hok, ⟨⟩⟩ := Call.map_eq_ok.mp hcall
    obtain ⟨new, heffects, happlies⟩ := (hbody rfl n).calls n' hok
    rw [hidle.effects hn] at heffects
    exact ⟨n, hn, new, happlied.trans (congrArg _ heffects),
      ⟨happlies.me, happlies.le, happlies.within, happlies.order, happlies.plain⟩⟩

/-- A message that completes no snapshot. -/
theorem within_handle {message : Message} (hdone : message.completes = false)
    (keep : ℕ) (echo : Bool) (currentMillis : ℕ) (n : RaftNode σ) :
    n.Within M id (message.handle M keep echo currentMillis n) := by
  cases message with
  | voteRequest =>
    exact (n.within_handleVoteRequest currentMillis _).bind fun result =>
      .pure (RaftNode.calls_send result.1 _)
  | voteResponse => exact RaftNode.within_handleVoteResponse ..
  | appendEntries =>
    exact (RaftNode.within_handleAppendEntries ..).bind fun result =>
      .pure (RaftNode.calls_send result.1 _)
  | appendEntriesResponse => exact RaftNode.within_handleAppendEntriesResponse ..
  | installSnapshot dest request =>
    exact (RaftNode.within_handleInstallSnapshot _ _ hdone).bind fun result =>
      .pure (RaftNode.calls_send result.1 _)
  | installSnapshotResponse => exact RaftNode.within_handleInstallSnapshotResponse ..

/-- A step that spares the node. -/
theorem step_applies {s : Step} (hidle : c.Idle) (hs : c.Spares p s.action)
    (hm : (step S c s).nodes p = some m) : Brings S.machine c (step S c s) p m := by
  obtain ⟨action, cut⟩ := s
  cases action with
  | start id currentMillis =>
    simp only [step] at hm ⊢
    split at hm
    · exact .same hm rfl
    · obtain ⟨-, hnode, happlied⟩ | ⟨hid, -⟩ := settle_cases hm
      · exact .same hnode happlied
      · exact absurd hid hs
  | crash id => exact .same ((update_of_ne (Ne.symm hs) _ _).symm.trans hm) rfl
  | startElection => exact call_applies hidle (fun _ n => n.within_startElection ..) hm
  | broadcastHeartbeat => exact call_applies hidle (fun _ n => n.within_broadcastHeartbeat ..) hm
  | submitCommand | submitFinalizeConfiguration =>
    exact call_applies hidle (fun _ n => (n.within_submitCommand ..).node) hm
  | beginRead =>
    exact call_applies (c := { c with domains := c.domains + 1 }) ⟨hidle.effects⟩
      (fun _ n => (n.within_beginRead ..).node) hm
  | submitJointConfiguration =>
    exact call_applies hidle (fun _ n => (n.within_submitJoint ..).node) hm
  | submitJoin =>
    exact call_applies hidle (fun _ n => (n.within_submitJoin ..).node) hm
  | beginJoining => exact call_applies hidle (fun hid => absurd hid hs) hm
  | deliver position keep echo currentMillis =>
    simp only [step] at hm ⊢
    split at hm
    · exact .same hm rfl
    · rename_i message hmessage
      exact call_applies hidle (fun hid n => within_handle (hs message hmessage hid) ..) hm

/-- The steps from the `j`-th to the `k`-th spare the node. -/
def SparesBetween (S : Setting σ) (steps : List Step) (p : Text) (j k : ℕ) : Prop :=
  ∀ i s, j ≤ i → i < k → steps[i]? = some s → (run S (steps.take i)).Spares p s.action

/-- What a node has applied from one state of a run to a later one. -/
theorem run_applies {steps : List Step} {j k : ℕ} (hjk : j ≤ k) (hspares : SparesBetween S steps p j k)
    (hm : (run S (steps.take k)).nodes p = some m) :
    Brings S.machine (run S (steps.take j)) (run S (steps.take k)) p m := by
  induction k, hjk using Nat.le_induction generalizing m with
  | base => exact .same hm rfl
  | succ k hjk ih =>
    cases hs : steps[k]? with
    | none =>
      rw [take_add_one, hs, Option.toList_none, append_nil] at hm ⊢
      exact ih (fun i s hi hlt => hspares i s hi (Nat.lt_succ_of_lt hlt)) hm
    | some s =>
      rw [run_of_getElem? hs] at hm ⊢
      obtain ⟨n', hn', new', happlied', happlies'⟩ :=
        step_applies (idle_run _) (hspares k s hjk (Nat.lt_succ_self k) hs) hm
      obtain ⟨n, hn, new, happlied, happlies⟩ :=
        ih (fun i s hi hlt => hspares i s hi (Nat.lt_succ_of_lt hlt)) hn'
      exact ⟨n, hn, new ++ new', by rw [happlied', happlied, append_assoc], happlies.trans happlies'⟩

end Cluster

end Charlotte.Graft
