import Charlotte.Graft.Refinement.Commit

/-!
# Elections refine ballots

The vote handlers, the two-write changes of term and vote, and the start of a
leadership.
-/

namespace Charlotte.Graft

open Lib Lib.ReplicatedLog List Option ClusterConfiguration Call

variable {σ : Type} {S : Setting σ} {C : ClusterConfiguration} {g g' : Shadow S C} {q : Text}
  {n : RaftNode σ}

theorem ClusterConfiguration.exists_mem_allMembers {c : ClusterConfiguration} {id : Text}
    (h : c.contains id = true) : ∃ p ∈ c.allMembers, p.id = id := by
  rw [contains, Bool.or_eq_true, Members.contains_eq_isSome,
    Members.contains_eq_isSome, isSome_iff_exists, isSome_iff_exists] at h
  have key : ∀ (m : Members) (p : Peer), m.get? id = some p → p.id = id ∧ p ∈ m.values := by
    intro m p hp
    have hid : p.id = id := m.keyed hp
    exact ⟨hid, Members.mem_values.mpr (hid.symm ▸ hp)⟩
  have hmem : ∃ p : Peer, p.id = id ∧ p ∈ c.currentMembers.values ++ c.nextMembers.values := by
    rcases h with ⟨p, hp⟩ | ⟨p, hp⟩
    · exact ⟨p, (key _ p hp).1, mem_append_left _ (key _ p hp).2⟩
    · exact ⟨p, (key _ p hp).1, mem_append_right _ (key _ p hp).2⟩
  obtain ⟨p, rfl, hp⟩ := hmem
  exact exists_mem_distinctById hp (by simp)

namespace RaftNode

/-! ## Falling back -/

/-- A node that learns of a later term enters it as a follower without a vote.
A crash between the two writes leaves the old vote in the new term. -/
theorem Settled.stepDown (hs : n.Settled g q) {T : ℕ} (hT : n.currentTerm < T) (currentMillis : ℕ) :
    ∃ g', Progress q g n g' (n.stepDown T currentMillis) ∧
      (n.stepDown T currentMillis).Settled g' q := by
  have hn := hs.holds
  rw [hn.term] at hT
  obtain ⟨_, hg₁⟩ := g.exists_raise q n.persistentState.votedFor hT
  obtain ⟨g', hg'⟩ := g.exists_raise q none hT
  refine ⟨g', .detour hg₁.reach (hg₁.disk ?_) hg'.reach (hg'.disk ?_)
    (append_assoc _ _ _) rfl rfl, hg'.node ?_, hs.settled⟩
  · exact { hn.durable with term := rfl, vote := rfl }
  · exact { hn.durable with term := rfl, vote := rfl }
  · exact { hn with
      durable := { hn.durable with term := rfl, vote := rfl }
      term := rfl
      vote := rfl
      phase := rfl
      candidate := nofun
      leader := nofun
      pending := nofun }

/-! ## Taking the lead -/

theorem resetProgress_eq (members : List Peer) (lastIndex : ℕ) (n : RaftNode σ) :
    ∃ next matched offsets, n.resetProgress members lastIndex = { n with
        nextIndex := next, matchIndex := matched, snapshotOffsets := offsets } ∧
      ∀ p : Text, p ≠ n.me.id → ((∃ m ∈ members, m.id = p) ∨
          n.nextIndex[p]? = some (lastIndex + 1) ∧ n.matchIndex[p]? = some 0) →
        next[p]? = some (lastIndex + 1) ∧ matched[p]? = some 0 := by
  induction members generalizing n with
  | nil =>
    refine ⟨_, _, _, rfl, fun p _ h => ?_⟩
    simpa using h
  | cons m rest ih =>
    rw [resetProgress, foldl_cons]
    split
    · rename_i heq
      obtain ⟨next, matched, offsets, hn, hspec⟩ := ih n
      refine ⟨next, matched, offsets, hn, fun p hp h => hspec p hp ?_⟩
      rw [exists_mem_cons_iff] at h
      rcases h with (rfl | h) | h
      · exact absurd heq hp
      · exact .inl h
      · exact .inr h
    · obtain ⟨next, matched, offsets, hn, hspec⟩ := ih { n with
        nextIndex := n.nextIndex.insert m.id (lastIndex + 1)
        matchIndex := n.matchIndex.insert m.id 0
        snapshotOffsets := n.snapshotOffsets.insert m.id 0 }
      refine ⟨next, matched, offsets, hn, fun p hp h => hspec p hp ?_⟩
      simp only [Std.ExtTreeMap.getElem?_insert, Std.compare_eq_iff_eq]
      rw [exists_mem_cons_iff] at h
      by_cases hm : m.id = p
      · exact .inr (by simp [hm])
      · rcases h with (h | h) | h
        · exact absurd h hm
        · exact .inl h
        · exact .inr (by simp [hm, h])

theorem Settled.becomeLeader (hS : S.Fixed C) (hs : n.Settled g q)
    (hcand : n.state = .candidate) (hmaj : C.hasJointMajority n.grantedVotes = true)
    (currentMillis : ℕ) : Refined q g n (becomeLeader S.machine currentMillis n) := by
  have hn := hs.holds
  have hphase : (g.world.replica q).phase = .candidate := by
    rw [hn.phase, hcand]
    rfl
  have hquorum : C.quorums.IsQuorum
      {v | ∃ l, g.world.hist.ballot v (g.world.replica q).term = some (q, l)} :=
    C.quorums.mono (hn.candidate hcand) (isQuorum_of_hasJointMajority hmaj)
  obtain ⟨g₁, hg, hr, hw, hack, hsh⟩ := g.exists_elect q hphase hquorum
  have heff : (n.takeLead currentMillis).effectiveConfiguration = some C :=
    hn.effectiveConfiguration
  obtain ⟨next, matched, offsets, hreset, hspec⟩ := resetProgress_eq C.allMembers
    (n.takeLead currentMillis).logStore.lastIndex (n.takeLead currentMillis)
  have hprg : ∀ p, C.contains p = true → p ≠ q →
      next[p]? = some ((g.world.replica q).log.length + 1) ∧ matched[p]? = some 0 := by
    intro p hc hp
    rw [← hn.log.lastIndex]
    exact hspec p (hn.me ▸ hp) (.inl (exists_mem_allMembers hc))
  have hs₁ : ({ n.takeLead currentMillis with
      nextIndex := next, matchIndex := matched, snapshotOffsets := offsets } :
        RaftNode σ).Settled g₁ q := by
    refine ⟨.of_eq hr { hn with
      durable := { hn.durable with }
      phase := rfl
      candidate := nofun
      leader := fun _ => ⟨hack, ?_, ?_, ?_⟩
      pending := fun snap h => hg.pending (hn.pending snap h) }, hs.settled⟩
    · intro p hc hp
      simp [(hprg p hc hp).2]
    · intro p hc hp
      simp [(hprg p hc hp).1]
    · intro i b hb
      rw [hsh] at hb
      cases hb
  obtain ⟨_, hp₂, hs₂⟩ := hs₁.appendEntry rfl Configuration.decode_nil
  obtain ⟨g₃, n₃, hok, hp₃, hs₃⟩ := hs₂.advanceCommitIndex hS rfl
  refine ⟨g₃, n₃, ?_, ?_, hs₃⟩
  · rw [RaftNode.becomeLeader]
    simp only [heff, require_some, ok_bind, hreset]
    exact hok
  · have hdisk : n.durable.Matches g₁ q := .of_eq hr { hn.durable with }
    have helec : (Effect.elected n.currentTerm).Justified g₁ q := by
      rw [hn.term]
      exact hw
    refine (Progress.moves hg hdisk).trans ((Progress.record helec rfl).trans ?_)
    refine Progress.trans ?_ (hp₂.trans hp₃)
    exact .idle rfl rfl rfl

/-! ## Standing for election -/

theorem Matches.mayStand (hn : n.Matches g q) : n.mayStand = some (C.isVoter q) := by
  rw [RaftNode.mayStand, hn.joining, hn.effectiveConfiguration, hn.me]
  rfl

theorem Matches.hasElectionMajority (hn : n.Matches g q) :
    n.hasElectionMajority = some (C.hasJointMajority n.grantedVotes) := by
  rw [RaftNode.hasElectionMajority, hn.effectiveConfiguration]
  rfl

theorem mem_singleton_ids {id v : Text} (hid : id = q)
    (hv : ((∅ : TextSet).insert id).contains v = true) : v = q := by
  exact hid ▸ (by simpa using hv : id = v).symm

variable (hs : n.Settled g q)
include hs

/-- A candidate has cast its own ballot. A crash between the two writes leaves
the old vote in the new term. -/
theorem Settled.becomeCandidate (currentMillis : ℕ) :
    ∃ g', Progress q g n g' (n.becomeCandidate currentMillis) ∧
      (n.becomeCandidate currentMillis).Settled g' q ∧
      g'.world.hist.bid (g'.world.replica q).term q = some (g'.world.replica q).log := by
  have hn := hs.holds
  obtain ⟨_, hg₁⟩ := g.exists_raise q n.persistentState.votedFor
    (Nat.lt_succ_self (g.world.replica q).term)
  obtain ⟨g', hg, hr, hbid, hbal⟩ := g.exists_stand q
  have hterm : n.currentTerm + 1 = (g.world.replica q).term + 1 := congrArg _ hn.term
  have hvote : some n.me.id = some q := congrArg _ hn.me
  have hd : Durable.Holds S C { g.world.replica q with
        term := (g.world.replica q).term + 1, vote := some q, phase := .candidate }
      ⟨{ n.persistentState with currentTerm := n.currentTerm + 1, votedFor := some n.me.id },
        n.logStore⟩ :=
    { hn.durable with term := hterm, vote := hvote }
  have hd₁ : Durable.Holds S C { g.world.replica q with
        term := (g.world.replica q).term + 1, vote := n.persistentState.votedFor,
        phase := .follower }
      ⟨{ n.persistentState with currentTerm := n.currentTerm + 1 }, n.logStore⟩ :=
    { hn.durable with term := hterm, vote := rfl }
  have hgr : (Effect.granted (n.currentTerm + 1) n.me.id).Justified g' q := by
    rw [hterm, hn.me]
    exact ⟨_, hbal⟩
  refine ⟨g', ⟨⟨_, ?_, .detour hg₁.reach (hg₁.disk hd₁) hg (.of_eq hr hd)
    (.effect hgr rfl .done)⟩, rfl⟩, ⟨.of_eq hr ?_, hs.settled⟩, by rw [hr]; exact hbid⟩
  · exact (append_assoc _ _ _).trans (append_assoc _ _ _)
  · exact { hn with
      durable := hd
      term := hterm
      vote := hvote
      phase := rfl
      candidate := fun _ v hv => by
        rw [show v = q from mem_singleton_ids hn.me hv]
        exact ⟨_, hbal⟩
      leader := nofun
      pending := nofun }

theorem Settled.requestVotes
    (hb : g.world.hist.bid (g.world.replica q).term q = some (g.world.replica q).log)
    (members : List Peer) : ∃ es, n.requestVotes members = { n with effects := es } ∧
      Progress q g n g { n with effects := es } := by
  have hn := hs.holds
  apply Progress.foldl_send
  intro peer _ es
  split
  · exact .inl rfl
  · refine .inr ⟨_, ?_, rfl⟩
    refine ⟨(g.world.replica q).log, ?_, hn.log.lastIndex, hn.log.lastTerm⟩
    rw [hn.term, hn.me]
    exact hb

omit hs in
theorem Settled.startElection (hS : S.Fixed C) (hs : n.Settled g q) (currentMillis : ℕ) :
    Refined q g n (startElection S.machine currentMillis n) := by
  have hs₀ := hs.at currentMillis
  rw [RaftNode.startElection]
  apply Refined.of_at currentMillis
  generalize { n with currentMillis } = n at hs₀ ⊢
  have hn := hs₀.holds
  simp only [hn.mayStand, require_some, ok_bind]
  cases C.isVoter q with
  | false =>
    obtain ⟨g', hg'⟩ := g.exists_yield q
    refine ⟨g', _, rfl, ?_, hg'.node ?_, hs₀.settled⟩
    · refine (Progress.moves hg'.reach (hg'.disk { hn.durable with })).trans ?_
      exact .idle rfl rfl rfl
    · exact { hn with
        durable := { hn.durable with }
        phase := rfl
        candidate := nofun
        leader := nofun }
  | true =>
    obtain ⟨g₁, hp₁, hs₁, hb⟩ := hs₀.becomeCandidate currentMillis
    have hcand : (n.becomeCandidate currentMillis).state = .candidate := rfl
    generalize n.becomeCandidate currentMillis = n₁ at hp₁ hs₁ hcand ⊢
    obtain ⟨es, hes, hp₂⟩ := hs₁.requestVotes hb C.allMembers
    have hs₂ := hs₁.effects es
    simp only [Bool.not_true, Bool.false_eq_true, ↓reduceIte, hs₁.holds.effectiveConfiguration,
      require_some, ok_bind, hes, hs₂.holds.hasElectionMajority]
    split
    · rename_i hmaj
      obtain ⟨g₃, n₃, hok, hp₃, hs₃⟩ := hs₂.becomeLeader hS hcand hmaj currentMillis
      exact ⟨g₃, n₃, hok, hp₁.trans (hp₂.trans hp₃), hs₃⟩
    · exact ⟨g₁, _, rfl, hp₁.trans hp₂, hs₂⟩

/-! ## Votes -/

/-- A node that sees a request first catches up with its term. -/
theorem Settled.catchUp (T currentMillis : ℕ) : ∃ g', Progress q g n g'
        (if n.currentTerm < T then n.stepDown T currentMillis else n) ∧
      (if n.currentTerm < T then n.stepDown T currentMillis else n).Settled g' q ∧
      T ≤ (if n.currentTerm < T then n.stepDown T currentMillis else n).currentTerm := by
  split
  · rename_i hT
    obtain ⟨g', hp, hs'⟩ := hs.stepDown hT currentMillis
    exact ⟨g', hp, hs', le_rfl⟩
  · rename_i hT
    exact ⟨g, .refl g n, hs, not_lt.mp hT⟩

theorem Settled.grantVote {candidate : Text} {l : List LogEntry}
    (hv : n.votedFor = none ∨ n.votedFor = some candidate)
    (hb : g.world.hist.bid n.currentTerm candidate = some l)
    (hu : UpToDate LogEntry.term l (g.world.replica q).log) (currentMillis : ℕ) :
    ∃ g', Progress q g n g' (n.grantVote candidate currentMillis) ∧
      (n.grantVote candidate currentMillis).Settled g' q ∧
      ∃ l, g'.world.hist.ballot q n.currentTerm = some (candidate, l) := by
  have hn := hs.holds
  rw [hn.vote] at hv
  rw [hn.term] at hb
  obtain ⟨g', hg, hr, hsh, hbal⟩ := g.exists_cast q hv hb hu
  rw [← hn.term] at hbal
  have hd : Durable.Holds S C { g.world.replica q with vote := some candidate }
      ⟨{ n.persistentState with votedFor := some candidate }, n.logStore⟩ :=
    { hn.durable with vote := rfl }
  have hgr : (Effect.granted n.currentTerm candidate).Justified g' q := hbal
  refine ⟨g', ⟨⟨_, append_assoc _ _ _, .write hg (.of_eq hr hd)
    (.effect hgr rfl .done)⟩, rfl⟩, ⟨.of_eq hr ?_, hs.settled⟩, hbal⟩
  exact { hn with
    durable := hd
    vote := rfl
    candidate := fun hc v hv => (hn.candidate hc v hv).imp fun _ hl => hg.grows.ballot hl
    leader := fun hl => { (hn.leader hl).grow hg.grows (congrFun hsh _) with }
    pending := fun snap h => hg.pending (hn.pending snap h) }

theorem Settled.handleVoteRequest {dest : Text} {request : VoteRequest}
    (hm : (Message.voteRequest dest request).Justified g) (currentMillis : ℕ) :
    Answered q g n (handleVoteRequest request currentMillis n) fun g' response =>
      response.voteGranted = true →
        ∃ l, g'.world.hist.ballot q response.term = some (request.candidateId, l) := by
  have hs₀ := hs.at currentMillis
  rw [RaftNode.handleVoteRequest]
  apply Answered.of_at currentMillis
  generalize { n with currentMillis } = n at hs₀ ⊢
  obtain ⟨g₁, hp₁, hs₁, hT⟩ := hs₀.catchUp request.term currentMillis
  obtain ⟨l, hb, hi, ht⟩ := hp₁.reach.message hm
  generalize (if n.currentTerm < request.term then n.stepDown request.term currentMillis else n)
    = n₁ at hp₁ hs₁ hT ⊢
  have hn := hs₁.holds
  have hrfs : Answered q g n (.ok (n₁, ⟨n₁.me.id, n₁.currentTerm, false⟩))
      fun g' (response : VoteResponse) => response.voteGranted = true →
        ∃ l, g'.world.hist.ballot q response.term = some (request.candidateId, l) :=
    ⟨g₁, n₁, _, rfl, hp₁, hs₁, nofun⟩
  simp only [hn.joining, hn.effectiveConfiguration, require_some, ok_bind, pure_eq]
  split
  · exact hrfs
  rename_i hterm
  have heq : request.term = n₁.currentTerm := by
    simp at hterm
    omega
  split
  · rename_i hvote
    split
    · rename_i hlog
      simp only [Bool.and_eq_true, Bool.or_eq_true, isNone_iff_eq_none, beq_iff_eq] at hvote
      rw [heq] at hb
      have hu : UpToDate LogEntry.term l (g₁.world.replica q).log := by
        rw [hi, ht, hn.log.lastIndex, hn.log.lastTerm] at hlog
        rcases hlog with hlt | ⟨hteq, hle⟩
        · exact .inl hlt
        · exact .inr ⟨hteq.symm, hle⟩
      obtain ⟨g₂, hp₂, hs₂, hbal⟩ := hs₁.grantVote hvote.2 hb hu currentMillis
      exact ⟨g₂, _, _, rfl, hp₁.trans hp₂, hs₂, fun _ => hbal⟩
    · exact hrfs
  · exact hrfs

omit hs

theorem Settled.handleVoteResponse (hS : S.Fixed C) (hs : n.Settled g q) {peerId : Text}
    {response : VoteResponse} (hm : (Message.voteResponse q peerId response).Justified g)
    (currentMillis : ℕ) : Refined q g n
      (handleVoteResponse S.machine peerId response currentMillis n) := by
  have hs₀ := hs.at currentMillis
  rw [RaftNode.handleVoteResponse]
  apply Refined.of_at currentMillis
  generalize { n with currentMillis } = n at hs₀ ⊢
  have hn := hs₀.holds
  have hsame : Refined q g n (.ok n) := ⟨g, n, rfl, .refl g n, hs₀⟩
  simp only [hn.effectiveConfiguration, require_some, ok_bind, pure_eq]
  split
  · exact hsame
  rename_i hcand
  split
  · rename_i hT
    obtain ⟨g', hp, hs'⟩ := hs₀.stepDown hT currentMillis
    exact ⟨g', _, rfl, hp, hs'⟩
  split
  · exact hsame
  rename_i hgrt
  rw [not_or, not_not, Bool.not_eq_false] at hgrt
  split
  · have hs₁ : { n with grantedVotes := n.grantedVotes.insert peerId }.Settled g q := by
      refine ⟨{ hn with candidate := ?_, leader := fun hl => { hn.leader hl with } }, hs₀.settled⟩
      intro hc v hv
      rw [Std.ExtTreeSet.contains_insert, Bool.or_eq_true] at hv
      rcases hv with heq | hv
      · obtain rfl : peerId = v := by simpa using heq
        rw [← hn.term, ← hgrt.1]
        exact hm hgrt.2
      · exact hn.candidate hc v hv
    simp only [hs₁.holds.hasElectionMajority, require_some, ok_bind]
    split
    · rename_i hmaj
      obtain ⟨g₃, n₃, hok, hp₃, hs₃⟩ := hs₁.becomeLeader hS (not_not.mp hcand) hmaj currentMillis
      refine ⟨g₃, n₃, hok, Progress.trans ?_ hp₃, hs₃⟩
      exact .idle rfl rfl rfl
    · exact ⟨g, _, rfl, .idle rfl rfl rfl, hs₁⟩
  · exact hsame

end RaftNode

end Charlotte.Graft
