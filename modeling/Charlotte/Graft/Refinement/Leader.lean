import Charlotte.Graft.Refinement.Snapshot

/-!
# The leader's side

Responses raise what the leader knows of its followers, and every message of a
heartbeat is a piece of the leader's log or of its snapshot.
-/

namespace Charlotte.Graft

open Lib Lib.ReplicatedLog List Option Function Call

variable {σ : Type} {S : Setting σ} {C : ClusterConfiguration} {g g' : Shadow S C} {q : Text}
  {n : RaftNode σ}

namespace RaftNode

/-! ## Responses -/

theorem Matches.acceptsReplicationResponse (hn : n.Matches g q) (peerId reported : Text) :
    n.acceptsReplicationResponse peerId reported =
      some (decide (peerId = reported) && decide (peerId ≠ q) && C.contains peerId) := by
  rw [RaftNode.acceptsReplicationResponse, hn.effectiveConfiguration, hn.me, hn.joiners]
  by_cases h : peerId ≠ reported ∨ peerId = q
  · rcases h with h | h <;> simp [h]
  · rw [not_or, not_not] at h
    obtain ⟨rfl, hne⟩ := h
    simp [hne]

theorem saturatingAdd_one_le (a : ℕ) : saturatingAdd a 1 ≤ a + 1 := min_le_left _ _

theorem saturatingAdd_one_pos (a : ℕ) : 0 < saturatingAdd a 1 := by
  rw [saturatingAdd]
  omega

/-- What a follower has confirmed is in the leader's log. -/
theorem Matches.acked_le (hn : n.Matches g q) (hl : n.state = .leader) (p : Text) :
    g.world.hist.acked p (g.world.replica q).term ≤ (g.world.replica q).log.length := by
  rcases Nat.eq_zero_or_pos (g.world.hist.acked p (g.world.replica q).term) with _ | hpos
  · omega
  · rw [← hn.lead hl]
    exact (g.sound.hist.acked_lead hpos).2

variable {peerId : Text} (hs : n.Settled g q)
include hs

theorem Settled.recordReplicationProgress {index : ℕ}
    (hi : index ≤ g.world.hist.acked peerId (g.world.replica q).term) :
    (n.recordReplicationProgress peerId index).Settled g q := by
  have hn := hs.holds
  refine ⟨{ hn with leader := fun hl => ?_ }, hs.settled⟩
  obtain ⟨hself, hmat, hnext, hsh⟩ := hn.leader hl
  refine ⟨hself, fun p hc hp => ?_, fun p hc hp => ?_, hsh⟩
  · simp only [RaftNode.recordReplicationProgress, Std.ExtTreeMap.getElem?_insert,
      Std.compare_eq_iff_eq]
    split
    · rename_i heq
      subst heq
      exact max_le (hmat _ hc hp) hi
    · exact hmat p hc hp
  · simp only [RaftNode.recordReplicationProgress, Std.ExtTreeMap.getElem?_insert,
      Std.compare_eq_iff_eq]
    split
    · rename_i heq
      subst heq
      have hle := max_le (hmat _ hc hp) hi
      have hacked := hn.acked_le hl peerId
      refine ⟨lt_max_of_lt_left (hnext _ hc hp).1, max_le (hnext _ hc hp).2 ?_⟩
      exact (saturatingAdd_one_le _).trans (Nat.succ_le_succ (hle.trans hacked))
    · exact hnext p hc hp

/-- The follower's refusal moves its next index back, not below what it has
confirmed. -/
theorem Settled.setNext {next : ℕ}
    (hpos : 0 < next) (hle : next ≤ (g.world.replica q).log.length + 1) :
    { n with nextIndex := n.nextIndex.insert peerId next }.Settled g q := by
  have hn := hs.holds
  refine ⟨{ hn with leader := fun hl => ?_ }, hs.settled⟩
  obtain ⟨hself, hmat, hnext, hsh⟩ := hn.leader hl
  refine ⟨hself, hmat, fun p hc hp => ?_, hsh⟩
  simp only [Std.ExtTreeMap.getElem?_insert, Std.compare_eq_iff_eq]
  split
  · exact ⟨hpos, hle⟩
  · exact hnext p hc hp

theorem Settled.setOffsets (offsets contacts : TextMap ℕ) : ({ n with
      snapshotOffsets := offsets
      lastFollowerContactMillis := contacts } : RaftNode σ).Settled g q :=
  ⟨{ hs.holds with leader := fun hl => { hs.holds.leader hl with } }, hs.settled⟩

omit hs in
theorem Settled.handleAppendEntriesResponse (hS : S.Fixed C) (hs : n.Settled g q)
    {response : AppendEntriesResponse}
    (hm : (Message.appendEntriesResponse q peerId response).Justified g) (currentMillis : ℕ) :
    Refined q g n (handleAppendEntriesResponse S.machine peerId response currentMillis n) := by
  have hs₀ := hs.at currentMillis
  rw [RaftNode.handleAppendEntriesResponse]
  apply Refined.of_at currentMillis
  generalize { n with currentMillis } = n at hs₀ ⊢
  have hn := hs₀.holds
  have hsame : Refined q g n (.ok n) := ⟨g, n, rfl, .refl g n, hs₀⟩
  simp only [hn.acceptsReplicationResponse, require_some, ok_bind, pure_eq]
  split
  · exact hsame
  rename_i hl
  rw [not_not] at hl
  split
  · exact hsame
  rename_i hacc
  split
  · rename_i hT
    obtain ⟨g', hp, hs'⟩ := hs₀.stepDown hT currentMillis
    exact ⟨g', _, rfl, hp, hs'⟩
  split
  · exact hsame
  rename_i hT
  rw [not_not] at hT
  split
  · rename_i hsucc
    split
    · exact hsame
    have hi := hm hsucc
    rw [hT, hn.term] at hi
    have hs₁ := (hs₀.recordReplicationProgress hi).setOffsets n.snapshotOffsets
      (n.lastFollowerContactMillis.insert peerId currentMillis)
    obtain ⟨g₂, n₂, hok, hp₂, hs₂⟩ := hs₁.advanceCommitIndex hS hl
    have hfin := hs₂.maybeAutoFinalizeJointConfiguration hS
    refine ⟨g₂, n₂, ?_, Progress.trans ?_ hp₂, hs₂⟩
    · rw [← hfin]
      exact (congrArg (· >>= _) hok).trans (ok_bind n₂ _)
    · exact .idle rfl rfl rfl
  · cases hnext : n.nextIndex[peerId]? with
    | none => exact hsame
    | some =>
      simp only [Bool.not_eq_true', Bool.not_eq_false, Bool.and_eq_true, decide_eq_true_eq] at hacc
      obtain ⟨-, hmat, hle, -⟩ := hn.leader hl
      have hconf := (hmat _ hacc.2 hacc.1.2).trans (hn.acked_le hl peerId)
      have hle := (hle _ hacc.2 hacc.1.2).2
      rw [hnext, getD_some] at hle
      refine ⟨g, _, rfl, .idle rfl rfl rfl, hs₀.setNext ?_ (max_le ?_ ?_)⟩
      · exact lt_max_of_lt_right (saturatingAdd_one_pos _)
      · omega
      · exact (saturatingAdd_one_le _).trans (Nat.succ_le_succ hconf)

omit hs in
theorem Settled.handleInstallSnapshotResponse (hS : S.Fixed C) (hs : n.Settled g q)
    {response : InstallSnapshotResponse} {sentNextOffset : ℕ} {sentDone : Bool}
    (hm : (Message.installSnapshotResponse q peerId response sentNextOffset
      sentDone).Justified g) (currentMillis : ℕ) :
    Refined q g n (handleInstallSnapshotResponse S.machine peerId response
      sentNextOffset sentDone currentMillis n) := by
  have hs₀ := hs.at currentMillis
  rw [RaftNode.handleInstallSnapshotResponse]
  apply Refined.of_at currentMillis
  generalize { n with currentMillis } = n at hs₀ ⊢
  have hn := hs₀.holds
  have hsame : Refined q g n (.ok n) := ⟨g, n, rfl, .refl g n, hs₀⟩
  have hoffs : ∀ offsets, Refined q g n (.ok { n with snapshotOffsets := offsets }) :=
    fun offsets => ⟨g, _, rfl, .idle rfl rfl rfl, hs₀.setOffsets offsets n.lastFollowerContactMillis⟩
  simp only [hn.acceptsReplicationResponse, require_some, ok_bind, pure_eq]
  split
  · exact hsame
  split
  · rename_i hT
    obtain ⟨g', hp, hs'⟩ := hs₀.stepDown hT currentMillis
    exact ⟨g', _, rfl, hp, hs'⟩
  split
  · exact hsame
  rename_i hlead
  rw [not_or, not_not, not_not] at hlead
  split
  · rename_i hsucc
    split
    · exact hsame
    split
    · rename_i hdone
      rw [Bool.and_eq_true] at hdone
      have hi := hm hsucc hdone.2
      rw [hlead.2, hn.term] at hi
      have hs₁ := hs₀.setOffsets (n.snapshotOffsets.insert peerId sentNextOffset)
        n.lastFollowerContactMillis
      have hs₁ := (hs₁.recordReplicationProgress hi).setOffsets
        ((n.snapshotOffsets.insert peerId sentNextOffset).insert peerId 0)
        n.lastFollowerContactMillis
      obtain ⟨g₂, n₂, hok, hp₂, hs₂⟩ := hs₁.advanceCommitIndex hS hlead.1
      refine ⟨g₂, n₂, hok, Progress.trans ?_ hp₂, hs₂⟩
      exact .idle rfl rfl rfl
    · exact hoffs _
  · exact hoffs _

/-! ## Heartbeat -/

/-- Before it streams its snapshot, a leader puts it on the network. -/
theorem Settled.publish (hl : n.state = .leader)
    (hpos : 0 < n.logStore.snapshotIndex) : ∃ g', Progress q g n g' n ∧ n.Settled g' q ∧
      g'.shots n.currentTerm n.logStore.snapshotIndex = some n.logStore.snapshotData := by
  have hn := hs.holds
  obtain ⟨hself, hmat, hnext, hsh⟩ := hn.leader hl
  cases hb : g.shots n.currentTerm n.logStore.snapshotIndex with
  | some =>
    rw [hn.term] at hb
    rw [(hsh hb).2 rfl] at hb
    exact ⟨g, .refl g n, hs, hn.term ▸ hb⟩
  | none =>
    rw [hn.term] at hb
    have hlen := hn.durable.snapshot_le.trans (g.sound.replica q).commit_le
    have hlead := hn.lead hl
    have hd : Decided C.quorums g.world.hist (g.world.replica q).term
        ((g.world.hist.lead (g.world.replica q).term).take n.logStore.snapshotIndex) := by
      rw [hlead]
      exact (g.sound.replica q).commit_decided.of_prefix
        (take_prefix_take_left hn.durable.snapshot_le)
    let g' := g.shoot (g.world.replica q).term n.logStore.snapshotIndex n.logStore.snapshotData
      (isSome_of_eq_some (hn.winner hl)) hpos (hlead ▸ hlen) hd
      (hlead ▸ hn.durable.image hpos)
    have hnew : g'.shots (g.world.replica q).term n.logStore.snapshotIndex =
        some n.logStore.snapshotData := by
      simp only [g', Shadow.shoot, update_self]
    have hold : ∀ {T i}, T ≠ (g.world.replica q).term ∨ i ≠ n.logStore.snapshotIndex →
        g'.shots T i = g.shots T i := by
      intro T i hne
      by_cases hT : T = (g.world.replica q).term
      · subst hT
        simp only [g', Shadow.shoot, update_self]
        exact update_of_ne (hne.resolve_left (by simp)) _ _
      · simp only [g', Shadow.shoot, update_of_ne hT]
    have hrch : g.Reach q g' := by
      refine ⟨.refl, prefix_refl _, fun {T i b} hb' => ?_, fun {T} hw => ?_⟩
      · rw [hold, hb']
        by_contra hsame
        rw [not_or, not_not, not_not] at hsame
        rw [hsame.1, hsame.2, hb] at hb'
        cases hb'
      · funext i
        refine hold (.inl ?_)
        rintro rfl
        exact hw (hn.winner hl)
    refine ⟨g', .moves hrch hn.durable, ⟨{ hn with
      leader := fun _ => ⟨hself, hmat, hnext, fun {i b} hb' => ?_⟩
      pending := fun snap h => hrch.pending (hn.pending snap h) }, hs.settled⟩,
      hn.term ▸ hnew⟩
    by_cases hi : i = n.logStore.snapshotIndex
    · subst hi
      exact ⟨le_rfl, fun _ => some.inj (hb'.symm.trans hnew)⟩
    · rw [hold (.inr hi)] at hb'
      exact hsh hb'

/-- What a heartbeat sends is a piece of the leader's log or of its snapshot. -/
theorem Settled.heartbeatFor (hl : n.state = .leader) (hpub : 0 < n.logStore.snapshotIndex →
      g.shots n.currentTerm n.logStore.snapshotIndex = some n.logStore.snapshotData)
    {peer : Peer} (hc : C.contains peer.id = true) (hne : peer.id ≠ q) {m : Message}
    (hm : n.heartbeatFor peer = some m) : m.Justified g := by
  have hn := hs.holds
  have hw : g.world.hist.winner n.currentTerm = some n.me.id := by
    rw [hn.term, hn.me]
    exact hn.winner hl
  have hlead : g.world.hist.lead n.currentTerm = (g.world.replica q).log := by
    rw [hn.term]
    exact hn.lead hl
  obtain ⟨_, _⟩ := (hn.leader hl).next _ hc hne
  rw [RaftNode.heartbeatFor] at hm
  simp only at hm
  split at hm
  · rename_i hsnap
    split at hm
    · rename_i hoff
      cases hm
      refine ⟨hw, ?_, _, _, hpub hsnap.1, hoff, rfl, ?_⟩
      · rw [hlead]
        exact hn.log.term
      · exact fun h => by simpa using h
    · cases hm
  · cases hm
    have hcm := hn.commit_le.trans (g.sound.replica q).commit_le
    refine ⟨hw, ?_, ?_, ?_, ?_, ?_⟩
    · rw [hlead]
      simp only
      omega
    · simp only [hlead]
      split
      · exact hn.log.termAt (by omega)
      · rename_i h0
        rw [Nat.eq_zero_of_not_pos h0]
        rfl
    · simp only [hlead]
      split
      · rw [hn.log.entriesFrom (by omega)]
      · exact nil_prefix
    · rw [hlead]
      exact hcm
    · simp only [hn.term, hn.lead hl]
      exact (g.sound.replica q).commit_decided.of_prefix (take_prefix_take_left hn.commit_le)

theorem Settled.sendHeartbeats (hl : n.state = .leader)
    (hpub : 0 < n.logStore.snapshotIndex →
      g.shots n.currentTerm n.logStore.snapshotIndex = some n.logStore.snapshotData) :
    ∃ es, n.sendHeartbeats C.allMembers = { n with effects := es } ∧
      Progress q g n g { n with effects := es } := by
  apply Progress.foldl_send
  intro peer hpeer es
  split
  · exact .inl rfl
  rename_i hne
  -- the messages already sent do not change what comes next
  rw [show ({ n with effects := es } : RaftNode σ).heartbeatFor peer = n.heartbeatFor peer from rfl]
  cases hm : n.heartbeatFor peer with
  | none => exact .inl rfl
  | some m =>
    exact .inr ⟨m, hs.heartbeatFor hl hpub
      (ClusterConfiguration.contains_of_mem_allMembers hpeer) (hs.holds.me ▸ hne) hm, rfl⟩

omit hs in
theorem Matches.replicationPeers (hn : n.Matches g q) : n.replicationPeers = some C.allMembers := by
  rw [RaftNode.replicationPeers, hn.effectiveConfiguration, hn.joiners]
  rfl

theorem Settled.broadcastHeartbeat (currentMillis : ℕ) :
    Refined q g n (broadcastHeartbeat S.machine currentMillis n) := by
  have hs₀ := hs.at currentMillis
  rw [RaftNode.broadcastHeartbeat]
  apply Refined.of_at currentMillis
  generalize { n with currentMillis } = n at hs₀ ⊢
  have hn := hs₀.holds
  simp only [hn.replicationPeers, require_some, ok_bind, pure_eq]
  split
  · exact ⟨g, n, rfl, .refl g n, hs₀⟩
  rename_i hl
  rw [not_not] at hl
  obtain ⟨g₁, hp₁, hs₁, hpub⟩ : ∃ g', Progress q g n g' n ∧ n.Settled g' q ∧
      (0 < n.logStore.snapshotIndex →
        g'.shots n.currentTerm n.logStore.snapshotIndex = some n.logStore.snapshotData) := by
    rcases Nat.eq_zero_or_pos n.logStore.snapshotIndex with h0 | hpos
    · exact ⟨g, .refl g n, hs₀, fun h => absurd h0 h.ne'⟩
    · obtain ⟨g', hp, hs', hb⟩ := hs₀.publish hl hpos
      exact ⟨g', hp, hs', fun _ => hb⟩
  obtain ⟨es, hes, hp₂⟩ := hs₁.sendHeartbeats hl hpub
  have hs₂ := hs₁.effects es
  refine ⟨g₁, _, ?_, hp₁.trans hp₂, hs₂⟩
  rw [hes, maybePromotePendingJoiners, if_pos]
  · rfl
  · refine .inr (.inl ?_)
    simp only [hn.joiners]
    rfl

omit hs

/-! ## Reads -/

/-- A read keeps the node's domain or gives it the one that is offered. -/
theorem Settled.beginRead (hS : S.Fixed C) (hs : n.Settled g q) (query : Bytes)
    (currentMillis : ℕ) (domain : Option ℕ) :
    ∃ d, (∀ x, d = some x → n.readDomain = some x ∨ domain = some x) ∧
      Refined q g { n with readDomain := d }
        ((beginRead S.machine query currentMillis domain n).map Prod.fst) := by
  have hset : ∀ d, { n with readDomain := d }.Settled g q :=
    fun d => ⟨{ hs.holds with leader := fun hl => { hs.holds.leader hl with } }, hs.settled⟩
  have hsame : Refined q g { n with readDomain := n.readDomain } (.ok n) :=
    ⟨g, n, rfl, .refl g n, hs⟩
  rw [RaftNode.beginRead]
  split
  · exact ⟨_, fun _ => .inl, hsame⟩
  rename_i hl
  split
  · exact ⟨_, fun _ => .inl, hsame⟩
  split
  · exact ⟨_, fun _ => .inl, hsame⟩
  rename_i identity hor
  rw [not_or, not_not] at hl
  refine ⟨some identity, fun x hx => ?_, ?_⟩
  · rw [← hx]
    rcases or_eq_some_iff.mp hor with h | h
    · exact .inl h
    · exact .inr h.2
  apply Refined.of_at currentMillis
  have hs₀ := (hset (some identity)).at currentMillis
  obtain ⟨_, hp₁, hs₁⟩ := hs₀.appendEntry hl.1 Configuration.decode_nil
  obtain ⟨g₂, n₂, hok, hp₂, hs₂⟩ := hs₁.advanceCommitIndex hS hl.1
  refine ⟨g₂, n₂, ?_, hp₁.trans hp₂, hs₂⟩
  simp only [hok, ok_bind]
  rfl

end RaftNode

end Charlotte.Graft
