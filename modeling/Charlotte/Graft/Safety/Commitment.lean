import Charlotte.Graft.Safety.Election

/-!
# Durability of commitment

Once a node has committed an index, the entry there stays on that node, every
leader of the same or a later term has it, and no node applies another entry at
that index. A log that has been compacted has the entry in its snapshot.
-/

namespace Charlotte.Graft

open Lib Lib.ReplicatedLog List Option

variable {σ : Type} {S : Setting σ} {C : ClusterConfiguration}

/-- The store has the entry: among those it retains, or in a log that its
snapshot is an image of. -/
def LogStore.Covers (S : Setting σ) (C : ClusterConfiguration) (store : LogStore) (index : ℕ)
    (entry : LogEntry) : Prop :=
  store.entryAt index = some entry ∨
    ∃ log, log.length = store.snapshotIndex ∧ log[index - 1]? = some entry ∧
      S.Image C log store.snapshotData

/-- A node has committed an index if its commit index says so, or if it has
applied the entry there. -/
def Cluster.HasCommitted (c : Cluster σ) (q : Text) (index : ℕ) : Prop :=
  0 < index ∧ ((∃ n, c.nodes q = some n ∧ index ≤ n.commitIndex) ∨
    ∃ entry, (q, .applied index entry) ∈ c.history)

/-- The disk of a replica has every entry of its log. -/
theorem Durable.Holds.covers {r : Replica Text LogEntry} {d : Durable} (hd : d.Holds S C r)
    {i : ℕ} {e : LogEntry} (hi : 0 < i) (he : r.log[i - 1]? = some e) : d.logStore.Covers S C i e := by
  rcases Nat.lt_or_ge d.logStore.snapshotIndex i with hlt | _
  · left
    rw [hd.log.entryAt hlt]
    exact he
  · right
    refine ⟨_, length_take_of_le hd.log.index_le, ?_, hd.image (by omega)⟩
    rw [getElem?_take_of_lt (by omega)]
    exact he

namespace Shadow

variable {g g' : Shadow S C} {q : Text} {i : ℕ} {e : LogEntry}

/-- What a replica knows to be decided is in its log as it is in the committed list. -/
theorem log_getElem? (hi : 0 < i) (hc : i ≤ (g.world.replica q).commit) :
    (g.world.replica q).log[i - 1]? = g.committed[i - 1]? := by
  have hlen := (g.sound.replica q).commit_le
  have hlog : (g.world.replica q).log[i - 1]? = some ((g.world.replica q).log[i - 1]) :=
    getElem?_eq_getElem (by omega)
  rw [hlog]
  symm
  refine prefix_getElem? (g.covers q) ?_
  rw [getElem?_take_of_lt (by omega)]
  exact hlog

theorem exists_committed (hi : 0 < i) (hc : i ≤ (g.world.replica q).commit) :
    ∃ e, g.committed[i - 1]? = some e := by
  have hlen := (g.sound.replica q).commit_le
  rw [← log_getElem? hi hc, getElem?_eq_getElem (by omega)]
  exact ⟨_, rfl⟩

/-- A later leader has what was committed before. -/
theorem Later.lead_getElem? (h : g.Later g') (hi : 0 < i) (hc : i ≤ (g.world.replica q).commit)
    (he : g.committed[i - 1]? = some e) {T : ℕ} (hT : (g.world.replica q).term ≤ T)
    (hw : (g'.world.hist.winner T).isSome) : (g'.world.hist.lead T)[i - 1]? = some e := by
  have hd := h.world.grows.decided le_rfl (g.sound.replica q).commit_decided
  refine prefix_getElem? (g'.sound.hist.decided_prefix_lead hd hT hw) ?_
  rw [getElem?_take_of_lt (by omega), log_getElem? hi hc]
  exact he

end Shadow

namespace Cluster

variable {g g' : Shadow S C} {c c' : Cluster σ} {q : Text} {i : ℕ} {e : LogEntry}

theorem Refines.committed (hc : c.Refines g) (h : c.HasCommitted q i) :
    0 < i ∧ i ≤ (g.world.replica q).commit := by
  obtain ⟨hpos, ⟨n, hn, hle⟩ | ⟨e, he⟩⟩ := h
  · exact ⟨hpos, hle.trans (hc.node hn).1.holds.commit_le⟩
  · exact ⟨hpos, (hc.history he).2.1⟩

/-- What a node has committed is on its disk ever after. -/
theorem Refines.disk_covers (hc' : c'.Refines g') (hl : g.Later g') (hi : 0 < i)
    (hle : i ≤ (g.world.replica q).commit) (he : g.committed[i - 1]? = some e) :
    (c'.disks q).logStore.Covers S C i e := by
  refine (hc'.disk q).covers hi ?_
  rw [Shadow.log_getElem? hi (hle.trans (hl.world.commit_le q))]
  exact prefix_getElem? hl.committed he

/-- What a node has committed is in the log of every leader from its term on. -/
theorem Refines.leader_covers (hc' : c'.Refines g') (hl : g.Later g') (hi : 0 < i)
    (hle : i ≤ (g.world.replica q).commit) (he : g.committed[i - 1]? = some e) {p : Text}
    {m : RaftNode σ} (hm : c'.nodes p = some m) (hs : m.state = .leader)
    (hT : (g.world.replica q).term ≤ m.currentTerm) : m.logStore.Covers S C i e := by
  have hn := (hc'.node hm).1.holds
  refine hn.durable.covers hi ?_
  have hw := isSome_of_eq_some (hc'.winner hm hs)
  rw [← hn.lead hs, ← hn.term]
  exact hl.lead_getElem? hi hle he hT hw

/-- A committed entry stays, later leaders have it, and it alone is applied at
its index. -/
theorem commitment_durable (hS : S.Fixed C) (hR : C.Readable) {steps : List Step}
    (hk : ∀ s ∈ steps, s.action.KeepsMembership) : (∀ j q i, (run S (steps.take j)).HasCommitted q i →
      ∃ e, ∀ k, j ≤ k → ((run S (steps.take k)).disks q).logStore.Covers S C i e ∧
        (∀ p m, (run S (steps.take k)).nodes p = some m → m.state = .leader →
          ((run S (steps.take j)).disks q).persistentState.currentTerm ≤ m.currentTerm →
          m.logStore.Covers S C i e) ∧
        ∀ p e', (p, .applied i e') ∈ (run S (steps.take k)).history → e' = e) ∧
    ∀ p p' i e e', (p, .applied i e) ∈ (run S steps).history →
      (p', .applied i e') ∈ (run S steps).history → e = e' := by
  obtain ⟨_, href, hlat⟩ := exists_shadows hS hR hk
  constructor
  · intro j q i h
    obtain ⟨hi, hle⟩ := (href j).committed h
    obtain ⟨e, he⟩ := Shadow.exists_committed hi hle
    refine ⟨e, fun k hjk => ⟨?_, ?_, ?_⟩⟩
    · exact (href k).disk_covers (hlat j k hjk) hi hle he
    · intro p m hm hs hT
      rw [((href j).disk q).term] at hT
      exact (href k).leader_covers (hlat j k hjk) hi hle he hm hs hT
    · intro p e' he'
      have hk' := ((href k).history he').2.2
      rw [prefix_getElem? (hlat j k hjk).committed he] at hk'
      exact (some.inj hk').symm
  · intro p p' i e e' he he'
    have hend := href steps.length
    rw [take_length] at hend
    have h := (hend.history he).2.2
    rw [(hend.history he').2.2] at h
    exact (some.inj h).symm

end Cluster

open Cluster

/-- The first voter is elected and commits its first entry on both. -/
def twoVotersCommit : List Step :=
  twoVotersElection ++ [(Action.broadcastHeartbeat (ascii "a") 0).whole, deliverAt 11,
    deliverAt 13, (Action.broadcastHeartbeat (ascii "a") 0).whole, deliverAt 15]

theorem commitment_durable_twoVoters :
    (Cluster.run (recorderSetting twoVoters) twoVotersCommit).HasCommitted (ascii "b") 1 ∧
      ∃ e, ((Cluster.run (recorderSetting twoVoters) twoVotersCommit).disks
        (ascii "b")).logStore.Covers (recorderSetting twoVoters) twoVoters 1 e := by
  have hc : (run (recorderSetting twoVoters)
      (twoVotersCommit.take 10)).HasCommitted (ascii "b") 1 :=
    ⟨by decide, .inr ⟨⟨1, ascii "a", []⟩, by decide⟩⟩
  have hk : ∀ s ∈ twoVotersCommit, s.action.KeepsMembership := by decide
  obtain ⟨e, he⟩ := (commitment_durable (recorderSetting_fixed (C := twoVoters) rfl)
    (by decide) hk).1 10 (ascii "b") 1 hc
  exact ⟨hc, e, (he 10 le_rfl).1⟩

/-- The new leader commits the entry that opens its term with the vote of a learner. -/
def learnersCommit : List Step :=
  learnersElection ++ [(Action.broadcastHeartbeat (ascii "b\x7d") 0).whole, deliverAt 34,
    deliverAt 36]

/-- The old leader commits a command in the same place. -/
def rivalCommits : List Step :=
  learnersCommit ++ [(Action.submitCommand (ascii "a") [8] 0).whole]

/-- Two nodes apply different entries at one index. -/
theorem two_entries_of_bracedLearners : (recorderSetting bracedLearners).Fixed bracedLearners ∧
      (∀ s ∈ rivalCommits, s.action.KeepsMembership) ∧ ¬∀ p p' i e e', (p, .applied i e) ∈
          (Cluster.run (recorderSetting bracedLearners) rivalCommits).history → (p', .applied i e') ∈
          (Cluster.run (recorderSetting bracedLearners) rivalCommits).history → e = e' := by
  refine ⟨recorderSetting_fixed rfl, by decide, fun h => ?_⟩
  have hmem : ∀ e ∈ [(⟨1, ascii "a", [8]⟩ : LogEntry), ⟨2, ascii "b\x7d", []⟩],
      (e.peerId, .applied 3 e) ∈
        (run (recorderSetting bracedLearners) rivalCommits).history := by
    decide +kernel
  rw [forall_mem_cons, forall_mem_singleton] at hmem
  exact absurd (h _ _ 3 _ _ hmem.1 hmem.2) (by decide)

/-! ## Replication -/

/-- A run in which the membership stays as it is. -/
structure FixedRun (S : Setting σ) (C : ClusterConfiguration) where
  steps : List Step
  fixed : S.Fixed C
  readable : C.Readable
  keeps : ∀ s ∈ steps, s.action.KeepsMembership

namespace FixedRun

variable (r : FixedRun S C)

/-- The cluster after the first `k` steps. -/
def state (k : ℕ) : Cluster σ := Cluster.run S (r.steps.take k)

/-- One log accounts for every application at every moment: it has every entry that was applied, and
a node's application is what replaying as many of its entries as the node has applied gives. -/
theorem applications_replay_one_log : ∃ log : List LogEntry,
    (∀ k p i e, (p, .applied i e) ∈ (r.state k).history → log[i - 1]? = some e) ∧
    ∀ k p n s, (r.state k).nodes p = some n → n.stateMachine = some s →
      n.lastApplied ≤ log.length ∧ S.Replays (log.take n.lastApplied) s := by
  obtain ⟨shadows, href, hlat⟩ := Cluster.exists_shadows r.fixed r.readable r.keeps
  have hmin : ∀ k, r.state k = r.state (min k r.steps.length) := fun k => by
    rw [state, take_eq_take_min, state]
  have hpast : ∀ k, (shadows (min k r.steps.length)).committed <+: (shadows r.steps.length).committed :=
    fun k => (hlat _ _ (Nat.min_le_right k _)).committed
  refine ⟨(shadows r.steps.length).committed, fun k p i e he => ?_, fun k p n s hn hs => ?_⟩
  · rw [hmin] at he
    exact prefix_getElem? (hpast k) ((href _).history he).2.2
  · rw [hmin] at hn
    have hholds := ((href _).node hn).1.holds
    have happlied := hholds.applied_le.trans hholds.commit_le
    have hpre := (Shadow.covers _ p).trans (hpast k)
    have hlen := happlied.trans_eq (length_take_of_le ((Shadow.sound _).replica p).commit_le).symm
    refine ⟨hlen.trans hpre.length_le, ?_⟩
    rw [prefix_take hpre hlen, take_take, min_eq_left happlied]
    exact hholds.machine s hs

/-- A majority of the voters has on disk what any node had committed up to step `k`. -/
def OnMajority (k : ℕ) : Prop :=
  ∀ j ≤ k, ∀ q i, (r.state j).HasCommitted q i → ∃ e, ∃ stored ⊆ C.voters,
    C.voters.card / 2 < stored.card ∧ ∀ p ∈ stored, ((r.state k).disks p).logStore.Covers S C i e

theorem committed_on_majority (k : ℕ) : r.OnMajority k := by
  obtain ⟨shadows, href, hlat⟩ := Cluster.exists_shadows r.fixed r.readable r.keeps
  intro j hjk q i h
  obtain ⟨hi, hle⟩ := (href j).committed h
  have hle := hle.trans ((hlat j k hjk).world.commit_le q)
  have hlt : i - 1 < ((shadows k).world.replica q).commit := by omega
  obtain ⟨e, he⟩ := Shadow.exists_committed hi hle
  rw [← Shadow.log_getElem? hi hle, ← getElem?_take_of_lt hlt] at he
  have hsound := (shadows k).sound
  rcases (hsound.replica q).commit_decided with hnil | ⟨T, m, -, hc, hp⟩
  · rw [hnil] at he
    cases he
  · obtain ⟨stored, hsub, hcard, hall⟩ := hc.2.2.2
    refine ⟨e, stored, hsub, hcard, fun p hmem => ((href k).disk p).covers hi ?_⟩
    have hkept : ((shadows k).world.replica p).log.take m = ((shadows k).world.hist.lead T).take m := by
      rcases (hsound.replica p).acked_kept T m hc.2.1 (hall p hmem) with heq | ⟨T', hT, -, hw, hne⟩
      · exact heq
      -- a later leader has what was chosen
      · exact absurd (hsound.hist.leader_complete hc hT hw) hne
    exact prefix_getElem? (hkept ▸ List.take_prefix _ _) (prefix_getElem? hp he)

/-- The term on a disk never goes back, and the leader of a term keeps what was in its log. -/
theorem leaders_only_append : (∀ q j k, j ≤ k → ((r.state j).disks q).persistentState.currentTerm ≤
      ((r.state k).disks q).persistentState.currentTerm) ∧
    ∀ p p' n n' i e j k, j ≤ k → (r.state j).nodes p = some n → (r.state k).nodes p' = some n' →
      n.state = .leader → n'.state = .leader → n.currentTerm = n'.currentTerm →
      n.logStore.entryAt i = some e → n'.logStore.Covers S C i e := by
  obtain ⟨_, href, hlat⟩ := Cluster.exists_shadows r.fixed r.readable r.keeps
  refine ⟨fun q j k hjk => ?_, fun p p' n n' i e j k hjk hn hn' hl hl' hT he => ?_⟩
  · rw [state, state, ((href j).disk q).term, ((href k).disk q).term]
    exact (hlat j k hjk).world.term_le q
  · have hold := ((href j).node hn).1.holds
    have hnew := ((href k).node hn').1.holds
    have hlt := LogStore.lt_of_entryAt he
    have he := (hold.durable.log.entryAt hlt).symm.trans he
    rw [← hold.lead hl, ← hold.term, hT, hnew.term] at he
    refine hnew.durable.covers (by omega) ?_
    rw [← hnew.lead hl']
    have hw := (href j).winner hn hl
    rw [hT, hnew.term] at hw
    exact prefix_getElem? ((hlat j k hjk).world.grows.lead hw) he

/-- Between two calls a node has in memory what is on its disk, and its indices are in order. -/
def NodesOrdered (k : ℕ) : Prop :=
  ∀ p n, (r.state k).nodes p = some n → n.durable = (r.state k).disks p ∧
    n.currentTerm = n.persistentState.currentTerm ∧ n.votedFor = n.persistentState.votedFor ∧
    n.logStore.snapshotIndex ≤ n.lastApplied ∧ n.lastApplied ≤ n.commitIndex ∧
    n.commitIndex ≤ n.logStore.lastIndex

theorem nodes_are_ordered (k : ℕ) : r.NodesOrdered k := by
  obtain ⟨shadows, href, -⟩ := Cluster.exists_shadows r.fixed r.readable r.keeps
  intro p n hn
  obtain ⟨hset, hdisk, -⟩ := (href k).node hn
  have h := hset.holds
  refine ⟨hdisk, h.term.trans h.durable.term.symm, h.vote.trans h.durable.vote.symm,
    h.snapshot_le, h.applied_le, ?_⟩
  have hcommit := h.commit_le.trans ((shadows k).sound.replica p).commit_le
  exact hcommit.trans_eq h.durable.log.lastIndex.symm

/-- A leader overrates no member of its term: what it takes the member to have is on its disk. -/
def ProgressTrue (k : ℕ) : Prop :=
  ∀ p n q i e, (r.state k).nodes p = some n → n.state = .leader → C.contains q = true → q ≠ p →
    ((r.state k).disks q).persistentState.currentTerm = n.currentTerm →
    i ≤ (n.matchIndex[q]?).getD 0 → n.logStore.entryAt i = some e →
    ((r.state k).disks q).logStore.Covers S C i e

theorem progress_is_true (k : ℕ) : r.ProgressTrue k := by
  obtain ⟨shadows, href, -⟩ := Cluster.exists_shadows r.fixed r.readable r.keeps
  intro p n q i e hn hl hmem hne hT hi he
  have h := ((href k).node hn).1.holds
  have hdisk := (href k).disk q
  have hterm := hdisk.term.symm.trans (hT.trans h.term)
  have hlog := ((shadows k).sound.replica q).acked_log
  rw [hterm, h.lead hl] at hlog
  have hacked := hi.trans ((h.leader hl).matched q hmem hne)
  have hlt := LogStore.lt_of_entryAt he
  have he := (h.durable.log.entryAt hlt).symm.trans he
  refine hdisk.covers (by omega) ?_
  have hlt := (by omega : i - 1 < i).trans_le hacked
  rwa [← getElem?_take_of_lt hlt, hlog, getElem?_take_of_lt hlt]

end FixedRun

/-- Two voters that elect a leader and commit an entry. -/
def twoVotersRun : FixedRun (recorderSetting twoVoters) twoVoters :=
  ⟨twoVotersCommit, recorderSetting_fixed rfl, by decide, by decide⟩

end Charlotte.Graft
