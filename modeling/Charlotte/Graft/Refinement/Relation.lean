import Charlotte.Graft.Refinement.Shadow

/-!
# Nodes, messages and their shadow

The relation between a cluster and its shadow, part by part: what is on a disk,
what a running node knows, and what a message or another effect testifies to.

A call on a node is accounted for effect by effect, because a crash may keep any
beginning of its effects: `Accounts` moves the shadow along with them so that the
disk always matches it. Where two durable writes belong together, the first alone
matches a shadow on a side path.
-/

namespace Charlotte.Graft

open Lib Lib.ReplicatedLog List Option

variable {σ : Type} {S : Setting σ} {C : ClusterConfiguration}

/-- The protocol's name for a node's state. -/
def NodeState.phase : NodeState → Phase
  | .follower => .follower
  | .candidate => .candidate
  | .leader => .leader

/-- The disk holds the term, the vote and the log of a replica. -/
structure Durable.Holds (S : Setting σ) (C : ClusterConfiguration)
    (r : Replica Text LogEntry) (d : Durable) : Prop where
  term : d.persistentState.currentTerm = r.term
  vote : d.persistentState.votedFor = r.vote
  admission : d.persistentState.joinAdmission = none
  log : d.logStore.Represents r.log
  snapshot_le : d.logStore.snapshotIndex ≤ r.commit
  image : 0 < d.logStore.snapshotIndex →
    S.Image C (r.log.take d.logStore.snapshotIndex) d.logStore.snapshotData

variable (g : Shadow S C)

abbrev Durable.Matches (q : Text) (d : Durable) : Prop :=
  d.Holds S C (g.world.replica q)

/-- A stream in progress holds the beginning of a snapshot on the network. -/
def PendingSnapshot.Matches (snap : PendingSnapshot) : Prop :=
  snap.offset = snap.data.length ∧
    (snap.data = [] ∨ ∃ b, g.shots snap.leaderTerm snap.lastIncludedIndex = some b ∧ snap.data <+: b)

/-- An append request is a piece of the leader's log with a decided commit index. -/
structure AppendEntriesRequest.Justified (g : Shadow S C) (r : AppendEntriesRequest) : Prop where
  winner : g.world.hist.winner r.term = some r.leaderId
  prev_le : r.prevLogIndex ≤ (g.world.hist.lead r.term).length
  prev_term : r.prevLogTerm = termAtIndex (g.world.hist.lead r.term) r.prevLogIndex
  entries : r.entries <+: (g.world.hist.lead r.term).drop r.prevLogIndex
  commit_le : r.leaderCommit ≤ (g.world.hist.lead r.term).length
  decided : Decided C.quorums g.world.hist r.term ((g.world.hist.lead r.term).take r.leaderCommit)

/-- A snapshot request is a piece of a snapshot on the network. -/
structure InstallSnapshotRequest.Justified (g : Shadow S C) (r : InstallSnapshotRequest) :
    Prop where
  winner : g.world.hist.winner r.term = some r.leaderId
  term : r.lastIncludedTerm = termAtIndex (g.world.hist.lead r.term) r.lastIncludedIndex
  chunk : ∃ b last, g.shots r.term r.lastIncludedIndex = some b ∧ r.offset ≤ last ∧
    r.data = (b.take last).drop r.offset ∧ (r.done = true → last = b.length)

/-- What a message testifies to. -/
def Message.Justified : Message → Prop
  | .voteRequest _ r =>
    ∃ l, g.world.hist.bid r.term r.candidateId = some l ∧ r.lastLogIndex = l.length ∧
      r.lastLogTerm = lastTerm LogEntry.term l
  | .voteResponse dest peerId r =>
    r.voteGranted = true → ∃ l, g.world.hist.ballot peerId r.term = some (dest, l)
  | .appendEntries _ r => r.Justified g
  | .appendEntriesResponse _ peerId r =>
    r.success = true → r.matchIndex ≤ g.world.hist.acked peerId r.term
  | .installSnapshot _ r => r.Justified g
  | .installSnapshotResponse _ peerId r _ _ =>
    r.success = true → r.done = true → r.lastIncludedIndex ≤ g.world.hist.acked peerId r.term

/-- What an effect of a node testifies to, apart from the disk. -/
def Effect.Justified (q : Text) : Effect → Prop
  | .write _ => True
  | .send message => message.Justified g
  | .granted term candidate => ∃ l, g.world.hist.ballot q term = some (candidate, l)
  | .elected term => g.world.hist.winner term = some q
  | .applied index entry => 0 < index ∧ index ≤ (g.world.replica q).commit ∧
      g.committed[index - 1]? = some entry

/-- What a leader knows about its followers and its snapshots. -/
structure RaftNode.Leads (g : Shadow S C) (q : Text) (r : Replica Text LogEntry)
    (n : RaftNode σ) : Prop where
  self : r.log.length ≤ g.world.hist.acked q r.term
  matched : ∀ p, C.contains p = true → p ≠ q →
    (n.matchIndex[p]?).getD 0 ≤ g.world.hist.acked p r.term
  next : ∀ p, C.contains p = true → p ≠ q →
    0 < (n.nextIndex[p]?).getD 1 ∧ (n.nextIndex[p]?).getD 1 ≤ r.log.length + 1
  shots : ∀ {i b}, g.shots r.term i = some b →
    i ≤ n.logStore.snapshotIndex ∧ (i = n.logStore.snapshotIndex → b = n.logStore.snapshotData)

/-- A node as a replica says. -/
structure RaftNode.Holds (g : Shadow S C) (q : Text) (r : Replica Text LogEntry)
    (n : RaftNode σ) : Prop where
  durable : n.durable.Holds S C r
  me : n.me.id = q
  term : n.currentTerm = r.term
  vote : n.votedFor = r.vote
  configuration : n.clusterConfiguration = C
  snapshotConfiguration : n.snapshotConfiguration = C
  joining : n.joining = false
  joiners : n.pendingJoiners = ∅
  snapshot_le : n.logStore.snapshotIndex ≤ n.lastApplied
  applied_le : n.lastApplied ≤ n.commitIndex
  commit_le : n.commitIndex ≤ r.commit
  machine : ∀ s, n.stateMachine = some s → S.Replays (r.log.take n.lastApplied) s
  phase : r.phase = n.state.phase
  candidate : n.state = .candidate → ∀ v, n.grantedVotes.contains v = true →
    ∃ l, g.world.hist.ballot v r.term = some (q, l)
  leader : n.state = .leader → n.Leads g q r
  pending : ∀ snap, n.pendingSnapshot = some snap → snap.Matches g

abbrev RaftNode.Matches (q : Text) (n : RaftNode σ) : Prop :=
  n.Holds g q (g.world.replica q)

variable {g} {q : Text} {r : Replica Text LogEntry}

theorem Durable.Matches.of_eq {d : Durable} (hr : g.world.replica q = r) (h : d.Holds S C r) :
    d.Matches g q := by
  rw [Durable.Matches, hr]
  exact h

variable {n : RaftNode σ}

theorem RaftNode.Matches.of_eq (hr : g.world.replica q = r) (h : n.Holds g q r) : n.Matches g q := by
  rw [RaftNode.Matches, hr]
  exact h

theorem RaftNode.Leads.grow {g' : Shadow S C} (h : n.Leads g q r)
    (hg : g.world.hist.Grows g'.world.hist)
    (hs : g'.shots r.term = g.shots r.term) : n.Leads g' q r where
  self := h.self.trans (hg.acked _ _)
  matched p hc hp := (h.matched p hc hp).trans (hg.acked _ _)
  next := h.next
  shots := by
    rw [hs]
    exact h.shots

/-- Between calls a node has applied all that it has committed. -/
structure RaftNode.Settled (g : Shadow S C) (q : Text) (n : RaftNode σ) : Prop where
  holds : n.Matches g q
  settled : n.lastApplied = n.commitIndex

/-! ## Testimony lasts -/

namespace Shadow.Reach

variable {g g' : Shadow S C} {q p : Text} (h : g.Reach q g')
include h

theorem pending {snap : PendingSnapshot} (hs : snap.Matches g) : snap.Matches g' := by
  refine ⟨hs.1, ?_⟩
  rcases hs.2 with hnil | ⟨b, hb, hp⟩
  · exact .inl hnil
  · exact .inr ⟨b, h.shots hb, hp⟩

theorem appendEntries {r : AppendEntriesRequest} (hr : r.Justified g) : r.Justified g' := by
  have hw := isSome_of_eq_some hr.winner
  have hlead := h.grows.lead hr.winner
  refine ⟨h.grows.winner hr.winner, hr.prev_le.trans hlead.length_le, ?_, ?_,
    hr.commit_le.trans hlead.length_le, ?_⟩
  · rw [hr.prev_term]
    exact termAtIndex_congr (h.grows.lead_take hw hr.prev_le).symm
  · obtain ⟨_, hown⟩ := hlead
    rw [← hown, drop_append_of_le_length hr.prev_le]
    exact hr.entries.trans (prefix_append _ _)
  · rw [h.grows.lead_take hw hr.commit_le]
    exact h.grows.decided le_rfl hr.decided

theorem installSnapshot {r : InstallSnapshotRequest} (hr : r.Justified g) : r.Justified g' := by
  obtain ⟨b, last, hb, hrest⟩ := hr.chunk
  refine ⟨h.grows.winner hr.winner, ?_, b, last, h.shots hb, hrest⟩
  rw [hr.term]
  exact termAtIndex_congr (h.grows.lead_take (isSome_of_eq_some hr.winner) (g.shot hb).2.2.1).symm

theorem message {m : Message} (hm : m.Justified g) : m.Justified g' := by
  cases m with
  | voteRequest =>
    obtain ⟨l, hb, hrest⟩ := hm
    exact ⟨l, h.grows.bid hb, hrest⟩
  | voteResponse =>
    intro hv
    obtain ⟨l, hl⟩ := hm hv
    exact ⟨l, h.grows.ballot hl⟩
  | appendEntries => exact h.appendEntries hm
  | appendEntriesResponse =>
    intro hs
    exact (hm hs).trans (h.grows.acked _ _)
  | installSnapshot => exact h.installSnapshot hm
  | installSnapshotResponse =>
    intro hs hd
    exact (hm hs hd).trans (h.grows.acked _ _)

theorem effect {e : Effect} (he : e.Justified g p) : e.Justified g' p := by
  cases e with
  | write => trivial
  | send => exact h.message he
  | granted =>
    obtain ⟨l, hl⟩ := he
    exact ⟨l, h.grows.ballot hl⟩
  | elected => exact h.grows.winner he
  | applied =>
    obtain ⟨hpos, hle, hc⟩ := he
    exact ⟨hpos, hle.trans (h.later.commit_le p), prefix_getElem? h.committed hc⟩

/-- A move of one replica leaves the disk of another as it should be. -/
theorem disk (hp : p ≠ q) {d : Durable} (hd : d.Matches g p) : d.Matches g' p :=
  .of_eq (h.replica_of_ne hp) hd

/-- A move of one replica leaves what another node knows as it should be. -/
theorem node (hp : p ≠ q) (hn : n.Matches g p) : n.Matches g' p := by
  refine .of_eq (h.replica_of_ne hp)
    { hn with candidate := ?_, leader := ?_, pending := ?_ }
  · intro hs v hv
    obtain ⟨l, hl⟩ := hn.candidate hs v hv
    exact ⟨l, h.grows.ballot hl⟩
  · intro hs
    have hphase : (g.world.replica p).phase = .leader := by
      rw [hn.phase, hs]
      rfl
    have hw := ((g.sound.replica p).leader hphase).1
    have hne : g'.world.hist.winner (g.world.replica p).term ≠ some q := by
      rw [h.grows.winner hw]
      exact fun heq => hp (some.inj heq)
    exact (hn.leader hs).grow h.grows (h.own hne)
  · exact fun snap hs => h.pending (hn.pending snap hs)

omit h

end Shadow.Reach

namespace Shadow.Becomes

variable {g g' : Shadow S C} {q : Text} {r : Replica Text LogEntry}

theorem disk (h : g.Becomes q r g') {d : Durable} (hd : d.Holds S C r) : d.Matches g' q :=
  .of_eq h.replica hd

/-- What a node says of the new replica under the old history, it says under
the new one. -/
theorem node (h : g.Becomes q r g') (hn : n.Holds g q r) : n.Matches g' q := by
  refine .of_eq h.replica { hn with candidate := ?_, leader := ?_, pending := ?_ }
  · rw [h.hist]
    exact hn.candidate
  · intro hl
    obtain ⟨hself, hmat, hnext, hsh⟩ := hn.leader hl
    rw [← h.hist] at hself hmat
    rw [← h.shots] at hsh
    exact ⟨hself, hmat, hnext, hsh⟩
  · exact fun snap hs => h.reach.pending (hn.pending snap hs)

end Shadow.Becomes

/-! ## Accounting for effects -/

/-- The shadow's way along the effects of a call on node `q`, with the disk
before and after. -/
inductive Accounts (q : Text) : Shadow S C → Durable → List Effect → Shadow S C → Durable → Prop
  | done {g d} : Accounts q g d [] g d
  /-- Moves that leave the disk right. -/
  | moves {g g₁ g' d d' es} (h : g.Reach q g₁) (hd : d.Matches g₁ q)
      (rest : Accounts q g₁ d es g' d') : Accounts q g d es g' d'
  | write {g g₁ g' d d₁ d' es} (h : g.Reach q g₁) (hd : d₁.Matches g₁ q)
      (rest : Accounts q g₁ d₁ es g' d') : Accounts q g d (.write d₁ :: es) g' d'
  /-- Two writes that belong together; after a crash between them the shadow is
  on a side path. -/
  | detour {g g₁ g₂ g' d d₁ d₂ d' es} (h : g.Reach q g₁) (hd : d₁.Matches g₁ q)
      (h' : g.Reach q g₂) (hd' : d₂.Matches g₂ q)
      (rest : Accounts q g₂ d₂ es g' d') :
      Accounts q g d (.write d₁ :: .write d₂ :: es) g' d'
  | effect {g g' d d' e es} (he : e.Justified g q) (hd : lastWrite [e] d = d)
      (rest : Accounts q g d es g' d') : Accounts q g d (e :: es) g' d'

theorem lastWrite_cons (e : Effect) (es : List Effect) (d : Durable) :
    lastWrite (e :: es) d = lastWrite es (lastWrite [e] d) := rfl

namespace Accounts

variable {g g' g'' : Shadow S C} {q : Text} {d d' d'' : Durable} {es es' : List Effect}
  (h : Accounts q g d es g' d')
include h

theorem trans (h' : Accounts q g' d' es' g'' d'') : Accounts q g d (es ++ es') g'' d'' := by
  induction h with
  | done => exact h'
  | moves hr hd _ ih => exact .moves hr hd (ih h')
  | write hr hd _ ih => exact .write hr hd (ih h')
  | detour hr hd hr' hd' _ ih => exact .detour hr hd hr' hd' (ih h')
  | effect he hd _ ih => exact .effect he hd (ih h')

theorem reach : g.Reach q g' := by
  induction h with
  | done => exact Shadow.Reach.refl _
  | moves hr _ _ ih | write hr _ _ ih => exact hr.trans ih
  | detour _ _ hr _ _ ih => exact hr.trans ih
  | effect _ _ _ ih => exact ih

theorem lastWrite_eq : lastWrite es d = d' := by
  induction h with
  | done => rfl
  | moves _ _ _ ih | write _ _ _ ih => exact ih
  | detour _ _ _ _ _ ih => exact ih
  | effect _ hd _ ih => rw [lastWrite_cons, hd, ih]

theorem justified : ∀ e ∈ es, e.Justified g' q := by
  induction h with
  | done => simp
  | moves _ _ _ ih => exact ih
  | write _ _ _ ih => exact forall_mem_cons.mpr ⟨trivial, ih⟩
  | detour _ _ _ _ _ ih =>
    exact forall_mem_cons.mpr ⟨trivial, forall_mem_cons.mpr ⟨trivial, ih⟩⟩
  | effect he _ rest ih => exact forall_mem_cons.mpr ⟨rest.reach.effect he, ih⟩

/-- Whatever beginning of the effects has happened when the node crashes, there
is a shadow that its disk matches and that bears the effects out. -/
theorem cut (hm : d.Matches g q) (count : ℕ) :
    ∃ g₀, g.Reach q g₀ ∧ (lastWrite (es.take count) d).Matches g₀ q ∧
      ∀ e ∈ es.take count, e.Justified g₀ q := by
  induction h generalizing count with
  | done => exact ⟨_, .refl _, by simpa [lastWrite] using hm, by simp⟩
  | moves hr hd _ ih =>
    obtain ⟨g₀, hg, hrest⟩ := ih hd count
    exact ⟨g₀, hr.trans hg, hrest⟩
  | write hr hd _ ih =>
    cases count with
    | zero => exact ⟨_, .refl _, hm, by simp⟩
    | succ count =>
      obtain ⟨g₀, hg, hd₀, he₀⟩ := ih hd count
      exact ⟨g₀, hr.trans hg, hd₀, forall_mem_cons.mpr ⟨trivial, he₀⟩⟩
  | detour hr hd hr' hd' _ ih =>
    match count with
    | 0 => exact ⟨_, .refl _, hm, by simp⟩
    | 1 => exact ⟨_, hr, hd, by simp [Effect.Justified]⟩
    | count + 2 =>
      obtain ⟨g₀, hg, hd₀, he₀⟩ := ih hd' count
      exact ⟨g₀, hr'.trans hg, hd₀, forall_mem_cons.mpr ⟨trivial, forall_mem_cons.mpr ⟨trivial, he₀⟩⟩⟩
  | effect he hd rest ih =>
    cases count with
    | zero => exact ⟨_, .refl _, hm, by simp⟩
    | succ count =>
      obtain ⟨g₀, hg, hd₀, he₀⟩ := ih hm count
      refine ⟨g₀, hg, ?_, forall_mem_cons.mpr ⟨hg.effect he, he₀⟩⟩
      rw [take_succ_cons, lastWrite_cons, hd]
      exact hd₀

omit h

end Accounts

/-- The node and its shadow after a part of a call on node `q`. -/
structure Progress (q : Text) (g : Shadow S C) (n : RaftNode σ) (g' : Shadow S C)
    (n' : RaftNode σ) : Prop where
  accounts : ∃ es, n'.effects = n.effects ++ es ∧ Accounts q g n.durable es g' n'.durable
  domain : n'.readDomain = n.readDomain

namespace Progress

variable {g g' g'' : Shadow S C} {q : Text} {n n' n'' : RaftNode σ}

theorem trans (h : Progress q g n g' n') (h' : Progress q g' n' g'' n'') : Progress q g n g'' n'' := by
  obtain ⟨es, he, ha⟩ := h.accounts
  obtain ⟨es', he', ha'⟩ := h'.accounts
  refine ⟨⟨es ++ es', ?_, ha.trans ha'⟩, h'.domain.trans h.domain⟩
  rw [he', he, append_assoc]

theorem reach (h : Progress q g n g' n') : g.Reach q g' := by
  obtain ⟨_, _, ha⟩ := h.accounts
  exact ha.reach

theorem idle (he : n'.effects = n.effects) (hd : n'.durable = n.durable)
    (hr : n'.readDomain = n.readDomain) : Progress q g n g n' :=
  ⟨⟨[], by rw [he, append_nil], hd ▸ .done⟩, hr⟩

theorem refl (g : Shadow S C) (n : RaftNode σ) : Progress q g n g n := idle rfl rfl rfl

theorem moves (h : g.Reach q g') (hd : n.durable.Matches g' q) : Progress q g n g' n :=
  ⟨⟨[], (append_nil _).symm, .moves h hd .done⟩, rfl⟩

theorem store (h : g.Reach q g') {log : LogStore}
    (hd : (n.store log).durable.Matches g' q) : Progress q g n g' (n.store log) :=
  ⟨⟨_, rfl, .write h hd .done⟩, rfl⟩

theorem persist (h : g.Reach q g') {state : PersistentState}
    (hd : (n.persist state).durable.Matches g' q) : Progress q g n g' (n.persist state) :=
  ⟨⟨_, rfl, .write h hd .done⟩, rfl⟩

theorem detour {g₁ : Shadow S C} {d₁ d₂ : Durable} (h : g.Reach q g₁) (hd : d₁.Matches g₁ q)
    (h' : g.Reach q g') (hd' : d₂.Matches g' q)
    (he : n'.effects = n.effects ++ [.write d₁, .write d₂]) (hn : n'.durable = d₂)
    (hr : n'.readDomain = n.readDomain) : Progress q g n g' n' := by
  refine ⟨⟨_, he, ?_⟩, hr⟩
  rw [hn]
  exact .detour h hd h' hd' .done

theorem record {e : Effect} (he : e.Justified g q) (hd : lastWrite [e] n.durable = n.durable) :
    Progress q g n g (n.record e) :=
  ⟨⟨_, rfl, .effect he hd .done⟩, rfl⟩

theorem send {m : Message} (hm : m.Justified g) : Progress q g n g (n.send m) :=
  record (e := .send m) hm rfl

/-- A loop over peers that sends at most one message to each. -/
theorem foldl_send {step : RaftNode σ → Peer → RaftNode σ} {peers : List Peer}
    (hstep : ∀ peer ∈ peers, ∀ es, step { n with effects := es } peer = { n with effects := es } ∨
      ∃ m : Message, m.Justified g ∧
        step { n with effects := es } peer = { n with effects := es }.send m) :
    ∃ es, peers.foldl step n = { n with effects := es } ∧
      Progress q g n g { n with effects := es } := by
  suffices key : ∀ start : List Effect,
      ∃ es, peers.foldl step { n with effects := start } = { n with effects := es } ∧
        Progress q g { n with effects := start } g { n with effects := es } from key n.effects
  induction peers with
  | nil => exact fun start => ⟨start, rfl, .refl _ _⟩
  | cons peer rest ih =>
    intro start
    rw [forall_mem_cons] at hstep
    rw [foldl_cons]
    rcases hstep.1 start with h | ⟨m, hm, h⟩
    · rw [h]
      exact ih hstep.2 start
    · rw [h]
      obtain ⟨es, hes, hp⟩ := ih hstep.2 (start ++ [.send m])
      exact ⟨es, hes, .trans (.send hm) hp⟩

end Progress

end Charlotte.Graft
