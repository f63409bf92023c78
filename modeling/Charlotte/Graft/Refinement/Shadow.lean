import Charlotte.Graft.Cluster
import Charlotte.Graft.SnapshotRoundTrip
import Charlotte.Lib.ReplicationSteps

/-!
# The shadow of a cluster

What a cluster with a fixed membership stands for in the terms of log
replication: a sound world, the list of entries that are committed anywhere,
and the snapshots that leaders have put on the network.
-/

namespace Charlotte.Graft

open Lib Lib.ReplicatedLog List Option Function LogEntry

variable {σ : Type}

/-- Every node is launched with the one stable configuration `C`, and the
application's `restore` inverts its `snapshot`. -/
structure Setting.Fixed (S : Setting σ) (C : ClusterConfiguration) : Prop where
  stable : C.IsStable
  launch : ∀ {id config}, S.launch id = some config → config.clusterConfiguration = C
  restores : ∀ s s', S.machine.restore s' (S.machine.snapshot s) = .ok s

/-- The ids of the members survive the snapshot's text format. -/
def ClusterConfiguration.Readable (C : ClusterConfiguration) : Prop :=
  ∀ p ∈ C.currentMembers.values, SnapshotCodec.readable p.id = true

instance (C : ClusterConfiguration) : Decidable C.Readable :=
  inferInstanceAs (Decidable (∀ p ∈ C.currentMembers.values, SnapshotCodec.readable p.id = true))

/-- The application after the entries of a log. -/
def StateMachine.replay (M : StateMachine σ) (s : σ) (log : List LogEntry) : σ :=
  log.foldl (fun s entry =>
    if entry.isNoop then s else (M.applyWithResult s entry.term entry.data).1) s

/-- Replaying the log from the state some node is launched with gives the state. -/
def Setting.Replays (S : Setting σ) (log : List LogEntry) (s : σ) : Prop :=
  ∃ id config s₀, S.launch id = some config ∧ config.stateMachine = some s₀ ∧
    s = S.machine.replay s₀ log

/-- The bytes are a membership snapshot of the application after a log. -/
def Setting.Image (S : Setting σ) (C : ClusterConfiguration) (log : List LogEntry)
    (data : Bytes) : Prop :=
  ∃ epoch s, S.Replays log s ∧
    data = SnapshotCodec.wrapSnapshotPayloadWithMembershipEpoch C.currentMembers.values []
      epoch (S.machine.snapshot s)

/-- The entry is not a configuration command. -/
def LogEntry.Plain (entry : LogEntry) : Prop := Configuration.decode entry.data = none

/-- The quorums of a configuration without a change under way. -/
abbrev ClusterConfiguration.quorums (C : ClusterConfiguration) : QuorumSystem Text :=
  QuorumSystem.majority C.voters

structure Shadow (S : Setting σ) (C : ClusterConfiguration) where
  world : World Text LogEntry
  sound : world.Sound C.quorums term
  plain : ∀ {T}, (world.hist.winner T).isSome → ∀ e ∈ world.hist.lead T, e.Plain
  committed : List LogEntry
  decided : ∃ T, Decided C.quorums world.hist T committed
  covers : ∀ q, (world.replica q).log.take (world.replica q).commit <+: committed
  shots : ℕ → ℕ → Option Bytes
  shot : ∀ {T i b}, shots T i = some b →
    (world.hist.winner T).isSome ∧ 0 < i ∧ i ≤ (world.hist.lead T).length ∧
      Decided C.quorums world.hist T ((world.hist.lead T).take i) ∧
      S.Image C ((world.hist.lead T).take i) b

namespace Shadow

variable {S : Setting σ} {C : ClusterConfiguration} {g g' g'' : Shadow S C} {q : Text}
  {w' : World Text LogEntry}

/-- Every entry of a replica's log has been in a leader's log. -/
theorem log_plain (g : Shadow S C) (q : Text) : ∀ e ∈ (g.world.replica q).log, e.Plain := by
  intro e he
  obtain ⟨i, hi⟩ := mem_iff_getElem?.mp he
  obtain ⟨hw, hp⟩ := (g.sound.replica q).log_anchored i e hi
  refine g.plain hw e (hp.subset ?_)
  refine mem_of_getElem? (i := i) ?_
  rwa [getElem?_take_of_lt (Nat.lt_succ_self i)]

/-- A snapshot on the network stays one while the history grows. -/
theorem shot_grows (g : Shadow S C) (hg : g.world.hist.Grows w'.hist) {T i : ℕ} {b : Bytes}
    (hb : g.shots T i = some b) : (w'.hist.winner T).isSome ∧ 0 < i ∧ i ≤ (w'.hist.lead T).length ∧
      Decided C.quorums w'.hist T ((w'.hist.lead T).take i) ∧
      S.Image C ((w'.hist.lead T).take i) b := by
  obtain ⟨hw, hpos, hi, hd, himg⟩ := g.shot hb
  obtain ⟨c, hc⟩ := isSome_iff_exists.mp hw
  rw [hg.lead_take hw hi]
  exact ⟨hg.winner_isSome hw, hpos, hi.trans (hg.lead hc).length_le, hg.decided le_rfl hd, himg⟩

/-- What is committed once a replica has moved. -/
def committedAfter (g : Shadow S C) (q : Text) (w' : World Text LogEntry) : List LogEntry :=
  longer g.committed ((w'.replica q).log.take (w'.replica q).commit)

theorem prefix_committedAfter (m : Move C.quorums term q g.world w') :
    g.committed <+: g.committedAfter q w' ∧
      (w'.replica q).log.take (w'.replica q).commit <+: g.committedAfter q w' := by
  apply prefix_longer
  have hs := m.sound g.sound
  obtain ⟨T, hd⟩ := g.decided
  exact hs.hist.decided_comparable ((m.grows g.sound).decided le_rfl hd)
    (hs.replica q).commit_decided

/-- The shadow after a move of one replica. -/
def move (g : Shadow S C) (m : Move C.quorums term q g.world w')
    (hp : ∀ {T}, (w'.hist.winner T).isSome → ∀ e ∈ w'.hist.lead T, e.Plain) : Shadow S C where
  world := w'
  sound := m.sound g.sound
  plain := hp
  committed := g.committedAfter q w'
  decided := by
    rw [committedAfter]
    rcases longer_eq_or g.committed ((w'.replica q).log.take (w'.replica q).commit) with h | h
    · obtain ⟨T, hd⟩ := g.decided
      rw [h]
      exact ⟨T, (m.grows g.sound).decided le_rfl hd⟩
    · rw [h]
      exact ⟨_, ((m.sound g.sound).replica q).commit_decided⟩
  covers := by
    intro p
    by_cases hpq : p = q
    · subst hpq
      exact (prefix_committedAfter m).2
    · rw [m.replica_of_ne hpq]
      exact (g.covers p).trans (prefix_committedAfter m).1
  shots := g.shots
  shot hb := g.shot_grows (m.grows g.sound) hb

/-- One replica brings the shadow from `g` to `g'`. -/
structure Reach (q : Text) (g g' : Shadow S C) : Prop where
  moves : Moves C.quorums term q g.world g'.world
  committed : g.committed <+: g'.committed
  shots : ∀ {T i b}, g.shots T i = some b → g'.shots T i = some b
  own : ∀ {T}, g'.world.hist.winner T ≠ some q → g'.shots T = g.shots T

theorem reach_move (m : Move C.quorums term q g.world w')
    (hp : ∀ {T}, (w'.hist.winner T).isSome → ∀ e ∈ w'.hist.lead T, e.Plain) : g.Reach q (g.move m hp) :=
  ⟨.single m, (prefix_committedAfter m).1, id, fun _ => rfl⟩

namespace Reach

theorem refl (g : Shadow S C) : g.Reach q g := ⟨.refl, prefix_refl _, id, fun _ => rfl⟩

variable (h : g.Reach q g')
include h

theorem later : g.world.Later g'.world := Moves.later h.moves g.sound

theorem grows : g.world.hist.Grows g'.world.hist := h.later.grows

theorem trans (h' : g'.Reach q g'') : g.Reach q g'' where
  moves := h.moves.trans h'.moves
  committed := h.committed.trans h'.committed
  shots hb := h'.shots (h.shots hb)
  own hw := (h'.own hw).trans (h.own fun hw' => hw (h'.grows.winner hw'))

theorem replica_of_ne {p : Text} (hp : p ≠ q) : g'.world.replica p = g.world.replica p :=
  Moves.replica_of_ne h.moves hp

end Reach

/-- Put a snapshot on the network under the term one leads. -/
def shoot (g : Shadow S C) (T i : ℕ) (b : Bytes) (hw : (g.world.hist.winner T).isSome)
    (hpos : 0 < i) (hi : i ≤ (g.world.hist.lead T).length)
    (hd : Decided C.quorums g.world.hist T ((g.world.hist.lead T).take i))
    (himg : S.Image C ((g.world.hist.lead T).take i) b) : Shadow S C :=
  { g with
    shots := Function.update g.shots T (Function.update (g.shots T) i (some b))
    shot := by
      intro T' i' b' hb'
      rw [Function.update_apply] at hb'
      split_ifs at hb' with hT
      · subst hT
        by_cases hi' : i' = i
        · subst hi'
          rw [Function.update_self] at hb'
          obtain rfl := Option.some.inj hb'
          exact ⟨hw, hpos, hi, hd, himg⟩
        · rw [Function.update_of_ne hi'] at hb'
          exact g.shot hb'
      · exact g.shot hb' }

/-! ## Moves of one replica -/

/-- The replica has become `r`, and nothing else has happened. -/
structure Becomes (g : Shadow S C) (q : Text) (r : Replica Text LogEntry) (g' : Shadow S C) :
    Prop where
  reach : g.Reach q g'
  replica : g'.world.replica q = r
  hist : g'.world.hist = g.world.hist
  shots : g'.shots = g.shots

theorem Becomes.refl (g : Shadow S C) (q : Text) : g.Becomes q (g.world.replica q) g :=
  ⟨.refl g, rfl, rfl, rfl⟩

theorem Becomes.trans {r r' : Replica Text LogEntry} (h : g.Becomes q r g')
    (h' : g'.Becomes q r' g'') : g.Becomes q r' g'' :=
  ⟨h.reach.trans h'.reach, h'.replica, h'.hist.trans h.hist, h'.shots.trans h.shots⟩

section Moves

variable (g : Shadow S C) (q : Text)

/-- A move that only replaces a replica leaves the history as it is. -/
theorem exists_setReplica {r : Replica Text LogEntry}
    (m : Move C.quorums term q g.world (g.world.setReplica q r)) : ∃ g', g.Becomes q r g' :=
  ⟨g.move m g.plain, reach_move m g.plain, update_self .., rfl, rfl⟩

theorem exists_raise {T : ℕ} (v : Option Text) (hT : (g.world.replica q).term < T) : ∃ g', g.Becomes q
      { g.world.replica q with term := T, vote := v, phase := .follower } g' :=
  g.exists_setReplica q (.raise T v hT)

theorem exists_yield : ∃ g', g.Becomes q { g.world.replica q with phase := .follower } g' :=
  g.exists_setReplica q .yield

theorem exists_adopt {k : ℕ} (hp : (g.world.replica q).phase = .follower)
    (hw : (g.world.hist.winner (g.world.replica q).term).isSome)
    (hk : k ≤ (g.world.hist.lead (g.world.replica q).term).length)
    (hc : ∀ i ≤ (g.world.replica q).log.length, (g.world.replica q).log.take i =
        (g.world.hist.lead (g.world.replica q).term).take i → i ≤ k) :
    ∃ g', g.Becomes q { g.world.replica q with
      log := (g.world.hist.lead (g.world.replica q).term).take k } g' :=
  g.exists_setReplica q (.adopt k hp hw hk hc)

theorem exists_commit {c : ℕ} (hle : (g.world.replica q).commit ≤ c)
    (hc : c ≤ (g.world.replica q).log.length)
    (hd : Decided C.quorums g.world.hist (g.world.replica q).term ((g.world.replica q).log.take c)) :
    ∃ g', g.Becomes q { g.world.replica q with commit := c } g' :=
  g.exists_setReplica q (.commit c hle hc hd)

theorem exists_stand : ∃ g', g.Reach q g' ∧ g'.world.replica q = { g.world.replica q with
        term := (g.world.replica q).term + 1, vote := some q, phase := .candidate } ∧
      g'.world.hist.bid ((g.world.replica q).term + 1) q = some (g.world.replica q).log ∧
      g'.world.hist.ballot q ((g.world.replica q).term + 1) =
        some (q, (g.world.replica q).log) := by
  refine ⟨g.move (.stand (q := q)) g.plain, reach_move _ _, update_self .., ?_, ?_⟩
  · simp [move, World.stand]
  · simp [move, World.stand]

theorem exists_cast {c : Text} {cl : List LogEntry}
    (hv : (g.world.replica q).vote = none ∨ (g.world.replica q).vote = some c)
    (hb : g.world.hist.bid (g.world.replica q).term c = some cl)
    (hu : UpToDate term cl (g.world.replica q).log) :
    ∃ g', g.Reach q g' ∧ g'.world.replica q = { g.world.replica q with vote := some c } ∧
      g'.shots = g.shots ∧
      ∃ l, g'.world.hist.ballot q (g.world.replica q).term = some (c, l) := by
  let g' := g.move (.cast (q := q) c cl hv hb hu) g.plain
  have hr : g'.world.replica q = { g.world.replica q with vote := some c } := update_self ..
  refine ⟨g', reach_move _ _, hr, rfl, ?_⟩
  -- a ballot of this term names the replica's vote
  obtain ⟨⟨c', l⟩, hl⟩ : ∃ b, g'.world.hist.ballot q (g.world.replica q).term = some b := by
    simp [g', move, World.cast]
  have hvote := (g'.sound.replica q).ballot_vote (c := c') (l := l) (by rw [hr]; exact hl)
  rw [hr] at hvote
  obtain rfl : c = c' := some.inj hvote
  exact ⟨l, hl⟩

theorem exists_ack {m : ℕ} (hw : (g.world.hist.winner (g.world.replica q).term).isSome)
    (hm : m ≤ (g.world.hist.lead (g.world.replica q).term).length)
    (hl : (g.world.replica q).log.take m = (g.world.hist.lead (g.world.replica q).term).take m) :
    ∃ g', g.Reach q g' ∧ g'.world.replica q = g.world.replica q ∧
      m ≤ g'.world.hist.acked q (g.world.replica q).term ∧ g'.shots = g.shots := by
  refine ⟨g.move (.ack (q := q) m hw hm hl) g.plain, reach_move _ _, rfl, ?_, rfl⟩
  simp [move, World.ack]

/-- A leader whose log is the log of its term confirms all of it. -/
theorem exists_lead (m : Move C.quorums term q g.world w') {r : Replica Text LogEntry}
    (hr : w'.replica q = r) (hlead : w'.hist.lead = update g.world.hist.lead r.term r.log)
    (hw : (w'.hist.winner r.term).isSome)
    (hold : ∀ T ≠ r.term, w'.hist.winner T = g.world.hist.winner T) (hpln : ∀ e ∈ r.log, e.Plain) :
    ∃ g', g.Reach q g' ∧ g'.world.replica q = r ∧ w'.hist.Grows g'.world.hist ∧
      r.log.length ≤ g'.world.hist.acked q r.term ∧ g'.shots = g.shots := by
  subst hr
  have hpln' : ∀ {T}, (w'.hist.winner T).isSome → ∀ e ∈ w'.hist.lead T, e.Plain := by
    intro T hw' e he
    rw [hlead] at he
    by_cases hT : T = (w'.replica q).term
    · subst hT
      rw [update_self] at he
      exact hpln e he
    · rw [update_of_ne hT] at he
      exact g.plain (hold T hT ▸ hw') e he
  have hown : w'.hist.lead (w'.replica q).term = (w'.replica q).log := by
    rw [hlead, update_self]
  obtain ⟨g', hg, hr, hack, hsh⟩ := (g.move m hpln').exists_ack q hw
    (congrArg length hown).ge (congrArg (take _) hown.symm)
  exact ⟨g', (reach_move m hpln').trans hg, hr, hg.grows, hack, hsh⟩

/-- A leader that has just won confirms the log it was elected with. -/
theorem exists_elect (hp : (g.world.replica q).phase = .candidate) (hq : C.quorums.IsQuorum
      {v | ∃ l, g.world.hist.ballot v (g.world.replica q).term = some (q, l)}) :
    ∃ g', g.Reach q g' ∧ g'.world.replica q = { g.world.replica q with phase := .leader } ∧
      g'.world.hist.winner (g.world.replica q).term = some q ∧
      (g.world.replica q).log.length ≤ g'.world.hist.acked q (g.world.replica q).term ∧
      ∀ i, g'.shots (g.world.replica q).term i = none := by
  have hw : (g.world.elect q).hist.winner (g.world.replica q).term = some q := update_self ..
  obtain ⟨g', hg, hr, hgrow, hack, hsh⟩ := g.exists_lead q (.elect hp hq) (update_self ..) rfl
    (isSome_of_eq_some hw) (fun T hT => update_of_ne hT _ _) (g.log_plain q)
  refine ⟨g', hg, hr, hgrow.winner hw, hack, fun i => ?_⟩
  -- nobody has led the term before, so there are no snapshots under it
  rw [hsh]
  cases hb : g.shots (g.world.replica q).term i with
  | none => rfl
  | some b =>
    have hsome := (g.shot hb).1
    rw [g.sound.winner_none hp hq] at hsome
    cases hsome

theorem exists_append {e : LogEntry} (hp : (g.world.replica q).phase = .leader)
    (he : e.term = (g.world.replica q).term) (hpln : e.Plain) : ∃ g', g.Reach q g' ∧
      g'.world.replica q = { g.world.replica q with log := (g.world.replica q).log ++ [e] } ∧
      (g.world.replica q).log.length + 1 ≤ g'.world.hist.acked q (g.world.replica q).term ∧
      g'.shots = g.shots := by
  obtain ⟨g', hg, hr, -, hack, hsh⟩ := g.exists_lead q (.append e hp he) (update_self ..) rfl
    (isSome_of_eq_some ((g.sound.replica q).leader hp).1) (fun _ _ => rfl)
    (forall_mem_append.mpr ⟨g.log_plain q, forall_mem_singleton.mpr hpln⟩)
  rw [length_append] at hack
  exact ⟨g', hg, hr, hack, hsh⟩

end Moves

end Shadow

end Charlotte.Graft
