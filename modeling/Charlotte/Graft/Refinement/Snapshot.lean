import Charlotte.Graft.Refinement.Append

/-!
# Restarts and snapshot streams

The image of a prefix is read back as the configuration and the application
state it was made of, at a restart and at the end of a stream alike.
-/

namespace Charlotte.Graft

open Lib Lib.ReplicatedLog List Option Bool

variable {σ : Type} {S : Setting σ} {C : ClusterConfiguration} {g g' : Shadow S C} {q : Text}
  {n : RaftNode σ}

/-! ## Reading an image -/

theorem Setting.Image.decode (hR : C.Readable) {log : List LogEntry} {data : Bytes}
    (h : S.Image C log data) : ∃ epoch s, S.Replays log s ∧ SnapshotCodec.decodeSnapshotPayload data =
      some ⟨epoch, C.currentMembers.values, [], S.machine.snapshot s⟩ := by
  obtain ⟨epoch, s, hs, rfl⟩ := h
  exact ⟨_, s, hs, SnapshotCodec.decodeSnapshotPayload_wrap epoch _
    (fun p hp => SnapshotCodec.reread_of_readable (hR p hp)) (by simp)⟩

theorem ClusterConfiguration.IsStable.envelopeConfiguration (hC : C.IsStable) (epoch : ℕ)
    (data : Bytes) : RaftNode.envelopeConfiguration ⟨epoch, C.currentMembers.values, [], data⟩ =
      some (some C) := by
  have hne : C.currentMembers.values.isEmpty = false := by
    cases hv : C.currentMembers.values with
    | cons => rfl
    | nil =>
      have hst := hC.stable_values
      rw [hv] at hst
      simp [stable, Members.collect, Members.empty, Members.isEmpty] at hst
  rw [RaftNode.envelopeConfiguration]
  simp only [hne, false_eq_true, ↓reduceIte, hC.stable_values, bind_eq_bind,
    bind_some, isEmpty_nil]

/-! ## Restart -/

namespace RaftNode

variable {config : RaftNodeConfig σ} {d : Durable}

/-- A constructed node is a follower that has applied what its snapshot covers. -/
theorem initial_holds {machine : Option σ}
    {restored : Option (ClusterConfiguration × ℕ)} (hd : d.Matches g q) (hid : config.me.id = q)
    (hC : (restored.map Prod.fst).getD config.clusterConfiguration = C) (hm : ∀ s, machine = some s →
      S.Replays ((g.world.replica q).log.take d.logStore.snapshotIndex) s) (currentMillis : ℕ) :
    (initial config d currentMillis machine restored).Holds g q
        { g.world.replica q with phase := .follower } ∧
      (initial config d currentMillis machine restored).lastApplied =
        (initial config d currentMillis machine restored).commitIndex ∧
      (initial config d currentMillis machine restored).durable = d ∧
      (initial config d currentMillis machine restored).effects = [] ∧
      (initial config d currentMillis machine restored).readDomain = none := by
  obtain ⟨⟨term, vote, admission⟩, _⟩ := d
  obtain rfl : admission = none := hd.admission
  refine ⟨?_, rfl, rfl, rfl, rfl⟩
  exact {
    durable := { hd with }
    me := hid
    term := hd.term
    vote := hd.vote
    configuration := hC
    snapshotConfiguration := hC
    joining := rfl
    joiners := rfl
    snapshot_le := le_rfl
    applied_le := le_rfl
    commit_le := hd.snapshot_le
    machine := hm
    phase := rfl
    candidate := nofun
    leader := nofun
    pending := nofun }

/-- The durable snapshot gives the launch configuration and the application
after the prefix it covers. -/
theorem loadSnapshot_spec (hS : S.Fixed C) (hR : C.Readable) (hd : d.Matches g q)
    (hl : S.launch q = some config) : ∃ restored application machine,
      loadSnapshot d.logStore = .ok (restored, application) ∧
      restoreMachine S.machine config.stateMachine application = .ok machine ∧
      (restored.map Prod.fst).getD config.clusterConfiguration = C ∧ ∀ s, machine = some s →
        S.Replays ((g.world.replica q).log.take d.logStore.snapshotIndex) s := by
  rw [loadSnapshot]
  split
  · rename_i hpos
    obtain ⟨epoch, s, hs, hdec⟩ := (hd.image hpos).decode hR
    have hread : readSnapshot d.logStore = some (some (C, envelopeEpoch
        ⟨epoch, C.currentMembers.values, [], S.machine.snapshot s⟩ d.logStore.snapshotIndex),
        S.machine.snapshot s) := by
      rw [readSnapshot, hdec]
      simp only [hS.stable.envelopeConfiguration, bind_eq_bind, bind_some, map_some]
    rw [hread]
    cases hmach : config.stateMachine with
    | none => exact ⟨_, _, none, rfl, rfl, rfl, fun s h => nomatch h⟩
    | some =>
      refine ⟨_, _, some s, rfl, ?_, rfl, ?_⟩
      · rw [restoreMachine, hS.restores]
        rfl
      · intro s' hs'
        obtain rfl := some.inj hs'
        exact hs
  · rename_i hzero
    refine ⟨none, none, config.stateMachine, rfl, ?_, hS.launch hl, ?_⟩
    · cases config.stateMachine <;> rfl
    · intro s hs
      rw [Nat.eq_zero_of_not_pos hzero, take_zero]
      exact ⟨q, config, s, hl, hs, rfl⟩

theorem new_settled (hS : S.Fixed C) (hR : C.Readable) (hd : d.Matches g q)
    (hl : S.launch q = some config) (currentMillis : ℕ) :
    ∃ g' n', new S.machine config d currentMillis = .ok (.ok n') ∧ g.Reach q g' ∧
      n'.Settled g' q ∧ n'.durable = d ∧ n'.effects = [] ∧ n'.readDomain = none := by
  have hid := S.launched hl
  obtain ⟨g', hg'⟩ := g.exists_yield q
  obtain ⟨restored, _, machine, hload, hrest, hC, hm⟩ := loadSnapshot_spec hS hR hd hl
  obtain ⟨hhs, hset, hdur, heff, hdom⟩ := initial_holds hd hid hC hm currentMillis
  have hn := hg'.node hhs
  refine ⟨g', { initial config d currentMillis machine restored with
    decommissioned := !C.contains (initial config d currentMillis machine restored).me.id },
    ?_, hg'.reach, ⟨{ hn with leader := fun h => { hn.leader h with } }, hset⟩, hdur, heff, hdom⟩
  rw [new, hload]
  simp only [Call.ok_bind, hrest, hn.effectiveConfiguration, require_some, Call.pure_eq]

end RaftNode

/-! ## The end of a stream -/

/-- A follower takes over a decided prefix of its leader's log, and keeps its own
log where that agrees with the prefix. -/
theorem Shadow.exists_install (g : Shadow S C) (q : Text) (hp : (g.world.replica q).phase = .follower)
    (hw : (g.world.hist.winner (g.world.replica q).term).isSome) {i : ℕ} (hi : i ≤ (g.leadOf q).length)
    (hd : Decided C.quorums g.world.hist (g.world.replica q).term ((g.leadOf q).take i)) :
    ∃ g' log, g.Becomes q { g.world.replica q with
        log, commit := max (g.world.replica q).commit i } g' ∧
      log.take i = (g.leadOf q).take i ∧
      ∀ s : LogStore, s.Represents (g.world.replica q).log → s.snapshotIndex < i → ∀ data,
        (s.installSnapshot i (termAtIndex (g.leadOf q) i) data).Represents log := by
  by_cases hkeep : i ≤ (g.world.replica q).log.length ∧
      termAtIndex (g.world.replica q).log i = termAtIndex (g.leadOf q) i
  · have htake := g.take_eq_lead q hw hkeep.1 hi hkeep.2
    obtain ⟨g', hg⟩ : ∃ g', g.Becomes q
        { g.world.replica q with commit := max (g.world.replica q).commit i } g' := by
      rcases lt_or_ge (g.world.replica q).commit i with hlt | hge
      · rw [max_eq_right hlt.le]
        exact g.exists_commit q hlt.le hkeep.1 (htake ▸ hd)
      · rw [max_eq_left hge]
        exact ⟨g, .refl g q⟩
    exact ⟨g', _, hg, htake, fun s hs hlt data => hs.installSnapshot hlt hkeep.1 hkeep.2 data⟩
  · have hlen : ((g.leadOf q).take i).length = i := length_take_of_le hi
    have hsht : ∀ k ≤ (g.world.replica q).log.length,
        (g.world.replica q).log.take k = (g.leadOf q).take k → k ≤ i := by
      intro k hk htake
      by_contra hgt
      exact hkeep ⟨by omega, termAtIndex_congr (take_eq_of_le htake (by omega))⟩
    have hcm : (g.world.replica q).commit ≤ i :=
      hsht _ (g.sound.replica q).commit_le (g.take_eq_lead_of_le_commit q hw le_rfl).1
    obtain ⟨g₁, hg₁⟩ := g.exists_adopt q hp hw hi hsht
    have hself : ((g.leadOf q).take i).take i = (g.leadOf q).take i := by
      rw [take_take, min_self]
    obtain ⟨g', hg'⟩ : ∃ g', g₁.Becomes q { g₁.world.replica q with commit := i } g' := by
      apply g₁.exists_commit q
      · rw [hg₁.replica]
        exact hcm
      · rw [hg₁.replica]
        exact hlen.ge
      · rw [hg₁.replica, hg₁.hist]
        exact hself.symm ▸ hd
    refine ⟨g', (g.leadOf q).take i, ?_, hself, ?_⟩
    · rw [max_eq_right hcm]
      rw [hg₁.replica] at hg'
      exact hg₁.trans hg'
    · intro s hs hlt data
      refine hs.installSnapshot_replace hlt hkeep data hlen ?_
      exact termAtIndex_congr hself

namespace RaftNode

/-- The envelope of an installed snapshot names the configuration the node has. -/
theorem Settled.adoptEnvelope (hs : n.Settled g q) (index epoch : ℕ) :
    Progress q g n g (n.adoptEnvelope index C epoch) ∧ (n.adoptEnvelope index C epoch).Settled g q ∧
      (n.adoptEnvelope index C epoch).state = n.state := by
  have hn := hs.holds
  have hd : (n.persistJoinAdmission none).durable.Matches g q :=
    { hn.durable with admission := rfl }
  rw [RaftNode.adoptEnvelope]
  split
  · refine ⟨.idle rfl rfl rfl, ⟨?_, hs.settled⟩, rfl⟩
    exact { hn with
      configuration := rfl
      snapshotConfiguration := rfl
      leader := fun hl => { hn.leader hl with } }
  · refine ⟨(Progress.persist (.refl g) hd).trans (.idle rfl rfl rfl), ⟨?_, hs.settled⟩, rfl⟩
    exact { hn with
      durable := hd
      configuration := rfl
      snapshotConfiguration := rfl
      joining := rfl
      leader := fun hl => { hn.leader hl with } }

theorem Settled.installStream (hS : S.Fixed C) (hR : C.Readable) (hs : n.Settled g q)
    (hf : n.state = .follower) (snap : PendingSnapshot) (hT : n.currentTerm = snap.leaderTerm)
    (hb : g.shots snap.leaderTerm snap.lastIncludedIndex = some snap.data)
    (hterm : snap.lastIncludedTerm =
      termAtIndex (g.world.hist.lead snap.leaderTerm) snap.lastIncludedIndex)
    (hlt : n.commitIndex < snap.lastIncludedIndex) :
    ∃ g' n', installStream S.machine snap n = .ok (some n') ∧ Progress q g n g' n' ∧
      n'.Settled g' q ∧ n'.state = .follower ∧
      (g'.world.replica q).term = (g.world.replica q).term ∧ g'.world.hist = g.world.hist ∧
      (g'.world.replica q).log.take snap.lastIncludedIndex =
        (g.leadOf q).take snap.lastIncludedIndex := by
  have hn := hs.holds
  have hlead : g.world.hist.lead snap.leaderTerm = g.leadOf q := by
    rw [Shadow.leadOf, ← hn.term, hT]
  obtain ⟨hw, _, hi, hdec, himg⟩ := g.shot hb
  rw [hlead] at hterm hi hdec himg
  have hphase : (g.world.replica q).phase = .follower := by
    rw [hn.phase, hf]
    rfl
  obtain ⟨g', log, hg, htake, hrep⟩ := g.exists_install q hphase
    (by rw [← hn.term, hT]; exact hw) hi (by rw [← hn.term, hT]; exact hdec)
  obtain ⟨epoch, s, hreplay, hdeco⟩ := himg.decode hR
  have hrep' := hrep _ hn.log (hn.snapshot_le.trans hn.applied_le |>.trans_lt hlt) snap.data
  rw [← hterm] at hrep'
  have hmac : restoreMachine S.machine n.stateMachine (some (S.machine.snapshot s)) =
      .ok (n.stateMachine.map fun _ => s) := by
    cases n.stateMachine with
    | none => rfl
    | some =>
      rw [restoreMachine, hS.restores]
      rfl
  have hd : Durable.Holds S C { g.world.replica q with
        log, commit := max (g.world.replica q).commit snap.lastIncludedIndex }
      ⟨n.persistentState, n.logStore.installSnapshot snap.lastIncludedIndex
        snap.lastIncludedTerm snap.data⟩ :=
    { hn.durable with
      log := hrep'
      snapshot_le := le_max_right _ _
      image := fun _ => htake.symm ▸ himg }
  have hs₁ : ({ n with
      stateMachine := n.stateMachine.map fun _ => s
      logStore := n.logStore.installSnapshot snap.lastIncludedIndex
        snap.lastIncludedTerm snap.data
      effects := n.effects ++ [.write ⟨n.persistentState, n.logStore.installSnapshot
        snap.lastIncludedIndex snap.lastIncludedTerm snap.data⟩]
      commitIndex := snap.lastIncludedIndex
      lastApplied := snap.lastIncludedIndex } : RaftNode σ).Settled g' q := by
    refine ⟨hg.node { hn with
      durable := hd
      snapshot_le := le_rfl
      applied_le := le_rfl
      commit_le := le_max_right _ _
      machine := fun s' hs' => ?_
      candidate := fun h => absurd (hf.symm.trans h) (by decide)
      leader := fun h => absurd (hf.symm.trans h) (by decide) }, rfl⟩
    obtain ⟨_, _, rfl⟩ := map_eq_some_iff.mp hs'
    exact htake.symm ▸ hreplay
  obtain ⟨hp₂, hs₂, hf₂⟩ := hs₁.adoptEnvelope snap.lastIncludedIndex
    (envelopeEpoch ⟨epoch, C.currentMembers.values, [], S.machine.snapshot s⟩ snap.lastIncludedIndex)
  refine ⟨g', _, ?_, ?_, hs₂, hf₂.trans hf, by rw [hg.replica], hg.hist,
    by rw [hg.replica]; exact htake⟩
  · rw [RaftNode.installStream]
    simp only [hdeco, map_some, getD_some, hmac, store,
      hS.stable.envelopeConfiguration, require_some, Call.ok_bind, Call.pure_eq]
  · refine Progress.trans ?_ hp₂
    exact ⟨⟨_, rfl, .write hg.reach (hg.disk hd) .done⟩, rfl⟩

/-! ## Chunks -/

variable {request : InstallSnapshotRequest} {snap : PendingSnapshot}

theorem openStream_matches {pending : Option PendingSnapshot}
    (hp : ∀ snap, pending = some snap → snap.Matches g)
    (h : openStream request pending = some snap) : snap.Matches g := by
  rw [openStream] at h
  split at h
  · cases h
    exact ⟨rfl, .inl rfl⟩
  · exact hp snap (filter_eq_some_iff.mp h).1

/-- A chunk that continues a stream lengthens the beginning it holds. -/
theorem append_chunk {b : Bytes}
    {last : ℕ} (hm : snap.Matches g) (hc : continues request snap = true)
    (hb : g.shots request.term request.lastIncludedIndex = some b) (hle : request.offset ≤ last)
    (hdata : request.data = (b.take last).drop request.offset) :
    snap.data ++ request.data = b.take last := by
  simp only [continues, and_eq_true, beq_iff_eq] at hc
  obtain ⟨⟨⟨⟨-, hterm⟩, hidx⟩, -⟩, hoff⟩ := hc
  have hbegin : snap.data = b.take request.offset := by
    rw [hoff, hm.1]
    rcases hm.2 with hnil | ⟨_, hb', hp⟩
    · rw [hnil]
      rfl
    · rw [← hterm, ← hidx, hb] at hb'
      obtain rfl := some.inj hb'
      exact prefix_iff_eq_take.mp hp
  rw [hbegin, hdata, ← min_eq_left hle, ← take_take, min_eq_left hle, take_append_drop]

theorem Settled.setPending (hs : n.Settled g q) (pending : Option PendingSnapshot)
    (hp : ∀ snap, pending = some snap → snap.Matches g) (sync : Option ℕ) : ({ n with
      pendingSnapshot := pending
      lastSuccessfulLeaderSyncMillis := sync } : RaftNode σ).Settled g q :=
  ⟨{ hs.holds with leader := fun hl => { hs.holds.leader hl with }, pending := hp }, hs.settled⟩

/-- A successful answer to the last chunk confirms the snapshot's index. -/
def Installs (q : Text) (g : Shadow S C) (response : InstallSnapshotResponse) : Prop :=
  response.success = true → response.done = true →
    response.lastIncludedIndex ≤ g.world.hist.acked q response.term

theorem Settled.takeChunk (hS : S.Fixed C) (hR : C.Readable) (hs : n.Settled g q)
    (hf : n.state = .follower) (hr : request.Justified g)
    (hT : n.currentTerm = request.term) (hlt : n.commitIndex < request.lastIncludedIndex)
    (currentMillis : ℕ) :
    Answered q g n (takeChunk S.machine request currentMillis n) (Installs q) := by
  have hn := hs.holds
  obtain ⟨b, _, hb, hle, hdata, hdone⟩ := hr.chunk
  -- every refusal keeps a matching stream or none
  have hrfs : ∀ (pending : Option PendingSnapshot) (offset : ℕ),
      (∀ snap, pending = some snap → snap.Matches g) →
      Answered q g n (.ok ({ n with pendingSnapshot := pending },
        (⟨n.me.id, n.currentTerm, false, request.lastIncludedIndex, offset, false⟩ :
          InstallSnapshotResponse))) (Installs q) :=
    fun pending offset hp => ⟨g, _, _, rfl, .idle rfl rfl rfl,
      hs.setPending pending hp n.lastSuccessfulLeaderSyncMillis, nofun⟩
  rw [RaftNode.takeChunk]
  cases hopen : openStream request n.pendingSnapshot with
  | none => exact hrfs none 0 nofun
  | some snap =>
    have hm := openStream_matches hn.pending hopen
    simp only
    split
    · exact hrfs (some snap) snap.offset (fun _ h => some.inj h ▸ hm)
    rename_i hcont
    rw [not_eq_true', not_eq_false] at hcont
    split
    · exact hrfs none 0 nofun
    have happ := append_chunk hm hcont hb hle hdata
    simp only [continues, and_eq_true, beq_iff_eq] at hcont
    obtain ⟨⟨⟨⟨-, hterm⟩, hidx⟩, hlterm⟩, _⟩ := hcont
    split
    · rename_i hlast
      rw [hdone hlast, take_length] at happ
      obtain ⟨g₁, _, hok, hp₁, hs₁, hf₁, ht₁, hh₁, htake⟩ :=
        hs.installStream hS hR hf { snap with
          data := snap.data ++ request.data
          offset := snap.offset + request.data.length } (hT.trans hterm)
          (by rw [happ, ← hb, ← hterm, ← hidx])
          (by rw [← hlterm, hr.term, ← hterm, ← hidx])
          (hlt.trans_eq hidx)
      rw [← hidx] at htake
      have hw : (g₁.world.hist.winner (g₁.world.replica q).term).isSome := by
        rw [ht₁, hh₁, ← hn.term, hT, hr.winner]
        rfl
      have hlead : g₁.leadOf q = g.leadOf q := by rw [Shadow.leadOf, ht₁, hh₁]
      have hi : request.lastIncludedIndex ≤ (g₁.leadOf q).length := by
        rw [hlead, Shadow.leadOf, ← hn.term, hT]
        exact (g.shot hb).2.2.1
      obtain ⟨g₂, hp₂, hs₂, _, hack⟩ := hs₁.confirm hf₁ hw hi (by rw [hlead]; exact htake)
      simp only [hok, Call.ok_bind]
      refine ⟨g₂, _, _, rfl, hp₁.trans (hp₂.trans (.idle rfl rfl rfl)),
        hs₂.setPending none nofun _, fun _ _ => ?_⟩
      simp only [hn.term, ← ht₁]
      exact hack
    · rename_i hmore
      refine ⟨g, _, _, rfl, .idle rfl rfl rfl, hs.setPending (some _) (fun snap' h => ?_)
        n.lastSuccessfulLeaderSyncMillis, fun _ h => absurd h hmore⟩
      cases h
      refine ⟨?_, .inr ⟨b, ?_, ?_⟩⟩
      · simp only [length_append, hm.1]
      · simp only [← hterm, ← hidx, hb]
      · simp only [happ]
        exact take_prefix _ _

theorem Settled.handleInstallSnapshot (hS : S.Fixed C) (hR : C.Readable) (hs : n.Settled g q)
    (hr : request.Justified g) (currentMillis : ℕ) :
    Answered q g n (handleInstallSnapshot S.machine request currentMillis n) (Installs q) := by
  have hs₀ := hs.at currentMillis
  rw [RaftNode.handleInstallSnapshot]
  apply Answered.of_at currentMillis
  generalize { n with currentMillis } = n at hs₀ ⊢
  have hrfs : ∀ index, Answered q g n
      (.ok (n, (⟨n.me.id, n.currentTerm, false, index, 0, false⟩ : InstallSnapshotResponse)))
      (Installs q) :=
    fun _ => ⟨g, n, _, rfl, .refl g n, hs₀, nofun⟩
  simp only [Call.pure_eq]
  split
  · exact hrfs _
  rename_i hold
  split
  · exact hrfs _
  obtain ⟨g₁, hp₁, hs₁, hf₁, ht₁⟩ :=
    hs₀.followLeader (not_lt.mp hold) request.leaderId currentMillis
  generalize n.followLeader request.leaderId request.term currentMillis = n₁ at hp₁ hs₁ hf₁ ht₁ ⊢
  have hr₁ := hp₁.reach.installSnapshot hr
  have hn₁ := hs₁.holds
  split
  · rename_i hle
    have hw : (g₁.world.hist.winner (g₁.world.replica q).term).isSome := by
      rw [← hn₁.term, ht₁, hr₁.winner]
      rfl
    obtain ⟨htake, hlen⟩ := g₁.take_eq_lead_of_le_commit q hw (hle.trans hn₁.commit_le)
    obtain ⟨g₂, hp₂, hs₂, -, hack⟩ := hs₁.confirm hf₁ hw hlen htake
    refine ⟨g₂, _, _, rfl, hp₁.trans (hp₂.trans (.idle rfl rfl rfl)),
      hs₂.setPending none nofun n₁.lastSuccessfulLeaderSyncMillis, fun _ _ => ?_⟩
    simp only [hn₁.term]
    exact hack
  · rename_i hgt
    obtain ⟨g₂, n₂, response, hok, hp₂, hs₂, hinst⟩ :=
      hs₁.takeChunk hS hR hf₁ hr₁ ht₁ (not_le.mp hgt) currentMillis
    exact ⟨g₂, n₂, response, hok, hp₁.trans hp₂, hs₂, hinst⟩

end RaftNode

end Charlotte.Graft
