import Charlotte.Graft.Refinement.Election

/-!
# Append requests refine adoption

A follower that takes over entries of a request holds a longer piece of its
leader's log afterwards, whatever part of the request its snapshot covers.
-/

namespace Charlotte.Graft

open Lib Lib.ReplicatedLog List

variable {σ : Type} {S : Setting σ} {C : ClusterConfiguration} {g g' : Shadow S C} {q : Text}
  {n : RaftNode σ}

theorem termAtIndex_of_getElem? {log : List LogEntry} {index : ℕ} {e : LogEntry}
    (he : log[index]? = some e) : termAtIndex log (index + 1) = e.term := by
  rw [termAtIndex, if_neg (Nat.succ_ne_zero index), Nat.add_sub_cancel, he]
  rfl

namespace Shadow

/-- The log of the leader of a replica's term. -/
abbrev leadOf (g : Shadow S C) (q : Text) : List LogEntry :=
  g.world.hist.lead (g.world.replica q).term

/-- A replica's log agrees with its leader's log up to an index at which the
terms are the same. -/
theorem take_eq_lead (g : Shadow S C) (q : Text)
    (hw : (g.world.hist.winner (g.world.replica q).term).isSome) {i : ℕ}
    (hl : i ≤ (g.world.replica q).log.length) (hL : i ≤ (g.leadOf q).length)
    (ht : termAtIndex (g.world.replica q).log i = termAtIndex (g.leadOf q) i) :
    (g.world.replica q).log.take i = (g.leadOf q).take i := by
  cases i with
  | zero => simp only [take_zero]
  | succ =>
    obtain ⟨c, hc⟩ := Option.isSome_iff_exists.mp hw
    have he := getElem?_eq_getElem (Nat.lt_of_succ_le hl)
    have he' := getElem?_eq_getElem (Nat.lt_of_succ_le hL)
    rw [termAtIndex_of_getElem? he, termAtIndex_of_getElem? he'] at ht
    exact (g.sound.replica q).log_anchored.take_eq (g.sound.hist.lead_anchored hc) he he' ht

/-- What a replica has committed is in its leader's log. -/
theorem take_eq_lead_of_le_commit (g : Shadow S C) (q : Text)
    (hw : (g.world.hist.winner (g.world.replica q).term).isSome) {i : ℕ}
    (hi : i ≤ (g.world.replica q).commit) :
    (g.world.replica q).log.take i = (g.leadOf q).take i ∧ i ≤ (g.leadOf q).length := by
  have heq := take_eq_of_le (g.sound.commit_take_lead q hw) hi
  exact ⟨heq, le_length_of_take_eq heq.symm (hi.trans (g.sound.replica q).commit_le)⟩

end Shadow

namespace RaftNode

/-! ## Taking over entries -/

variable (hs : n.Settled g q)
include hs

variable (hf : n.state = .follower)
include hf

variable (hw : (g.world.hist.winner (g.world.replica q).term).isSome)
include hw

/-- A follower stores a longer piece of its leader's log. -/
theorem Settled.adopt {k : ℕ}
    (hk : k ≤ (g.leadOf q).length) (hc : ∀ i ≤ (g.world.replica q).log.length,
      (g.world.replica q).log.take i = (g.leadOf q).take i → i ≤ k)
    {log : LogStore} (hrep : log.Represents ((g.leadOf q).take k))
    (hidx : log.snapshotIndex = n.logStore.snapshotIndex)
    (hdata : log.snapshotData = n.logStore.snapshotData) :
    ∃ g', g.Becomes q { g.world.replica q with log := (g.leadOf q).take k } g' ∧
      Progress q g n g' (n.store log) ∧ (n.store log).Settled g' q := by
  have hn := hs.holds
  have hphase : (g.world.replica q).phase = .follower := by
    rw [hn.phase, hf]
    rfl
  obtain ⟨g', hg⟩ := g.exists_adopt q hphase hw hk hc
  have hcm : (g.world.replica q).commit ≤ k :=
    hc _ (g.sound.replica q).commit_le (g.take_eq_lead_of_le_commit q hw le_rfl).1
  have htake : ∀ i ≤ (g.world.replica q).commit,
      ((g.leadOf q).take k).take i = (g.world.replica q).log.take i := by
    intro i hi
    rw [take_take, min_eq_left (hi.trans hcm)]
    exact (g.take_eq_lead_of_le_commit q hw hi).1.symm
  have hd : (n.store log).durable.Holds S C
      { g.world.replica q with log := (g.leadOf q).take k } := by
    refine { hn.durable with log := hrep, snapshot_le := ?_, image := ?_ }
    · exact hidx ▸ hn.durable.snapshot_le
    · intro hpos
      have himg := hn.durable.image (hidx ▸ hpos)
      rw [← htake _ hn.durable.snapshot_le] at himg
      exact (congrArg₂ (fun i b => S.Image C (((g.leadOf q).take k).take i) b) hidx hdata).mpr himg
  refine ⟨g', hg, .store hg.reach (hg.disk hd), hg.node ?_, hs.settled⟩
  refine { hn with
    durable := hd
    snapshot_le := hidx ▸ hn.snapshot_le
    machine := fun s hm => ?_
    candidate := fun h => absurd (hf.symm.trans h) (by decide)
    leader := fun h => absurd (hf.symm.trans h) (by decide) }
  have := hn.machine s hm
  rwa [← htake _ (hn.applied_le.trans hn.commit_le)] at this

/-- A follower whose log is the beginning of its leader's log appends what comes
next there. -/
theorem Settled.appendEntries {entries : List LogEntry} {index : ℕ}
    (hlen : (g.world.replica q).log = (g.leadOf q).take index)
    (hi : index ≤ (g.leadOf q).length) (hpre : entries <+: (g.leadOf q).drop index) :
    ∃ g', g.Becomes q { g.world.replica q with log := (g.leadOf q).take (index + entries.length) } g' ∧
      Progress q g n g' (n.store (n.logStore.append entries)) ∧
      (n.store (n.logStore.append entries)).Settled g' q := by
  have hfull : (g.leadOf q).take index ++ entries = (g.leadOf q).take (index + entries.length) := by
    rw [take_add, ← prefix_iff_eq_take.mp hpre]
  have hend := hpre.length_le
  rw [length_drop] at hend
  apply hs.adopt hf hw (by omega)
  · intro i hle _
    rw [hlen, length_take] at hle
    omega
  · have hrep := hs.holds.log.append entries
    rwa [hlen, hfull] at hrep
  · rfl
  · rfl

/-- The entries of a request, from a point up to which the logs agree, bring the
follower's log up to their end. -/
theorem Settled.mergeEntries {entries : List LogEntry} {index : ℕ}
    (hsi : n.logStore.snapshotIndex ≤ index) (hlen : index ≤ (g.world.replica q).log.length)
    (hpre : entries <+: (g.leadOf q).drop index)
    (heq : (g.world.replica q).log.take index = (g.leadOf q).take index) :
    ∃ g', Progress q g n g' (n.mergeEntries (index + 1) entries) ∧
      (n.mergeEntries (index + 1) entries).Settled g' q ∧
      (n.mergeEntries (index + 1) entries).state = .follower ∧
      g'.world.hist = g.world.hist ∧ (g'.world.replica q).term = (g.world.replica q).term ∧
      (g'.world.replica q).log.take (index + entries.length) =
        (g.leadOf q).take (index + entries.length) := by
  induction entries generalizing index with
  | nil => exact ⟨g, .refl g n, hs, hf, rfl, rfl, heq⟩
  | cons entry rest ih =>
    have hlog := hs.holds.log
    have hL : (g.leadOf q)[index]? = some entry := by
      have := prefix_getElem? hpre (i := 0) (a := entry) rfl
      rwa [getElem?_drop, add_zero] at this
    have hi : index < (g.leadOf q).length := (List.getElem?_eq_some_iff.mp hL).1
    rw [RaftNode.mergeEntries]
    split
    · rename_i hle
      rw [hlog.lastIndex] at hle
      split
      · rename_i hne
        -- conflict: cut the log back to the agreed part, then append
        have hlt : n.logStore.snapshotIndex < index + 1 := by omega
        have hcut := hlog.truncateFrom hlt
        rw [Nat.add_sub_cancel, heq] at hcut
        obtain ⟨g₁, hg₁, hp₁, hs₁⟩ := hs.adopt hf hw hi.le
          (fun i _ htake => not_lt.mp fun hgt => hne (by
            rw [hlog.termAt (by omega), termAtIndex_congr (take_eq_of_le htake hgt),
              termAtIndex_of_getElem? hL])) hcut (LogStore.truncateFrom_snapshotIndex _ _)
          (LogStore.truncateFrom_snapshotData _ _)
        have hlead : g₁.leadOf q = g.leadOf q := by rw [Shadow.leadOf, hg₁.replica, hg₁.hist]
        have hpre₁ : entry :: rest <+: (g₁.leadOf q).drop index := hlead ▸ hpre
        obtain ⟨g₂, hg₂, hp₂, hs₂⟩ := hs₁.appendEntries hf
          (by rw [hg₁.replica, hg₁.hist]; exact hw) (by rw [hlead, hg₁.replica])
          (by rw [hlead]; exact hi.le) hpre₁
        refine ⟨g₂, hp₁.trans hp₂, hs₂, hf, hg₂.hist.trans hg₁.hist, ?_, ?_⟩
        · rw [hg₂.replica, hg₁.replica]
        · rw [hg₂.replica, hlead, take_take, min_self]
      · rename_i hterm
        have hnext : (g.world.replica q).log.take (index + 1) = (g.leadOf q).take (index + 1) := by
          apply g.take_eq_lead q hw hle (List.getElem?_eq_some_iff.mp hL).1
          rw [← hlog.termAt (hsi.trans (Nat.le_succ _)), not_not.mp hterm, termAtIndex_of_getElem? hL]
        have hrest : rest <+: (g.leadOf q).drop (index + 1) := by
          rw [← drop_drop]
          exact hpre.drop 1
        obtain ⟨g', hp, hs', hf', hh, ht, htake⟩ := ih (hsi.trans (Nat.le_succ _)) hle hrest hnext
        refine ⟨g', hp, hs', hf', hh, ht, ?_⟩
        rw [length_cons, add_comm rest.length, ← add_assoc]
        exact htake
    · rename_i hgt
      rw [hlog.lastIndex] at hgt
      obtain ⟨g', hg, hp, hs'⟩ := hs.appendEntries hf hw
        (by rw [← heq, take_of_length_le (by omega)]) hi.le hpre
      refine ⟨g', hp, hs', hf, hg.hist, by rw [hg.replica], ?_⟩
      rw [hg.replica, take_take, min_self]

omit hw

omit hf

/-! ## Answering -/

theorem Settled.followLeader {T : ℕ} (hT : n.currentTerm ≤ T)
    (leaderId : Text) (currentMillis : ℕ) :
    ∃ g', Progress q g n g' (n.followLeader leaderId T currentMillis) ∧
      (n.followLeader leaderId T currentMillis).Settled g' q ∧
      (n.followLeader leaderId T currentMillis).state = .follower ∧
      (n.followLeader leaderId T currentMillis).currentTerm = T := by
  have hn := hs.holds
  rw [RaftNode.followLeader]
  -- the timers and the known leader are no part of what the shadow knows
  suffices hmid : ∀ n₁ : RaftNode σ, n₁ =
      (if n.currentTerm < T then n.stepDown T currentMillis
        else if n.state ≠ .follower then { n with
          state := .follower
          knownLeaderId := none
          lastSuccessfulLeaderSyncMillis := none
          grantedVotes := ∅ }
        else n) →
      ∃ g', Progress q g n g' n₁ ∧ n₁.Settled g' q ∧ n₁.state = .follower ∧ n₁.currentTerm = T by
    obtain ⟨g', hp, hs', hf, ht⟩ := hmid _ rfl
    refine ⟨g', hp.trans (.idle rfl rfl rfl), ⟨?_, hs'.settled⟩, hf, ht⟩
    exact { hs'.holds with leader := fun hl => { hs'.holds.leader hl with } }
  rintro _ rfl
  split
  · rename_i hlt
    obtain ⟨g', hp, hs'⟩ := hs.stepDown hlt currentMillis
    exact ⟨g', hp, hs', rfl, rfl⟩
  rename_i hge
  have heq : n.currentTerm = T := le_antisymm hT (not_lt.mp hge)
  split
  · obtain ⟨g', hg'⟩ := g.exists_yield q
    refine ⟨g', ?_, ⟨hg'.node ?_, hs.settled⟩, rfl, heq⟩
    · refine (Progress.moves hg'.reach (hg'.disk { hn.durable with })).trans ?_
      exact .idle rfl rfl rfl
    · exact { hn with
        durable := { hn.durable with }
        phase := rfl
        candidate := nofun
        leader := nofun }
  · rename_i hf
    exact ⟨g, .refl g n, hs, not_not.mp hf, heq⟩

/-- A follower may confirm what it shares with its leader. -/
theorem Settled.confirm (hf : n.state = .follower)
    (hw : (g.world.hist.winner (g.world.replica q).term).isSome) {m : ℕ}
    (hm : m ≤ (g.leadOf q).length) (hl : (g.world.replica q).log.take m = (g.leadOf q).take m) :
    ∃ g', Progress q g n g' n ∧ n.Settled g' q ∧ g'.world.replica q = g.world.replica q ∧
      m ≤ g'.world.hist.acked q (g.world.replica q).term := by
  have hn := hs.holds
  obtain ⟨g', hg, hr, hack, -⟩ := g.exists_ack q hw hm hl
  refine ⟨g', .moves hg (.of_eq hr hn.durable), ⟨.of_eq hr ?_, hs.settled⟩, hr, hack⟩
  exact { hn with
    candidate := fun h => absurd (hf.symm.trans h) (by decide)
    leader := fun h => absurd (hf.symm.trans h) (by decide)
    pending := fun snap h => hg.pending (hn.pending snap h) }

omit hs

/-- A follower's commit index follows the decided part of what it holds. -/
theorem Settled.followCommit (hS : S.Fixed C) (hs : n.Settled g q) {leaderCommit last : ℕ}
    (hc : min leaderCommit last ≤ (g.world.replica q).log.length)
    (hd : Decided C.quorums g.world.hist (g.world.replica q).term
      ((g.world.replica q).log.take (min leaderCommit last))) :
    ∃ g' n', followCommit S.machine leaderCommit last n = .ok n' ∧
      Progress q g n g' n' ∧ n'.Settled g' q ∧
      (g'.world.replica q).term = (g.world.replica q).term := by
  rw [RaftNode.followCommit]
  split
  · rename_i hlt
    obtain ⟨g', hp, hn', ht⟩ := hs.holds.commitTo hlt.2.le hc hd
    obtain ⟨n', hok, hp', hs'⟩ := hn'.applyCommitted hS
    exact ⟨g', n', hok, hp.trans hp', hs', ht⟩
  · exact ⟨g, n, rfl, .refl g n, hs, rfl⟩

/-- A successful answer confirms the index it reports. -/
def Confirms (q : Text) (g : Shadow S C) (response : AppendEntriesResponse) : Prop :=
  response.success = true → response.matchIndex ≤ g.world.hist.acked q response.term

variable {request : AppendEntriesRequest}

theorem Settled.appendFromLeader (hS : S.Fixed C) (hs : n.Settled g q)
    (hf : n.state = .follower) (hr : request.Justified g) (hT : n.currentTerm = request.term)
    (hsi : n.logStore.snapshotIndex ≤ request.prevLogIndex) (currentMillis : ℕ) :
    Answered q g n (appendFromLeader S.machine request currentMillis n) (Confirms q) := by
  have hn := hs.holds
  have hterm : (g.world.replica q).term = request.term := hn.term.symm.trans hT
  have hw : (g.world.hist.winner (g.world.replica q).term).isSome := by
    rw [hterm, hr.winner]
    rfl
  have hlead : g.leadOf q = g.world.hist.lead request.term := by rw [Shadow.leadOf, hterm]
  have hrfs : ∀ index, Answered q g n
      (.ok (n, (⟨n.me.id, n.currentTerm, false, index⟩ : AppendEntriesResponse))) (Confirms q) :=
    fun _ => ⟨g, n, _, rfl, .refl g n, hs, nofun⟩
  rw [RaftNode.appendFromLeader]
  split
  · exact hrfs _
  rename_i hlast
  rw [hn.log.lastIndex, not_lt] at hlast
  split
  · exact hrfs _
  rename_i hprev
  have heq : (g.world.replica q).log.take request.prevLogIndex =
      (g.leadOf q).take request.prevLogIndex := by
    rcases eq_zero_or_pos request.prevLogIndex with h0 | hpos
    · rw [h0, take_zero, take_zero]
    · have ht := not_not.mp fun hne => hprev ⟨hpos, hne⟩
      rw [hn.log.termAt hsi, hr.prev_term, ← hlead] at ht
      exact g.take_eq_lead q hw hlast (hlead ▸ hr.prev_le) ht
  obtain ⟨g₁, hp₁, hs₁, hf₁, hh₁, ht₁, htake₁⟩ :=
    hs.mergeEntries hf hw hsi hlast (hlead ▸ hr.entries) heq
  generalize n.mergeEntries (request.prevLogIndex + 1) request.entries = n₁ at hp₁ hs₁ hf₁ ⊢
  have hlead₁ : g₁.leadOf q = g.leadOf q := by rw [Shadow.leadOf, ht₁, hh₁]
  have hend : request.prevLogIndex + request.entries.length ≤ (g₁.leadOf q).length := by
    have hle := hr.entries.length_le
    have hprevle := hr.prev_le
    rw [length_drop] at hle
    rw [hlead₁, hlead]
    omega
  obtain ⟨g₂, hp₂, hs₂, hr₂, hack⟩ := hs₁.confirm hf₁ (by rw [ht₁, hh₁]; exact hw) hend
    (by rw [hlead₁]; exact htake₁)
  have hc : min request.leaderCommit (request.prevLogIndex + request.entries.length) ≤
      (g₂.world.replica q).log.length := by
    rw [hr₂]
    exact (min_le_right _ _).trans (le_length_of_take_eq htake₁ (hlead₁ ▸ hend))
  have hd : Decided C.quorums g₂.world.hist (g₂.world.replica q).term
      ((g₂.world.replica q).log.take
        (min request.leaderCommit (request.prevLogIndex + request.entries.length))) := by
    have hdec := (hp₁.reach.trans hp₂.reach).grows.decided le_rfl hr.decided
    rw [hr₂, ht₁, hterm, take_eq_of_le htake₁ (min_le_right _ _), hlead]
    exact hdec.of_prefix (take_prefix_take_left (min_le_left _ _))
  obtain ⟨g₃, _, hok, hp₃, hs₃, ht₃⟩ := hs₂.followCommit hS hc hd
  simp only [hok, Call.ok_bind]
  refine ⟨g₃, _, _, rfl, hp₁.trans (hp₂.trans (hp₃.trans (.idle rfl rfl rfl))),
    ⟨{ hs₃.holds with leader := fun hl => { hs₃.holds.leader hl with } }, hs₃.settled⟩,
    fun _ => ?_⟩
  simp only [hs₃.holds.term, ht₃, hr₂]
  exact hack.trans (hp₃.reach.grows.acked _ _)

/-- The part of a request from the follower's snapshot on is a request of the
same leader. -/
theorem Settled.normalizeRequest (hs : n.Settled g q)
    (hr : request.Justified g) (hT : n.currentTerm = request.term) :
    (∃ response, n.normalizeRequest request = .inl response ∧ response.term = n.currentTerm ∧
      (response.success = true → response.matchIndex = n.logStore.snapshotIndex)) ∨
    ∃ request', n.normalizeRequest request = .inr request' ∧ request'.Justified g ∧
      n.currentTerm = request'.term ∧ n.logStore.snapshotIndex ≤ request'.prevLogIndex := by
  have hn := hs.holds
  rw [RaftNode.normalizeRequest]
  simp only
  split
  · rename_i hlt
    split
    · exact .inl ⟨_, rfl, rfl, fun _ => rfl⟩
    split
    · exact .inl ⟨_, rfl, rfl, nofun⟩
    refine .inr ⟨_, rfl, ?_, hT, le_rfl⟩
    obtain ⟨htake, hle⟩ := g.take_eq_lead_of_le_commit q (i := n.logStore.snapshotIndex)
      (by rw [← hn.term, hT, hr.winner]; rfl) hn.durable.snapshot_le
    rw [Shadow.leadOf, ← hn.term, hT] at htake hle
    refine { hr with prev_le := hle, prev_term := ?_, entries := ?_ }
    · exact hn.log.term.trans (termAtIndex_congr htake)
    · have hdrop := hr.entries.drop (n.logStore.snapshotIndex - request.prevLogIndex)
      rwa [drop_drop, Nat.add_sub_cancel' hlt.le] at hdrop
  · rename_i hge
    exact .inr ⟨request, rfl, hr, hT, not_lt.mp hge⟩

theorem Settled.handleAppendEntries (hS : S.Fixed C) (hs : n.Settled g q) (hr : request.Justified g)
    (currentMillis : ℕ) :
    Answered q g n (handleAppendEntries S.machine request currentMillis n) (Confirms q) := by
  have hs₀ := hs.at currentMillis
  rw [RaftNode.handleAppendEntries]
  apply Answered.of_at currentMillis
  generalize { n with currentMillis } = n at hs₀ ⊢
  have hrfs : ∀ index, Answered q g n
      (.ok (n, (⟨n.me.id, n.currentTerm, false, index⟩ : AppendEntriesResponse))) (Confirms q) :=
    fun _ => ⟨g, n, _, rfl, .refl g n, hs₀, nofun⟩
  simp only [Call.pure_eq]
  split
  · exact hrfs _
  rename_i hold
  split
  · exact hrfs _
  obtain ⟨g₁, hp₁, hs₁, hf₁, ht₁⟩ :=
    hs₀.followLeader (not_lt.mp hold) request.leaderId currentMillis
  generalize n.followLeader request.leaderId request.term currentMillis = n₁ at hp₁ hs₁ hf₁ ht₁ ⊢
  have hr₁ := hp₁.reach.appendEntries hr
  rcases hs₁.normalizeRequest hr₁ ht₁ with ⟨response, heq, hterm, hsucc⟩ |
    ⟨request', heq, hr', hT', hsi⟩
  · -- the snapshot is committed, so the leader's log has it
    rw [heq]
    have hw : (g₁.world.hist.winner (g₁.world.replica q).term).isSome := by
      rw [← hs₁.holds.term, ht₁, hr₁.winner]
      rfl
    obtain ⟨htake, hle⟩ := g₁.take_eq_lead_of_le_commit q hw hs₁.holds.durable.snapshot_le
    obtain ⟨g₂, hp₂, hs₂, _, hack⟩ := hs₁.confirm hf₁ hw hle htake
    refine ⟨g₂, n₁, response, rfl, hp₁.trans hp₂, hs₂, fun h => ?_⟩
    rw [hsucc h, hterm, hs₁.holds.term]
    exact hack
  · rw [heq]
    obtain ⟨g₂, n₂, response, hok, hp₂, hs₂, hconf⟩ :=
      hs₁.appendFromLeader hS hf₁ hr' hT' hsi currentMillis
    exact ⟨g₂, n₂, response, hok, hp₁.trans hp₂, hs₂, hconf⟩

end RaftNode

end Charlotte.Graft
