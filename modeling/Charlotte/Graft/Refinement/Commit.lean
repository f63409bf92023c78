import Charlotte.Graft.Refinement.Relation

/-!
# Commitment refines decision

Under a fixed membership every configuration a node computes from its log is the
one it was launched with, a leader commits only what a quorum has confirmed, and
applying committed entries never fails.
-/

namespace Charlotte.Graft

open Lib Lib.ReplicatedLog List Option ClusterConfiguration Graft.Configuration

variable {σ : Type} {S : Setting σ} {C : ClusterConfiguration} {g g' : Shadow S C} {q : Text}
  {n : RaftNode σ}

/-! ## Configurations -/

variable {e : LogEntry}

theorem LogEntry.Plain.follow (he : e.Plain) (c : ClusterConfiguration) : c.follow e.data = some c := by
  rw [ClusterConfiguration.follow, show decode e.data = none from he]

theorem LogEntry.Plain.isFinalize (he : e.Plain) : RaftNode.isFinalize e = false := by
  rw [RaftNode.isFinalize, show decode e.data = none from he]

theorem foldlM_eq_some {α β : Type*} {f : β → α → Option β} {b : β}
    (h : ∀ a, f b a = some b) (l : List α) : l.foldlM f b = some b := by
  induction l with
  | nil => rfl
  | cons a rest ih =>
    rw [foldlM_cons, h a]
    exact ih

namespace RaftNode.Matches

variable (hn : n.Matches g q)
include hn

theorem log : n.logStore.Represents (g.world.replica q).log := hn.durable.log

theorem entry_plain {index : ℕ} (he : n.logStore.entryAt index = some e) : e.Plain := by
  rw [LogStore.entryAt] at he
  split at he
  · cases he
  · have hmem := mem_of_getElem? he
    rw [hn.log.entries] at hmem
    exact g.log_plain q e (mem_of_mem_drop hmem)

/-- A plain log leaves the configuration as it is. -/
theorem configurationAt (index : ℕ) : n.configurationAt index = some C := by
  rw [RaftNode.configurationAt, hn.snapshotConfiguration]
  apply foldlM_eq_some
  intro position
  cases he : n.logStore.entryAt position with
  | none => rfl
  | some => exact (hn.entry_plain he).follow C

theorem effectiveConfiguration : n.effectiveConfiguration = some C := hn.configurationAt _

theorem pendingFinalizesHaveQuorum (replicated : TextSet) (index : ℕ) :
    n.pendingFinalizesHaveQuorum replicated index = some true := by
  rw [RaftNode.pendingFinalizesHaveQuorum]
  generalize indices (n.commitIndex + 1) index = positions
  induction positions with
  | nil => rfl
  | cons position rest ih =>
    have hnot : (n.logStore.entryAt position).any isFinalize = false := by
      cases he : n.logStore.entryAt position with
      | none => rfl
      | some => exact (hn.entry_plain he).isFinalize
    rw [allM, hnot]
    exact ih

theorem canCommit (index : ℕ) :
    n.canCommit index = some (decide (n.logStore.termAt index = n.currentTerm) &&
      C.hasJointMajority (n.replicatedTo C index)) := by
  rw [RaftNode.canCommit]
  split
  · rename_i hne
    simp [hne]
  · rename_i heq
    rw [hn.configurationAt]
    simp only [bind_eq_bind, bind_some, hn.pendingFinalizesHaveQuorum]
    simp [not_not.mp heq]

end RaftNode.Matches

/-! ## Choosing the commit index -/

/-- The last element of a list that passes a test, or the start. -/
theorem foldlM_select {α : Type} {f : α → Option Bool} {t : α → Bool}
    (hf : ∀ a, f a = some (t a)) (l : List α) (start : α) :
    ∃ r, l.foldlM (fun candidate a => do
        let ready ← f a
        some (if ready then a else candidate)) start = some r ∧
      (r = start ∨ r ∈ l ∧ t r = true) := by
  induction l generalizing start with
  | nil => exact ⟨start, rfl, .inl rfl⟩
  | cons a rest ih =>
    rw [foldlM_cons, hf a]
    obtain ⟨r, hr, hcase⟩ := ih (if t a then a else start)
    refine ⟨r, hr, ?_⟩
    rcases hcase with rfl | ⟨hmem, ht⟩
    · split
      · rename_i ht
        exact .inr ⟨mem_cons_self, ht⟩
      · exact .inl rfl
    · exact .inr ⟨mem_cons_of_mem _ hmem, ht⟩

theorem RaftNode.mem_indices {first last index : ℕ} :
    index ∈ indices first last ↔ first ≤ index ∧ index ≤ last := by
  rw [indices, mem_range'_1]
  omega

theorem ClusterConfiguration.contains_of_mem_allMembers {c : ClusterConfiguration} {p : Peer}
    (hp : p ∈ c.allMembers) : c.contains p.id = true := by
  have hmem := mem_distinctById hp
  rw [mem_append] at hmem
  rw [contains, Bool.or_eq_true, Members.contains_eq_isSome,
    Members.contains_eq_isSome]
  rcases hmem with h | h
  · exact .inl (isSome_of_eq_some (Members.mem_values.mp h))
  · exact .inr (isSome_of_eq_some (Members.mem_values.mp h))

namespace RaftNode

/-- Who counts as holding an index: the node itself and the peers whose match
index has reached it. -/
theorem mem_replicatedTo {c : ClusterConfiguration} {index : ℕ} {v : Text}
    (h : (n.replicatedTo c index).contains v = true) :
    v = n.me.id ∨ c.contains v = true ∧ v ≠ n.me.id ∧ index ≤ (n.matchIndex[v]?).getD 0 := by
  have key : ∀ (peers : List Peer) (start : TextSet), (∀ p ∈ peers, c.contains p.id = true) →
      (peers.foldl (fun replicated peer =>
        if peer.id ≠ n.me.id ∧ index ≤ (n.matchIndex[peer.id]?).getD 0 then
          replicated.insert peer.id
        else replicated) start).contains v = true →
      start.contains v = true ∨
        c.contains v = true ∧ v ≠ n.me.id ∧ index ≤ (n.matchIndex[v]?).getD 0 := by
    intro peers
    induction peers with
    | nil => exact fun start _ hv => .inl hv
    | cons p rest ih =>
      intro start hc hv
      rw [forall_mem_cons] at hc
      rw [foldl_cons] at hv
      rcases ih _ hc.2 hv with hs | hs
      · split at hs
        · rename_i hp
          rw [Std.ExtTreeSet.contains_insert, Bool.or_eq_true] at hs
          rcases hs with heq | hs
          · obtain rfl : p.id = v := by simpa using heq
            exact .inr ⟨hc.1, hp.1, hp.2⟩
          · exact .inl hs
        · exact .inl hs
      · exact .inr hs
  rcases key _ _ (fun p hp => contains_of_mem_allMembers hp) h with hs | hs
  · exact .inl (by simpa using hs : n.me.id = v).symm
  · exact .inr hs

namespace Matches

variable (hn : n.Matches g q)
include hn

variable (hl : n.state = .leader)
include hl

theorem leader_phase : (g.world.replica q).phase = .leader := by
  rw [hn.phase, hl]
  rfl

theorem winner : g.world.hist.winner (g.world.replica q).term = some q :=
  ((g.sound.replica q).leader (hn.leader_phase hl)).1

theorem lead : g.world.hist.lead (g.world.replica q).term = (g.world.replica q).log :=
  ((g.sound.replica q).leader (hn.leader_phase hl)).2

theorem chosen {index : ℕ} (hs : n.logStore.snapshotIndex < index)
    (hi : index ≤ n.logStore.lastIndex) (ht : n.logStore.termAt index = n.currentTerm)
    (hm : C.hasJointMajority (n.replicatedTo C index) = true) :
    Chosen C.quorums g.world.hist (g.world.replica q).term index := by
  have hw := isSome_of_eq_some (hn.winner hl)
  have hlead := hn.lead hl
  rw [hn.log.lastIndex] at hi
  rw [hn.term] at ht
  refine ⟨hw, ?_, by rwa [hlead], ?_⟩
  · rw [hn.log.termAt hs.le, termAtIndex, if_neg (by omega), getElem?_eq_getElem (by omega)] at ht
    have he : (g.world.hist.lead (g.world.replica q).term)[index - 1]? =
        some ((g.world.replica q).log[index - 1]) := by
      rw [hlead, getElem?_eq_getElem (by omega)]
    have := g.sound.hist.base_length_le hw he ht
    omega
  · refine C.quorums.mono ?_ (isQuorum_of_hasJointMajority hm)
    intro v hv
    obtain ⟨hself, hmat, -, -⟩ := hn.leader hl
    rcases mem_replicatedTo hv with rfl | ⟨hc, hne, hle⟩
    · rw [hn.me]
      exact hi.trans hself
    · exact hle.trans (hmat v hc (hn.me ▸ hne))

/-- A leader advances its commit index to a decided prefix or not at all. -/
theorem candidateCommit : ∃ candidate, n.candidateCommit = some candidate ∧
      (candidate = n.commitIndex ∨ n.commitIndex < candidate ∧
        candidate ≤ (g.world.replica q).log.length ∧
        Decided C.quorums g.world.hist (g.world.replica q).term
          ((g.world.replica q).log.take candidate)) := by
  obtain ⟨r, hr, hcase⟩ := foldlM_select hn.canCommit
    (indices (n.commitIndex + 1) n.logStore.lastIndex) n.commitIndex
  refine ⟨r, hr, ?_⟩
  rcases hcase with rfl | ⟨hmem, ht⟩
  · exact .inl rfl
  · rw [mem_indices] at hmem
    rw [Bool.and_eq_true, decide_eq_true_eq] at ht
    have hs := hn.snapshot_le.trans hn.applied_le
    have hlt : n.logStore.snapshotIndex < r := by omega
    have hc := hn.chosen hl hlt hmem.2 ht.1 ht.2
    refine .inr ⟨by omega, by rw [← hn.log.lastIndex]; exact hmem.2, .inr ?_⟩
    refine ⟨_, r, le_rfl, hc, ?_⟩
    rw [hn.lead hl]

omit hl

end Matches

/-! ## Application -/

end RaftNode

open RaftNode

theorem StateMachine.replay_append (M : StateMachine σ) (s : σ) (log : List LogEntry)
    (e : LogEntry) : M.replay s (log ++ [e]) = if e.isNoop then M.replay s log
      else (M.applyWithResult (M.replay s log) e.term e.data).1 := by
  simp only [StateMachine.replay, foldl_append, foldl_cons, foldl_nil]

namespace RaftNode.Matches

variable (hn : n.Matches g q)
include hn

theorem nextEntry (hlt : n.lastApplied < n.commitIndex) :
    ∃ e, n.logStore.entryAt (n.lastApplied + 1) = some e ∧
      (g.world.replica q).log[n.lastApplied]? = some e ∧
      (Effect.applied (n.lastApplied + 1) e).Justified g q := by
  have hc := hn.commit_le
  have hlen := (g.sound.replica q).commit_le
  have hsn := hn.snapshot_le
  have hlog : (g.world.replica q).log[n.lastApplied]? =
      some ((g.world.replica q).log[n.lastApplied]) := getElem?_eq_getElem (by omega)
  refine ⟨_, ?_, hlog, by omega, by omega, ?_⟩
  · rw [hn.log.entryAt (by omega)]
    exact hlog
  · refine prefix_getElem? (g.covers q) ?_
    rw [getElem?_take_of_lt (by omega)]
    exact hlog

theorem applyEntry (hlt : n.lastApplied < n.commitIndex)
    (he : (g.world.replica q).log[n.lastApplied]? = some e) (machine : Option σ)
    (results : Std.ExtTreeMap ℕ Bytes) (effects : List Effect)
    (hm : ∀ s, machine = some s → ∃ s₀, n.stateMachine = some s₀ ∧
      s = if e.isNoop then s₀ else (S.machine.applyWithResult s₀ e.term e.data).1) : ({ n with
        lastApplied := n.lastApplied + 1
        stateMachine := machine
        appliedCommandResults := results
        effects } : RaftNode σ).Matches g q := by
  refine { hn with snapshot_le := ?_, applied_le := hlt, machine := ?_, leader := ?_ }
  · exact hn.snapshot_le.trans (Nat.le_succ _)
  · intro s hs
    obtain ⟨s₀, hs₀, rfl⟩ := hm s hs
    obtain ⟨id, config, s₁, hid, hc, rfl⟩ := hn.machine s₀ hs₀
    refine ⟨id, config, s₁, hid, hc, ?_⟩
    rw [take_add_one, he]
    exact (S.machine.replay_append s₁ _ e).symm
  · exact fun hl => { hn.leader hl with }

end RaftNode.Matches

theorem LogEntry.Plain.applyConfigurationCommandWith (he : e.Plain)
    (M : StateMachine σ) (apply : RaftNode σ → Call (RaftNode σ)) (index : ℕ) (n : RaftNode σ) :
    RaftNode.applyConfigurationCommandWith M apply index e.data n = .ok none := by
  rw [RaftNode.applyConfigurationCommandWith, show decode e.data = none from he]
  rfl

namespace RaftNode

/-- With fuel for every entry the loop applies all that is committed. -/
theorem Matches.applyLoop {fuel : ℕ} (hn : n.Matches g q) (hf : n.commitIndex - n.lastApplied ≤ fuel) :
    ∃ n', applyLoop S.machine fuel n = .ok n' ∧ Progress q g n g n' ∧ n'.Settled g q := by
  induction fuel generalizing n with
  | zero =>
    have := hn.applied_le
    exact ⟨n, rfl, .refl g n, hn, by omega⟩
  | succ fuel ih =>
    rw [applyLoop]
    split
    · rename_i hlt
      obtain ⟨e, hent, hlog, hjust⟩ := hn.nextEntry hlt
      -- one round: the entry is recorded, and handed over unless it is a no-op
      have round : ∀ (machine : Option σ) (results : Std.ExtTreeMap ℕ Bytes),
          (∀ s, machine = some s → ∃ s₀, n.stateMachine = some s₀ ∧
            s = if e.isNoop then s₀ else (S.machine.applyWithResult s₀ e.term e.data).1) →
          ∃ n', applyLoop S.machine fuel { n with
              lastApplied := n.lastApplied + 1
              stateMachine := machine
              appliedCommandResults := results
              effects := n.effects ++ [.applied (n.lastApplied + 1) e] } = .ok n' ∧
            Progress q g n g n' ∧ n'.Settled g q := by
        intro machine results hm
        obtain ⟨n', hok, hp, hn'⟩ := ih (hn.applyEntry hlt hlog machine results
          (n.effects ++ [.applied (n.lastApplied + 1) e]) hm) (by simp only; omega)
        refine ⟨n', hok, (Progress.record hjust rfl).trans (.trans ?_ hp), hn'⟩
        exact Progress.idle rfl rfl rfl
      simp only [hent]
      split
      · rename_i hnoop
        exact round n.stateMachine _ fun s hs => ⟨s, hs, by rw [if_pos hnoop]⟩
      rename_i hnoop
      have hpln := hn.entry_plain hent
      simp only [hpln.applyConfigurationCommandWith, Call.ok_bind, applyToMachine]
      cases hs : n.stateMachine with
      | none =>
        exact round none _ (by simp)
      | some s =>
        apply round (some (S.machine.applyWithResult s e.term e.data).1)
        intro s' hs'
        refine ⟨s, hs, ?_⟩
        rw [if_neg hnoop]
        exact (some.inj hs').symm
    · have := hn.applied_le
      exact ⟨n, rfl, .refl g n, hn, by omega⟩

/-- A node that has applied all it has committed may replace the applied
prefix by its image. -/
theorem Settled.maybeCompactLocalSnapshot (hS : S.Fixed C) (hs : n.Settled g q) :
    Progress q g n g (maybeCompactLocalSnapshot S.machine n) ∧
      (maybeCompactLocalSnapshot S.machine n).Settled g q := by
  obtain ⟨hn, hset⟩ := hs
  rw [RaftNode.maybeCompactLocalSnapshot]
  cases hs : n.stateMachine with
  | none => exact ⟨.refl g n, hn, hset⟩
  | some s =>
    simp only
    split
    · exact ⟨.refl g n, hn, hset⟩
    rename_i hcond
    simp only [not_or] at hcond
    have hlt : n.logStore.snapshotIndex < n.commitIndex := not_le.mp hcond.2.2.2.1
    have hlen := hn.commit_le.trans (g.sound.replica q).commit_le
    set data := n.wrapSnapshot n.membershipEpoch (S.machine.snapshot s) with hdata
    have himg : S.Image C ((g.world.replica q).log.take n.commitIndex) data := by
      refine ⟨n.membershipEpoch, s, hset ▸ hn.machine s hs, ?_⟩
      rw [hdata, wrapSnapshot, hn.configuration, hS.stable.isJointConsensus]
      rfl
    have hrep := hn.log.installSnapshot hlt hlen (hn.log.termAt hlt.le).symm data
    have hd : (n.store (n.logStore.installSnapshot n.commitIndex
        (n.logStore.termAt n.commitIndex) data)).durable.Matches g q :=
      { hn.durable with
        log := hrep, snapshot_le := hn.commit_le, image := fun _ => himg }
    refine ⟨(Progress.store (.refl g) hd).trans (.idle rfl rfl rfl), ⟨?_, hset⟩⟩
    refine { hn with
      durable := hd, snapshotConfiguration := hn.configuration, leader := ?_,
      snapshot_le := hset.ge }
    intro hl
    obtain ⟨hself, hmat, hnext, hsh⟩ := hn.leader hl
    refine ⟨hself, hmat, hnext, fun hb => ?_⟩
    have hi := (hsh hb).1.trans_lt hlt
    exact ⟨hi.le, fun heq => absurd heq hi.ne⟩

theorem Matches.applyCommitted (hS : S.Fixed C) (hn : n.Matches g q) :
    ∃ n', applyCommitted S.machine n = .ok n' ∧ Progress q g n g n' ∧ n'.Settled g q := by
  have hf : n.commitIndex - n.lastApplied ≤ n.applyFuel := by
    have := hn.commit_le.trans (g.sound.replica q).commit_le
    rw [applyFuel, hn.log.lastIndex]
    omega
  obtain ⟨_, hok, hp, hn'⟩ := hn.applyLoop hf
  obtain ⟨hp', hn''⟩ := hn'.maybeCompactLocalSnapshot hS
  refine ⟨_, ?_, hp.trans hp', hn''⟩
  rw [RaftNode.applyCommitted, hok]
  rfl

/-! ## Advancing -/

/-- A node may move its commit index up to a decided prefix of its log. -/
theorem Matches.commitTo (hn : n.Matches g q) {c : ℕ} (hlt : n.commitIndex ≤ c)
    (hc : c ≤ (g.world.replica q).log.length)
    (hd : Decided C.quorums g.world.hist (g.world.replica q).term ((g.world.replica q).log.take c)) :
    ∃ g', Progress q g n g' { n with commitIndex := c } ∧
      { n with commitIndex := c }.Matches g' q ∧
      (g'.world.replica q).term = (g.world.replica q).term := by
  rcases Nat.lt_or_ge (g.world.replica q).commit c with hgt | hle
  · obtain ⟨g', hg⟩ := g.exists_commit q hgt.le hc hd
    have hd' : n.durable.Holds S C { g.world.replica q with commit := c } :=
      { hn.durable with snapshot_le := hn.durable.snapshot_le.trans hgt.le }
    refine ⟨g', (Progress.moves hg.reach (hg.disk hd')).trans (.idle rfl rfl rfl), hg.node ?_,
      by rw [hg.replica]⟩
    exact { hn with
      durable := hd'
      applied_le := hn.applied_le.trans hlt
      commit_le := le_rfl
      leader := fun hl => { hn.leader hl with } }
  · exact ⟨g, .idle rfl rfl rfl, { hn with
      applied_le := hn.applied_le.trans hlt, commit_le := hle,
      leader := fun hl => { hn.leader hl with } }, rfl⟩

/-- The call on node `q` succeeds, and the node it leaves is settled. -/
def Refined (q : Text) (g : Shadow S C) (n : RaftNode σ) (call : Call (RaftNode σ)) : Prop :=
  ∃ g' n', call = .ok n' ∧ Progress q g n g' n' ∧ n'.Settled g' q

/-- Setting the clock before a call is no part of it. -/
theorem Refined.of_at (currentMillis : ℕ) {call : Call (RaftNode σ)}
    (h : Refined q g { n with currentMillis } call) : Refined q g n call := by
  obtain ⟨g', n', hok, hp, hs⟩ := h
  refine ⟨g', n', hok, Progress.trans ?_ hp, hs⟩
  exact .idle rfl rfl rfl

/-- The call succeeds with an answer that the shadow bears out. -/
def Answered {ρ : Type} (q : Text) (g : Shadow S C) (n : RaftNode σ)
    (call : Call (RaftNode σ × ρ)) (true_of : Shadow S C → ρ → Prop) : Prop :=
  ∃ g' n' answer, call = .ok (n', answer) ∧ Progress q g n g' n' ∧ n'.Settled g' q ∧
    true_of g' answer

theorem Answered.of_at {ρ : Type} (currentMillis : ℕ) {call : Call (RaftNode σ × ρ)}
    {true_of : Shadow S C → ρ → Prop}
    (h : Answered q g { n with currentMillis } call true_of) :
    Answered q g n call true_of := by
  obtain ⟨g', n', r, hok, hp, hs⟩ := h
  refine ⟨g', n', r, hok, Progress.trans ?_ hp, hs⟩
  exact .idle rfl rfl rfl

theorem Settled.advanceCommitIndex (hS : S.Fixed C) (hs : n.Settled g q)
    (hl : n.state = .leader) : Refined q g n (advanceCommitIndex S.machine n) := by
  obtain ⟨hn, hset⟩ := hs
  obtain ⟨_, hcand, hcase⟩ := hn.candidateCommit hl
  rw [RaftNode.advanceCommitIndex, advanceCommitIndexWith, hcand]
  simp only [require_some, Call.ok_bind]
  split
  · rename_i hlt
    obtain ⟨-, hc, hd⟩ := hcase.resolve_left hlt.ne'
    obtain ⟨g', hp, hn', -⟩ := hn.commitTo hlt.le hc hd
    obtain ⟨n', hok, hp', hs'⟩ := hn'.applyCommitted hS
    exact ⟨g', n', hok, hp.trans hp', hs'⟩
  · exact ⟨g, n, rfl, .refl g n, hn, hset⟩

theorem Settled.appendEntry (hs : n.Settled g q) (hl : n.state = .leader) {data : Bytes}
    (hpln : decode data = none) :
    ∃ g', Progress q g n g' (n.appendEntry data) ∧ (n.appendEntry data).Settled g' q := by
  obtain ⟨hn, hset⟩ := hs
  obtain ⟨g', hg, hr, hack, hsh⟩ := g.exists_append q (e := ⟨n.currentTerm, n.me.id, data⟩)
    (hn.leader_phase hl) hn.term hpln
  have hlen := (g.sound.replica q).commit_le
  have htake : ∀ k ≤ (g.world.replica q).commit, ∀ e : LogEntry,
      ((g.world.replica q).log ++ [e]).take k = (g.world.replica q).log.take k :=
    fun k hk e => take_append_of_le_length (hk.trans hlen)
  have hd : (n.appendEntry data).durable.Matches g' q :=
    .of_eq hr { hn.durable with
      log := hn.durable.log.append _
      image := fun hpos => by
        have himg := hn.durable.image hpos
        rwa [← htake _ hn.durable.snapshot_le] at himg }
  refine ⟨g', Progress.store hg hd, .of_eq hr ?_, hset⟩
  refine { hn with
    durable := hr ▸ hd
    machine := ?_, candidate := ?_, leader := ?_
    pending := fun snap hs => hg.pending (hn.pending snap hs) }
  · intro s hs
    have hm := hn.machine s hs
    rwa [← htake _ (hn.applied_le.trans hn.commit_le)] at hm
  · intro hc
    exact absurd (hl.symm.trans hc) (by decide)
  · intro _
    have hlead := (hn.leader hl).grow hg.grows (congrFun hsh _)
    refine { hlead with self := ?_, next := ?_ }
    · simp only [length_append, length_singleton]
      exact hack
    · intro p hc hp
      have := hlead.next p hc hp
      simp only [length_append, length_singleton]
      exact ⟨this.1, this.2.trans (by omega)⟩

/-- The clock is no part of what the shadow knows. -/
theorem Settled.at (hs : n.Settled g q) (currentMillis : ℕ) :
    { n with currentMillis }.Settled g q :=
  ⟨{ hs.holds with leader := fun hl => { hs.holds.leader hl with } }, hs.settled⟩

/-- Neither is the record of effects. -/
theorem Settled.effects (hs : n.Settled g q) (es : List Effect) :
    { n with effects := es }.Settled g q :=
  ⟨{ hs.holds with leader := fun hl => { hs.holds.leader hl with } }, hs.settled⟩

theorem Settled.submitCommand (hS : S.Fixed C) (hs : n.Settled g q) {command : Bytes}
    (hpln : decode command = none) (currentMillis : ℕ) : Refined q g n
      ((submitCommand S.machine command currentMillis n).map Prod.fst) := by
  rw [RaftNode.submitCommand, submitCommandWith]
  have hs' := hs.at currentMillis
  apply Refined.of_at currentMillis
  generalize { n with currentMillis } = n at hs' ⊢
  split
  · exact ⟨g, n, rfl, .refl g n, hs'⟩
  rename_i hl
  split
  · exact ⟨g, n, rfl, .refl g n, hs'⟩
  · obtain ⟨_, hp₁, hs₁⟩ := hs'.appendEntry (not_not.mp hl) hpln
    obtain ⟨g₂, n₂, hok, hp₂, hs₂⟩ := hs₁.advanceCommitIndex hS (not_not.mp hl)
    rw [RaftNode.advanceCommitIndex] at hok
    simp only [hok, Call.ok_bind]
    exact ⟨g₂, n₂, rfl, hp₁.trans hp₂, hs₂⟩

/-- Outside a joint phase there is nothing to finalise. -/
theorem Settled.maybeAutoFinalizeJointConfiguration (hS : S.Fixed C) (hs : n.Settled g q) :
    RaftNode.maybeAutoFinalizeJointConfiguration S.machine n = .ok n := by
  rw [RaftNode.maybeAutoFinalizeJointConfiguration, maybeAutoFinalizeWith, if_pos]
  · rfl
  · rw [hs.holds.configuration, hS.stable.isJointConsensus]
    simp

end RaftNode

end Charlotte.Graft
