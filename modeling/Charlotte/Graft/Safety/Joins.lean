import Charlotte.Graft.Safety.Commands

/-!
# Answers to a JOIN

`submit_join` looks for a peer among the members, among the pending joiners and in the whole
retained log. The log also keeps the JOIN of a peer that was promoted and removed since; such a
peer is answered with the index of its old JOIN and never admitted. Any other answer means that
the peer is a member, is pending, or has an uncommitted JOIN at the index.
-/

namespace Charlotte.Graft

variable {σ : Type}

open Graft.Configuration LogStore Call Graft.Action Option

/-- The entry is a JOIN of the peer. -/
def LogEntry.IsJoin (entry : LogEntry) (id : Text) : Prop :=
  ∃ peer, decode entry.data = some (.join peer) ∧ peer.id = id

namespace RaftNode

/-- What an answer to a JOIN promises. -/
def Admits (n : RaftNode σ) (id : Text) (index : ℕ) : Prop :=
  n.clusterConfiguration.contains id = true ∨ (n.pendingJoiners[id]?).isSome = true ∨
    n.commitIndex < index ∧ ∃ entry, n.logStore.entryAt index = some entry ∧ entry.IsJoin id

/-- The peer is not looked up in the log, or its first JOIN there is not committed. -/
def Fresh (n : RaftNode σ) (id : Text) : Prop :=
  n.clusterConfiguration.contains id = true ∨ (n.pendingJoiners[id]?).isSome = true ∨
    ∀ index, n.findJoin id = some index → n.commitIndex < index

variable {M : StateMachine σ} {n n' : RaftNode σ} {id : Text} {index : ℕ}

theorem isJoin_of_findJoin (h : n.findJoin id = some index) :
    ∃ entry, n.logStore.entryAt index = some entry ∧ entry.IsJoin id := by
  have hfnd := List.find?_some h
  obtain ⟨entry, hent, hjoin⟩ := (any_eq_true ..).mp hfnd
  refine ⟨entry, hent, ?_⟩
  split at hjoin
  · next existing hd => exact ⟨existing, hd, by simpa using hjoin⟩
  · cases hjoin

/-! ### A JOIN on its way -/

/-- The JOIN at the index is still to be applied, or its peer is pending; nothing after it starts
a joint phase. -/
structure Joins (n : RaftNode σ) (id : Text) (index least : ℕ) : Prop where
  join : (n.lastApplied < index ∧ ∃ entry, n.logStore.entryAt index = some entry ∧ entry.IsJoin id) ∨
    index ≤ n.lastApplied ∧ (n.pendingJoiners[id]?).isSome = true
  after : ∀ position entry, index < position → n.logStore.entryAt position = some entry →
    ∀ members, decode entry.data ≠ some (.joint members)
  applied : least ≤ n.lastApplied

/-- The entry at the index is not committed or has been applied. -/
def Done (n : RaftNode σ) (index : ℕ) : Prop := n.commitIndex < index ∨ index ≤ n.lastApplied

variable {least : ℕ}

theorem Joins.admits (h : n.Joins id index least) (hd : n.Done index) : n.Admits id index := by
  rcases h.join with ⟨hlt, hjoin⟩ | ⟨-, hpend⟩
  · exact .inr (.inr ⟨hd.resolve_right (Nat.not_le_of_lt hlt), hjoin⟩)
  · exact .inr (.inl hpend)

theorem Joins.same (h : n.Joins id index least) (happ : n'.lastApplied = n.lastApplied)
    (hpending : index ≤ n.lastApplied → n'.pendingJoiners = n.pendingJoiners)
    (hlog : n'.logStore = n.logStore) : n'.Joins id index least := by
  refine ⟨?_, hlog ▸ h.after, happ ▸ h.applied⟩
  rw [hlog, happ]
  exact h.join.imp_right fun ⟨hle, hpend⟩ => ⟨hle, hpending hle ▸ hpend⟩

theorem Joins.install (h : n.Joins id index least) {last : ℕ} {data : Bytes}
    (hs : n.logStore.snapshotIndex < last) (hlt : n.lastApplied < index → last < index)
    (hlog : n'.logStore = n.logStore.installSnapshot last (n.logStore.termAt last) data)
    (happ : n'.lastApplied = n.lastApplied) (hpend : n'.pendingJoiners = n.pendingJoiners) :
    n'.Joins id index least := by
  refine ⟨?_, fun position entry hposi he => ?_, happ ▸ h.applied⟩
  · rw [happ, hpend, hlog]
    refine h.join.imp_left fun ⟨hl, hjoin⟩ => ⟨hl, ?_⟩
    rwa [entryAt_installSnapshot hs (hlt hl)]
  · rw [hlog] at he
    rw [entryAt_installSnapshot hs (lt_of_entryAt he)] at he
    exact h.after position entry hposi he

theorem Joins.compact (h : n.Joins id index least) (hd : n.Done index) :
    (n.maybeCompactLocalSnapshot M).Joins id index least ∧
      (n.maybeCompactLocalSnapshot M).Done index := by
  unfold maybeCompactLocalSnapshot
  split
  · exact ⟨h, hd⟩
  split
  · exact ⟨h, hd⟩
  · rename_i hcond
    have hs : n.logStore.snapshotIndex < n.commitIndex := by
      by_contra hle
      exact hcond (.inr (.inr (.inr (.inl (Nat.le_of_not_lt hle)))))
    exact ⟨h.install hs (fun hlt => hd.resolve_right (Nat.not_le_of_lt hlt)) rfl rfl rfl, hd⟩

theorem Joins.adopt (h : n.Joins id index least) {last : ℕ} (hs : n.logStore.snapshotIndex < last)
    (hlt : n.lastApplied < index → last < index) (configuration : ClusterConfiguration) :
    (n.adoptConfiguration M last configuration).Joins id index least := by
  simp only [adoptConfiguration, snapshotAdmittedMembership]
  repeat' split
  all_goals
    first
    | exact h.same rfl (fun _ => rfl) rfl
    | exact h.install hs hlt rfl rfl rfl

theorem Joins.appendFinalize (h : n.Joins id index least) :
    (n.appendEntry (encode .finalize)).Joins id index least where
  join := by
    refine h.join.imp_left fun ⟨hlt, entry, hent, hjoin⟩ => ⟨hlt, entry, ?_, hjoin⟩
    rcases n.entryAt_appendEntry (encode .finalize) index with hsame | ⟨hnone, -⟩
    · exact hsame.trans hent
    · cases hnone.symm.trans hent
  after := fun position entry hlt he members hd => by
    rcases n.entryAt_appendEntry (encode .finalize) position with hsame | ⟨-, hnew⟩
    · exact h.after position entry hlt (hsame.symm.trans he) members hd
    · cases hnew.symm.trans he
      have hfina : decode (encode .finalize) = some .finalize := by
        decide
      cases hfina.symm.trans hd
  applied := h.applied

/-! ### Applying what is committed -/

section Apply

variable {apply : RaftNode σ → Call (RaftNode σ)} (hn : n.Joins id index least)
  (happly : ∀ m m', m.Joins id index least → apply m = .ok m' → m'.Joins id index least)

include hn happly

theorem joins_advance (h : advanceCommitIndexWith apply n = .ok n') : n'.Joins id index least := by
  obtain ⟨candidate, -, h⟩ := bind_eq_ok.mp h
  split at h
  · exact happly { n with commitIndex := candidate } n' (hn.same rfl (fun _ => rfl) rfl) h
  · cases h
    exact hn

theorem joins_autoFinalize (h : maybeAutoFinalizeWith apply n = .ok n') : n'.Joins id index least := by
  unfold maybeAutoFinalizeWith submitCommandWith at h
  simp only at h
  split at h
  · cases h
    exact hn
  split at h
  · cases h
    exact hn
  obtain ⟨⟨n₁, result⟩, hsubmit, h⟩ := bind_eq_ok.mp h
  have hjo : n₁.Joins id index least := by
    split at hsubmit
    · cases hsubmit
      exact hn.same rfl (fun _ => rfl) rfl
    split at hsubmit
    · cases hsubmit
      exact hn.same rfl (fun _ => rfl) rfl
    · obtain ⟨_, hadv, h₂⟩ := bind_eq_ok.mp hsubmit
      cases h₂
      exact joins_advance (Joins.appendFinalize hn) happly hadv
  cases result with
  | error =>
    cases h
    exact hjo
  | ok =>
    cases h
    exact hjo.same rfl (fun _ => rfl) rfl

/-- An entry that is not the JOIN, nor a joint configuration after it. -/
theorem joins_configuration (hs : n.logStore.snapshotIndex < n.lastApplied) {data : Bytes}
    (hjoint : index ≤ n.lastApplied → ∀ members, decode data ≠ some (.joint members))
    (h : applyConfigurationCommandWith M apply n.lastApplied data n = .ok (some n')) :
    n'.Joins id index least := by
  unfold applyConfigurationCommandWith at h
  split at h
  · cases h
  · cases h
    refine ⟨hn.join.imp_right fun ⟨hle, hpend⟩ => ⟨hle, ?_⟩, hn.after, hn.applied⟩
    rw [Std.ExtTreeMap.getElem?_insert]
    split
    · rfl
    · exact hpend
  · rename_i members hd
    obtain ⟨configuration, -, h⟩ := bind_eq_ok.mp h
    obtain ⟨_, hfinal, h⟩ := bind_eq_ok.mp h
    cases h
    refine joins_autoFinalize (Joins.adopt ?_ ?_ ?_ configuration) happly hfinal
    · exact hn.same rfl (fun hle => absurd hd (hjoint hle members)) rfl
    · exact hs
    · exact fun hlt => hlt
  · cases h
    refine Joins.adopt ?_ ?_ ?_ _
    · exact hn.same rfl (fun _ => rfl) rfl
    · exact hs
    · exact fun hlt => hlt

end Apply

/-- The loop takes the JOIN along, as far as its fuel reaches. -/
theorem joins_applyLoop {fuel : ℕ} (hn : n.Joins id index least) (hfuel : index ≤ least + fuel)
    (h : applyLoop M fuel n = .ok n') : n'.Joins id index least ∧ n'.Done index := by
  induction fuel generalizing n n' least with
  | zero =>
    cases h
    exact ⟨hn, .inr (hfuel.trans hn.applied)⟩
  | succ fuel ih =>
    rw [applyLoop] at h
    split at h
    · have hrest : ∀ m, m.Joins id index (least + 1) → applyLoop M fuel m = .ok n' →
          n'.Joins id index least ∧ n'.Done index := by
        intro m hm hloop
        obtain ⟨hjo, hdone⟩ := ih hm (by omega) hloop
        exact ⟨⟨hjo.join, hjo.after, Nat.le_of_succ_le hjo.applied⟩, hdone⟩
      have happly : ∀ m m', m.Joins id index (least + 1) →
          (applyLoop M fuel m).map (maybeCompactLocalSnapshot M) = .ok m' →
          m'.Joins id index (least + 1) := by
        intro m m' hm hcall
        obtain ⟨_, hloop, rfl⟩ := map_eq_ok.mp hcall
        obtain ⟨hm₁, hdone⟩ := ih hm (by omega) hloop
        exact (hm₁.compact hdone).1
      -- Every entry but the JOIN leaves it where it is.
      have hnext : n.lastApplied + 1 ≠ index → ∀ effects, RaftNode.Joins
          { n with lastApplied := n.lastApplied + 1, effects } id index (least + 1) := by
        refine fun hne effects => ⟨hn.join.imp ?_ ?_, hn.after, Nat.succ_le_succ hn.applied⟩
        · exact And.imp_left fun hlt => lt_of_le_of_ne hlt hne
        · exact And.imp_left Nat.le_succ_of_le
      by_cases hat : n.lastApplied + 1 = index
      · subst hat
        obtain ⟨-, entry, hent, _, hd, rfl⟩ := hn.join.resolve_right fun h =>
          Nat.not_succ_le_self _ h.1
        have hnoop : entry.isNoop = false := by
          cases hdata : entry.data with
          | nil =>
            rw [hdata, decode_nil] at hd
            cases hd
          | cons => simp [LogEntry.isNoop, hdata]
        simp only [hent, record, hnoop, applyConfigurationCommandWith, hd, Bool.false_eq_true, if_false,
          pure_eq, ok_bind] at h
        refine hrest { n with lastApplied := n.lastApplied + 1, effects := _, pendingJoiners := _ }
          ⟨.inr ⟨le_rfl, ?_⟩, hn.after, Nat.succ_le_succ hn.applied⟩ h
        simp
      · cases hent : n.logStore.entryAt (n.lastApplied + 1) with
        | none =>
          simp only [hent] at h
          exact hrest _ (hnext hat _) h
        | some entry =>
          simp only [hent] at h
          split at h
          · exact hrest _ (hnext hat _) h
          obtain ⟨result, hres, h⟩ := bind_eq_ok.mp h
          cases result with
          | none =>
            obtain ⟨hlog, happ, hjoin⟩ := applyToMachine_same (M := M)
              ({ n with lastApplied := n.lastApplied + 1 }.record (.applied (n.lastApplied + 1) entry)) entry
            exact hrest _ ((hnext hat []).same happ (fun _ => hjoin) hlog) h
          | some n₁ =>
            have hn₁ := joins_configuration (hnext hat _) happly (lt_of_entryAt hent)
              (fun hle => hn.after _ entry (lt_of_le_of_ne hle (Ne.symm hat)) hent) hres
            exact hrest n₁ hn₁ h
    · cases h
      refine ⟨hn, ?_⟩
      unfold Done
      omega

theorem admits_submitted {peer : Peer} {currentMillis : ℕ}
    (happ : n.lastApplied ≤ n.logStore.lastIndex) (hcm : n.commitIndex ≤ n.logStore.lastIndex)
    (hpeer : decode (encode (.join peer)) = some (.join peer))
    (h : submitCommand M (encode (.join peer)) currentMillis n = .ok (n', .ok index)) :
    n'.Admits peer.id index := by
  unfold submitCommand submitCommandWith at h
  simp only at h
  split at h
  · cases h
  split at h
  · cases h
  obtain ⟨_, hadv, h⟩ := bind_eq_ok.mp h
  cases h
  set m := { n with currentMillis }.appendEntry (encode (.join peer))
  have hlast : m.logStore.lastIndex = n.logStore.lastIndex + 1 := by
    simp [m, appendEntry, store, append, lastIndex_eq, add_assoc]
  have hm : m.Joins peer.id m.logStore.lastIndex n.lastApplied := by
    refine ⟨.inl ⟨?_, ⟨n.currentTerm, n.me.id, encode (.join peer)⟩, ?_, peer, hpeer, rfl⟩,
      fun position entry hlt he => absurd (le_of_entryAt he) (Nat.not_le_of_lt hlt), le_rfl⟩
    · rw [hlast]
      exact Nat.lt_succ_of_le happ
    · rw [hlast]
      simp [m, appendEntry, store, entryAt_append]
  obtain ⟨candidate, -, hadv⟩ := bind_eq_ok.mp hadv
  split at hadv
  · obtain ⟨_, hloop, rfl⟩ := map_eq_ok.mp hadv
    have hfuel : m.logStore.lastIndex ≤ n.lastApplied + applyFuel { m with commitIndex := candidate } := by
      have hsame : m.lastApplied = n.lastApplied := rfl
      simp only [applyFuel, hsame]
      omega
    obtain ⟨hjo, hdone⟩ := joins_applyLoop (n := { m with commitIndex := candidate })
      (hm.same rfl (fun _ => rfl) rfl) hfuel hloop
    obtain ⟨hjo, hdone⟩ := hjo.compact (M := M) hdone
    exact hjo.admits hdone
  · rw [← Except.ok.inj hadv]
    exact hm.admits (.inl (hlast ▸ Nat.lt_succ_of_le hcm))

end RaftNode

/-- While the counters stay within the log, and for a peer whose JOIN reads back, an answer
promises admission exactly if it is not the index of a committed JOIN in the log. -/
theorem RaftNode.answer_admits_iff {M : StateMachine σ} {n n' : RaftNode σ} {peer : Peer}
    {currentMillis answer : ℕ} (happlied : n.lastApplied ≤ n.logStore.lastIndex)
    (hcommit : n.commitIndex ≤ n.logStore.lastIndex)
    (hpeer : Configuration.decode (Configuration.encode (.join peer)) = some (.join peer))
    (h : submitJoin M peer currentMillis n = .ok (n', .ok answer)) :
    n'.Admits peer.id answer ↔ n.Fresh peer.id := by
  unfold submitJoin at h
  split at h
  · rename_i hmb
    cases h
    exact ⟨fun _ => .inl hmb, fun _ => .inl hmb⟩
  rename_i hmb
  split at h
  · rename_i hpend
    cases h
    have hsome : (n.pendingJoiners[peer.id]?).isSome = true := by rw [hpend]; rfl
    exact ⟨fun _ => .inr (.inl hsome), fun _ => .inr (.inl hsome)⟩
  · rename_i hpend
    have hsome : ¬ (n.pendingJoiners[peer.id]?).isSome = true := by simp [hpend]
    split at h
    · rename_i hfnd
      cases h
      constructor
      · intro hadmits
        obtain ⟨hlt, -⟩ := (hadmits.resolve_left hmb).resolve_left hsome
        exact .inr (.inr fun index hidx => some.inj (hfnd.symm.trans hidx) ▸ hlt)
      · intro hfr
        have hlt := (hfr.resolve_left hmb).resolve_left hsome
        exact .inr (.inr ⟨hlt _ hfnd, isJoin_of_findJoin hfnd⟩)
    · rename_i hnone
      have hfr : n.Fresh peer.id := .inr (.inr fun index hidx => by cases hnone.symm.trans hidx)
      exact ⟨fun _ => hfr, fun _ => admits_submitted happlied hcommit hpeer h⟩

/-- A single voter that never compacts its log. -/
def soleSetting : Setting Bytes where
  machine := recorder
  launch id := if id = ascii "a" then some ⟨.voter (ascii "a") 1, 100, some [], oneVoter, 0, 4096⟩ else none
  launched := by
    intro id config h
    split at h
    · rename_i hid
      cases h
      exact hid.symm
    · cases h

/-- A learner joins, is promoted and is removed. -/
def removal : List Step :=
  [(start (ascii "a") 0).whole, (startElection (ascii "a") 0).whole,
    (submitJoin (ascii "a") (.learner (ascii "b") 2) 0).whole,
    (submitJointConfiguration (ascii "a") [.voter (ascii "a") 1, .learner (ascii "b") 2] 0).whole,
    (submitFinalizeConfiguration (ascii "a") 0).whole,
    (submitJointConfiguration (ascii "a") [.voter (ascii "a") 1] 0).whole]

/-- When it asks again, the leader answers with the index of its first JOIN: it is neither a member
nor pending, and the JOIN is committed. -/
theorem removed_peer_not_admitted : ((Cluster.run soleSetting removal).nodes (ascii "a")).bind (fun n =>
      (n.submitJoin recorder (.learner (ascii "b") 2) 0).toOption.map fun result => (n.state,
        result.2.toOption, result.1.clusterConfiguration.contains (ascii "b"),
        (result.1.pendingJoiners[ascii "b"]?).isSome, decide (result.1.commitIndex < 2))) =
      some (.leader, some 2, false, false, false) := by
  decide +kernel

/-- Its first JOIN is answered with an admission. -/
theorem answer_admits_first :
    ∃ n n', (Cluster.run soleSetting (removal.take 2)).nodes (ascii "a") = some n ∧
      n.submitJoin recorder (.learner (ascii "b") 2) 0 = .ok (n', .ok 2) ∧
      (n'.Admits (ascii "b") 2 ↔ n.Fresh (ascii "b")) := by
  have hrun : ((Cluster.run soleSetting (removal.take 2)).nodes (ascii "a")).map (fun n =>
      ((n.submitJoin recorder (.learner (ascii "b") 2) 0).toOption.bind (·.2.toOption),
        decide (n.lastApplied ≤ n.logStore.lastIndex ∧ n.commitIndex ≤ n.logStore.lastIndex))) =
      some (some 2, true) := by decide
  obtain ⟨n, hn, h⟩ := map_eq_some_iff.mp hrun
  obtain ⟨happ, hcm⟩ := of_decide_eq_true (congrArg Prod.snd h)
  obtain ⟨⟨n', answer⟩, hjoin, hanswer⟩ := bind_eq_some_iff.mp (congrArg Prod.fst h)
  cases hsubmit : n.submitJoin recorder (.learner (ascii "b") 2) 0 with
  | error => rw [hsubmit] at hjoin; cases hjoin
  | ok =>
    rw [hsubmit] at hjoin
    cases hjoin
    cases answer with
    | error => cases hanswer
    | ok =>
      cases hanswer
      exact ⟨n, n', hn, hsubmit, RaftNode.answer_admits_iff happ hcm (by decide) hsubmit⟩

end Charlotte.Graft
