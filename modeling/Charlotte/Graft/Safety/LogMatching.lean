import Charlotte.Graft.Safety.Commitment

/-!
# Log matching with compaction

Two nodes that retain entries of one term at an index agree on that entry and on
every earlier one that both retain, and a follower's snapshot agrees with what
its leader retains.

An append request may start below the follower's snapshot. Whatever it overlaps,
each entry it brings ends up at its own index or not at all, and an entry of the
follower gives way only to compaction or from the first index on where the
request has an entry of another term.
-/

namespace Charlotte.Graft

open Lib Lib.ReplicatedLog List Option Function RaftNode AppendEntriesRequest

/-- The entry a request has for an index. -/
def AppendEntriesRequest.entryAt (request : AppendEntriesRequest) (index : ℕ) : Option LogEntry :=
  if index ≤ request.prevLogIndex then none else request.entries[index - request.prevLogIndex - 1]?

/-- The store and the request have entries of different terms for the index. -/
def LogStore.Conflicts (store : LogStore) (request : AppendEntriesRequest) (index : ℕ) : Prop :=
  ∃ entry new, store.entryAt index = some entry ∧ request.entryAt index = some new ∧
    entry.term ≠ new.term

/-- What a request may make of a store. -/
structure LogStore.Merges (request : AppendEntriesRequest) (store store' : LogStore) : Prop where
  snapshot_le : store.snapshotIndex ≤ store'.snapshotIndex
  /-- An entry stays, is compacted, or follows the first conflict. -/
  kept : ∀ {i entry}, store.entryAt i = some entry →
    store'.entryAt i = some entry ∨ i ≤ store'.snapshotIndex ∨ ∃ j ≤ i, store.Conflicts request j
  /-- Every entry was there before or is the request's for its index. -/
  source : ∀ {i entry}, store'.entryAt i = some entry →
    store.entryAt i = some entry ∨ request.entryAt i = some entry

namespace LogStore.Merges

variable {request request' : AppendEntriesRequest} {s s' : LogStore}

theorem refl (request : AppendEntriesRequest) (s : LogStore) : s.Merges request s :=
  ⟨le_rfl, .inl, .inl⟩

/-- A part of a request may do what the request may. -/
theorem of_part (h : s.Merges request s')
    (hpart : ∀ {i entry}, request.entryAt i = some entry → request'.entryAt i = some entry) :
    s.Merges request' s' := by
  refine ⟨h.snapshot_le, fun he => ?_, fun he => (h.source he).imp_right hpart⟩
  rcases h.kept he with h | h | ⟨j, hj, entry, new, hent, hnew, hne⟩
  · exact .inl h
  · exact .inr (.inl h)
  · exact .inr (.inr ⟨j, hj, entry, new, hent, hpart hnew, hne⟩)

variable {index : ℕ}

theorem compact (h : s.Merges request s') (hi : s'.snapshotIndex < index)
    (data : Bytes) : s.Merges request (s'.installSnapshot index (s'.termAt index) data) := by
  refine ⟨h.snapshot_le.trans hi.le, fun {i entry} he => ?_, fun {i entry} he => ?_⟩
  · rcases lt_or_ge index i with hlt | hge
    · rcases h.kept he with h | h | h
      · exact .inl ((entryAt_installSnapshot hi hlt data).trans h)
      · exact absurd h (by omega)
      · exact .inr (.inr h)
    · exact .inr (.inl hge)
  · have hlt : index < i := lt_of_entryAt he
    rw [entryAt_installSnapshot hi hlt] at he
    exact h.source he

theorem truncateFrom (hi : s.snapshotIndex < index)
    (hc : s.Conflicts request index) : s.Merges request (s.truncateFrom index) := by
  refine ⟨(truncateFrom_snapshotIndex s index).ge, fun {i entry} he => ?_, fun {i entry} he => ?_⟩
  · rw [entryAt_truncateFrom hi]
    split
    · exact .inl he
    · exact .inr (.inr ⟨index, by omega, hc⟩)
  · rw [entryAt_truncateFrom hi] at he
    split at he
    · exact .inl he
    · cases he

theorem append (h : s.Merges request s') {rest : List LogEntry}
    (hrest : ∀ k entry, rest[k]? = some entry → request.entryAt (s'.lastIndex + 1 + k) = some entry) :
    s.Merges request (s'.append rest) := by
  refine ⟨h.snapshot_le, fun {i entry} he => ?_, fun {i entry} he => ?_⟩
  · refine (h.kept he).imp_left fun he' => ?_
    rw [entryAt_append, if_pos (le_of_entryAt he')]
    exact he'
  · rw [entryAt_append] at he
    split at he
    · exact h.source he
    · right
      have := hrest _ _ he
      rwa [show s'.lastIndex + 1 + (i - s'.lastIndex - 1) = i by omega] at this

end LogStore.Merges

/-! ## What a call puts on disk -/

variable {σ : Type}

/-- The store of the node, and every store it has written, is as `P` says. -/
structure RaftNode.Writes (P : LogStore → Prop) (n : RaftNode σ) : Prop where
  now : P n.logStore
  all : ∀ d, .write d ∈ n.effects → P d.logStore

namespace RaftNode.Writes

variable {P : LogStore → Prop} {n n' : RaftNode σ} (h : n.Writes P)
include h

theorem record {e : Effect} (he : ∀ d, e = .write d → P d.logStore) : (n.record e).Writes P := by
  refine ⟨h.now, fun d hd => ?_⟩
  rcases mem_append.mp hd with hd | hd
  · exact h.all d hd
  · exact he d (mem_singleton.mp hd).symm

theorem persist (state : PersistentState) : (n.persist state).Writes P := by
  refine ⟨h.now, (h.record (e := .write ⟨state, n.logStore⟩) fun d hd => ?_).all⟩
  rw [← Effect.write.inj hd]
  exact h.now

theorem store {log : LogStore} (hlog : P log) : (n.store log).Writes P := by
  refine ⟨hlog, (h.record (e := .write ⟨n.persistentState, log⟩) fun d hd => ?_).all⟩
  rw [← Effect.write.inj hd]
  exact hlog

theorem followLeader (leaderId : Text) (term currentMillis : ℕ) :
    (n.followLeader leaderId term currentMillis).Writes P ∧
      (n.followLeader leaderId term currentMillis).logStore = n.logStore := by
  rw [RaftNode.followLeader]
  split
  · exact ⟨⟨h.now, ((h.persist _).persist _).all⟩, rfl⟩
  · split
    · exact ⟨⟨h.now, h.all⟩, rfl⟩
    · exact ⟨⟨h.now, h.all⟩, rfl⟩

theorem applyToMachine (M : StateMachine σ) (entry : LogEntry) :
    (n.applyToMachine M entry).Writes P ∧ (n.applyToMachine M entry).logStore = n.logStore := by
  rw [RaftNode.applyToMachine]
  cases n.stateMachine with
  | none => exact ⟨h, rfl⟩
  | some => exact ⟨⟨h.now, h.all⟩, rfl⟩

omit h

variable {M : StateMachine σ}

theorem applyLoop {fuel : ℕ} (hok : applyLoop M fuel n = .ok n') (h : n.Writes P)
    (hpln : ∀ {i entry}, n.logStore.entryAt i = some entry → entry.Plain) :
    n'.Writes P ∧ n'.logStore = n.logStore := by
  induction fuel generalizing n with
  | zero =>
    cases hok
    exact ⟨h, rfl⟩
  | succ fuel ih =>
    rw [applyLoop] at hok
    split at hok
    · simp only at hok
      split at hok
      · have hrest := ih hok
        exact hrest ⟨h.now, h.all⟩ hpln
      rename_i entry hent
      have hr := h.record (e := .applied (n.lastApplied + 1) entry) fun _ h => by cases h
      split at hok
      · have hrest := ih hok
        exact hrest ⟨hr.now, hr.all⟩ hpln
      simp only [(hpln hent).applyConfigurationCommandWith, Call.ok_bind] at hok
      obtain ⟨hw, hs⟩ := applyToMachine (n := { n with
        lastApplied := n.lastApplied + 1
        effects := n.effects ++ [.applied (n.lastApplied + 1) entry] })
        ⟨hr.now, hr.all⟩ M entry
      obtain ⟨hw', hs'⟩ := ih hok hw (fun he => hpln (hs ▸ he))
      exact ⟨hw', hs'.trans hs⟩
    · cases hok
      exact ⟨h, rfl⟩

variable {request : AppendEntriesRequest} {s : LogStore}

theorem maybeCompactLocalSnapshot (M : StateMachine σ) (h : n.Writes (s.Merges request)) :
    (maybeCompactLocalSnapshot M n).Writes (s.Merges request) := by
  rw [RaftNode.maybeCompactLocalSnapshot]
  cases n.stateMachine with
  | none => exact h
  | some machine =>
    simp only
    split
    · exact h
    · rename_i hcond
      simp only [not_or] at hcond
      have := h.store (h.now.compact (not_le.mp hcond.2.2.2.1)
        (n.wrapSnapshot n.membershipEpoch (M.snapshot machine)))
      exact ⟨this.now, this.all⟩

/-- The entries of the store and the request belong to the application. -/
def Plain (s : LogStore) (request : AppendEntriesRequest) : Prop :=
  (∀ {i entry}, s.entryAt i = some entry → entry.Plain) ∧
    ∀ {i entry}, request.entryAt i = some entry → entry.Plain

theorem followCommit {leaderCommit lastNewIndex : ℕ}
    (hok : followCommit M leaderCommit lastNewIndex n = .ok n')
    (h : n.Writes (s.Merges request)) (hpln : Plain s request) : n'.Writes (s.Merges request) := by
  rw [RaftNode.followCommit] at hok
  split at hok
  · obtain ⟨_, hok₁, rfl⟩ := Call.map_eq_ok.mp hok
    have h₀ : { n with commitIndex := min leaderCommit lastNewIndex }.Writes
      (s.Merges request) := ⟨h.now, h.all⟩
    have hw := (applyLoop hok₁ h₀ fun he => (h.now.source he).elim hpln.1 hpln.2).1
    exact hw.maybeCompactLocalSnapshot M
  · cases hok
    exact h

/-- Entries that the request has from an index on are merged from there. -/
theorem mergeEntries {entries : List LogEntry} {index : ℕ} (h : n.Writes (s.Merges request))
    (hs : n.logStore = s) (hi : s.snapshotIndex < index) (hle : index ≤ s.lastIndex + 1)
    (hreq : ∀ k entry, entries[k]? = some entry → request.entryAt (index + k) = some entry) :
    (n.mergeEntries index entries).Writes (s.Merges request) := by
  subst hs
  induction entries generalizing index with
  | nil => exact h
  | cons entry rest ih =>
    rw [mergeEntries]
    split
    · rename_i hin
      split
      · obtain ⟨old, hold⟩ := LogStore.entryAt_isSome hi hin
        have hc : n.logStore.Conflicts request index :=
          ⟨old, entry, hold, hreq 0 entry rfl, by rwa [← LogStore.termAt_of_entryAt hold]⟩
        have hcut := LogStore.Merges.truncateFrom hi hc
        refine (h.store hcut).store (hcut.append ?_)
        rw [LogStore.lastIndex_truncateFrom hi hle, Nat.sub_add_cancel (by omega)]
        exact hreq
      · refine ih ?_ (by omega) (by omega)
        intro k e he
        have := hreq (k + 1) e he
        rwa [add_comm k, ← add_assoc] at this
    · refine h.store ((LogStore.Merges.refl _ _).append ?_)
      rw [show n.logStore.lastIndex + 1 = index by omega]
      exact hreq

variable {request' : AppendEntriesRequest}

/-- The normalised request is a part of the request from the snapshot on. -/
theorem normalizeRequest_part (h : n.normalizeRequest request = .inr request') :
    n.logStore.snapshotIndex ≤ request'.prevLogIndex ∧
      ∀ {i entry}, request'.entryAt i = some entry → request.entryAt i = some entry := by
  rw [normalizeRequest] at h
  simp only at h
  split at h
  · split at h
    · cases h
    split at h
    · cases h
    cases h
    refine ⟨le_rfl, fun {i entry} he => ?_⟩
    simp only [entryAt] at he ⊢
    split at he
    · cases he
    · rw [if_neg (by omega)]
      rw [getElem?_drop] at he
      rwa [show i - request.prevLogIndex - 1 =
        n.logStore.snapshotIndex - request.prevLogIndex +
          (i - n.logStore.snapshotIndex - 1) by omega]
  · cases h
    exact ⟨not_lt.mp ‹_›, id⟩

variable {currentMillis : ℕ} {response : AppendEntriesResponse}

theorem appendFromLeader (hok : appendFromLeader M request' currentMillis n = .ok (n', response))
    (h : n.Writes (s.Merges request)) (hs : n.logStore = s) (hpln : Plain s request)
    (hi : s.snapshotIndex ≤ request'.prevLogIndex)
    (hpart : ∀ {i entry}, request'.entryAt i = some entry → request.entryAt i = some entry) :
    n'.Writes (s.Merges request) := by
  rw [RaftNode.appendFromLeader, hs] at hok
  split at hok
  · cases hok
    exact h
  split at hok
  · cases hok
    exact h
  obtain ⟨_, hok₁, hn₁⟩ := Call.bind_eq_ok.mp hok
  have hreq : ∀ k entry, request'.entries[k]? = some entry →
      request.entryAt (request'.prevLogIndex + 1 + k) = some entry := by
    intro k entry he
    apply hpart
    rw [entryAt, if_neg (by omega)]
    rwa [show request'.prevLogIndex + 1 + k - request'.prevLogIndex - 1 = k by omega]
  have hmerge := h.mergeEntries hs (Nat.lt_succ_of_le hi) (by omega) hreq
  have hcm := followCommit hok₁ hmerge hpln
  cases hn₁
  exact ⟨hcm.now, hcm.all⟩

theorem handleAppendEntries
    (hok : handleAppendEntries M request currentMillis n = .ok (n', response))
    (h : n.Writes (s.Merges request)) (hs : n.logStore = s) (hpln : Plain s request) :
    n'.Writes (s.Merges request) := by
  rw [RaftNode.handleAppendEntries] at hok
  simp only [Call.pure_eq] at hok
  have h₀ : { n with currentMillis }.Writes
      (s.Merges request) := ⟨h.now, h.all⟩
  split at hok
  · cases hok
    exact h₀
  split at hok
  · cases hok
    exact h₀
  obtain ⟨h₁, hs₁⟩ := h₀.followLeader request.leaderId request.term currentMillis
  split at hok
  · cases hok
    exact h₁
  · rename_i heq
    obtain ⟨hle, hpart⟩ := normalizeRequest_part heq
    have hs' := hs₁.trans hs
    exact appendFromLeader hok h₁ hs' hpln (hs' ▸ hle) hpart

end RaftNode.Writes

theorem lastWrite_logStore {P : LogStore → Prop} {es : List Effect} {d : Durable}
    (hd : P d.logStore) (hes : ∀ d', .write d' ∈ es → P d'.logStore) : P (lastWrite es d).logStore := by
  induction es generalizing d with
  | nil => exact hd
  | cons e rest ih =>
    apply ih _ fun d' hd' => hes d' (mem_cons_of_mem _ hd')
    cases e with
    | write d' => exact hes d' mem_cons_self
    | send | granted | elected | applied => exact hd

namespace Cluster

variable {S : Setting σ} {C : ClusterConfiguration} {g : Shadow S C} {c : Cluster σ} {n : RaftNode σ}

/-- Wherever a crash cuts a call, the disk is as the call's writes are. -/
theorem settle_logStore {P : LogStore → Prop} {id : Text} (cut : Option ℕ)
    (hd : P (c.disks id).logStore) (hn : n.Writes P) :
    P ((c.settle id (.ok (some n)) cut).disks id).logStore := by
  cases cut with
  | none =>
    simp only [settle, observe, setNode, update_self]
    exact lastWrite_logStore hd hn.all
  | some =>
    simp only [settle, observe, setNode, update_self]
    exact lastWrite_logStore hd fun d hd' => hn.all d (mem_of_mem_take hd')

variable {request : AppendEntriesRequest}

/-- The entries of a request on the network and of its addressee are plain. -/
theorem plain_of_justified {dest : Text}
    (hn : n.Settled g dest) (hr : request.Justified g) : RaftNode.Writes.Plain n.logStore request := by
  refine ⟨hn.holds.entry_plain, fun {i entry} he => ?_⟩
  rw [entryAt] at he
  split at he
  · cases he
  · have hmem := hr.entries.subset (mem_of_getElem? he)
    exact g.plain (isSome_of_eq_some hr.winner) entry (mem_of_mem_drop hmem)

namespace Refines

variable (hc : c.Refines g)
include hc

/-- Delivering an append request merges its entries into the addressee's log. -/
theorem deliver_merges (hS : S.Fixed C) {position keep : ℕ} {echo : Bool} {currentMillis : ℕ}
    {cut : Option ℕ} {dest : Text}
    (hm : c.messageAt position = some (.appendEntries dest request)) :
    (c.disks dest).logStore.Merges request
      ((Cluster.step S c ⟨.deliver position keep echo currentMillis, cut⟩).disks dest).logStore := by
  have hr : request.Justified g := hc.messageAt hm
  simp only [Cluster.step, hm, Cluster.call, Message.dest]
  split
  · exact .refl _ _
  rename_i n hn
  obtain ⟨hs, hdur, heff⟩ := hc.node hn
  set part : AppendEntriesRequest := { request with entries := request.entries.take keep }
    with hpart
  have hr' : part.Justified g :=
    { hr with entries := (List.take_prefix _ _).trans hr.entries }
  have hsub : ∀ {i entry}, part.entryAt i = some entry → request.entryAt i = some entry := by
    intro i entry he
    simp only [entryAt, hpart, getElem?_take] at he ⊢
    split at he
    · cases he
    · rw [if_neg (by omega)]
      split at he
      · exact he
      · cases he
  obtain ⟨_, _, response, hok, -, -, -⟩ := hs.handleAppendEntries hS hr' currentMillis
  have hsta : n.Writes (n.logStore.Merges part) :=
    ⟨.refl _ _, fun d hd => by rw [heff] at hd; cases hd⟩
  have hw := (RaftNode.Writes.handleAppendEntries hok hsta rfl (plain_of_justified hs hr')).record
    (e := .send (.appendEntriesResponse request.leaderId dest response)) fun _ h => by cases h
  simp only [Message.handle, ← hpart, hok, Call.ok_bind, Call.pure_eq, Except.map]
  have hlog : n.logStore = (c.disks dest).logStore := congrArg Durable.logStore hdur
  rw [hlog] at hw
  exact (settle_logStore cut (.refl _ _) hw).of_part hsub

variable {p q : Text}

/-- Entries of one term at an index, on two nodes, and what lies below them. -/
theorem entries_agree {i : ℕ} {e e' : LogEntry}
    (he : (c.disks p).logStore.entryAt i = some e) (he' : (c.disks q).logStore.entryAt i = some e')
    (ht : e.term = e'.term) {j : ℕ} (hj : j ≤ i) {a b : LogEntry}
    (ha : (c.disks p).logStore.entryAt j = some a) (hb : (c.disks q).logStore.entryAt j = some b) :
    a = b := by
  have hlog : ∀ {r k x}, (c.disks r).logStore.entryAt k = some x →
      0 < k ∧ (g.world.replica r).log[k - 1]? = some x := by
    intro r k x hx
    have hlt := LogStore.lt_of_entryAt hx
    rw [(hc.disk r).log.entryAt hlt] at hx
    exact ⟨by omega, hx⟩
  have htake := (g.sound.replica p).log_anchored.take_eq (g.sound.replica q).log_anchored
    (hlog he).2 (hlog he').2 ht
  obtain ⟨_, ha⟩ := hlog ha
  have hb := (hlog hb).2
  rw [← getElem?_take_of_lt (show j - 1 < i - 1 + 1 by omega)] at ha hb
  rw [htake, hb] at ha
  exact (some.inj ha).symm

/-- A node's snapshot agrees with the log of every leader from its term on. -/
theorem leader_take_snapshot {m : RaftNode σ} (hm : c.nodes p = some m)
    (hl : m.state = .leader) (hT : (c.disks q).persistentState.currentTerm ≤ m.currentTerm) :
    (g.world.replica p).log.take (c.disks q).logStore.snapshotIndex =
      (g.world.replica q).log.take (c.disks q).logStore.snapshotIndex := by
  have hn := (hc.node hm).1.holds
  have hd := hc.disk q
  rw [hd.term, hn.term] at hT
  have hpre := g.sound.hist.decided_prefix_lead (g.sound.replica q).commit_decided hT
    (isSome_of_eq_some (hn.winner hl))
  rw [hn.lead hl] at hpre
  have htake := prefix_take hpre (k := (c.disks q).logStore.snapshotIndex) (by
    rw [length_take_of_le (g.sound.replica q).commit_le]
    exact hd.snapshot_le)
  rw [htake, take_take, min_eq_left hd.snapshot_le]

end Refines

/-- Logs agree wherever two nodes retain entries of one term, snapshots agree
with the leader, and append requests merge index by index. -/
theorem log_matching (hS : S.Fixed C) (hR : C.Readable) {steps : List Step}
    (hk : ∀ s ∈ steps, s.action.KeepsMembership) :
    (∀ k p q i e e', ((run S (steps.take k)).disks p).logStore.entryAt i = some e →
      ((run S (steps.take k)).disks q).logStore.entryAt i = some e' → e.term = e'.term →
      e = e' ∧ ∀ j ≤ i, ∀ a b, ((run S (steps.take k)).disks p).logStore.entryAt j = some a →
        ((run S (steps.take k)).disks q).logStore.entryAt j = some b → a = b) ∧
    (∀ k p q m, (run S (steps.take k)).nodes p = some m → m.state = .leader →
      ((run S (steps.take k)).disks q).persistentState.currentTerm ≤ m.currentTerm →
      (m.logStore.snapshotIndex ≤ ((run S (steps.take k)).disks q).logStore.snapshotIndex →
        m.logStore.termAt ((run S (steps.take k)).disks q).logStore.snapshotIndex =
          ((run S (steps.take k)).disks q).logStore.snapshotTerm) ∧
      ∀ i e, i ≤ ((run S (steps.take k)).disks q).logStore.snapshotIndex →
        m.logStore.entryAt i = some e → ((run S (steps.take k)).disks q).logStore.Covers S C i e) ∧
    ∀ k position keep echo currentMillis cut dest request,
      steps[k]? = some ⟨.deliver position keep echo currentMillis, cut⟩ →
      (run S (steps.take k)).messageAt position = some (.appendEntries dest request) →
      ((run S (steps.take k)).disks dest).logStore.Merges request
        ((run S (steps.take (k + 1))).disks dest).logStore := by
  obtain ⟨_, href, -⟩ := exists_shadows hS hR hk
  refine ⟨?_, ?_, ?_⟩
  · intro k p q i e e' he he' ht
    refine ⟨(href k).entries_agree he he' ht le_rfl he he', fun j hj a b ha hb => ?_⟩
    exact (href k).entries_agree he he' ht hj ha hb
  · intro k p q m hm hl hT
    have htake := (href k).leader_take_snapshot hm hl hT
    have hn := ((href k).node hm).1.holds
    have hd := (href k).disk q
    constructor
    · intro hle
      rw [hn.log.termAt hle, hd.log.term]
      exact termAtIndex_congr htake
    · intro i e hi he
      have hlt := LogStore.lt_of_entryAt he
      have hlt' : i - 1 < ((run S (steps.take k)).disks q).logStore.snapshotIndex := by omega
      rw [hn.log.entryAt hlt, ← getElem?_take_of_lt hlt', htake, getElem?_take_of_lt hlt'] at he
      exact hd.covers (by omega) he
  · intro k position keep echo currentMillis cut dest request hstep hm
    rw [run_of_getElem? hstep]
    exact (href k).deliver_merges hS hm

end Cluster

open Cluster

theorem log_matching_twoVoters :
    ∃ e, ∀ q ∈ [ascii "a", ascii "b"], ((Cluster.run (recorderSetting twoVoters)
      twoVotersCommit).disks q).logStore.entryAt 1 = some e := by
  have hk : ∀ s ∈ twoVotersCommit, s.action.KeepsMembership := by decide
  have ha : ((run (recorderSetting twoVoters) (twoVotersCommit.take 10)).disks
      (ascii "a")).logStore.entryAt 1 = some ⟨1, ascii "a", []⟩ := by decide
  obtain ⟨e, he, ht⟩ : ∃ e, ((run (recorderSetting twoVoters)
      (twoVotersCommit.take 10)).disks (ascii "b")).logStore.entryAt 1 = some e ∧ e.term = 1 :=
    ⟨⟨1, ascii "a", []⟩, by decide⟩
  obtain ⟨rfl, -⟩ := (log_matching (recorderSetting_fixed (C := twoVoters) rfl)
    (by decide) hk).1 10 (ascii "a") (ascii "b") 1 _ e ha he ht.symm
  exact ⟨_, forall_mem_cons.mpr ⟨ha, forall_mem_singleton.mpr he⟩⟩

/-- Both leaders of one term open it with an entry at the same index. -/
theorem two_logs_of_bracedLearners : (recorderSetting bracedLearners).Fixed bracedLearners ∧
      (∀ s ∈ rivalElections, s.action.KeepsMembership) ∧
      ¬∀ p q i e e', ((Cluster.run (recorderSetting bracedLearners)
          rivalElections).disks p).logStore.entryAt i = some e →
        ((Cluster.run (recorderSetting bracedLearners)
          rivalElections).disks q).logStore.entryAt i = some e' → e.term = e'.term → e = e' := by
  refine ⟨recorderSetting_fixed rfl, by decide, fun h => ?_⟩
  have hmem : ∀ p ∈ [ascii "a", ascii "b\x7d"], ((run (recorderSetting bracedLearners)
      rivalElections).disks p).logStore.entryAt 3 = some ⟨2, p, []⟩ := by decide +kernel
  rw [forall_mem_cons, forall_mem_singleton] at hmem
  exact absurd (h _ _ 3 _ _ hmem.1 hmem.2 rfl) (by decide)

end Charlotte.Graft
