import Charlotte.Graft.Refinement.Leader

/-!
# Runs of a cluster with a fixed membership

Every step of a cluster moves its shadow along, whatever the network does and
wherever a crash cuts a call short.
-/

namespace Charlotte.Graft

open Lib Lib.ReplicatedLog List Option Function

variable {σ : Type} {S : Setting σ} {C : ClusterConfiguration} {g g' g'' : Shadow S C}

/-- The action proposes no change of the membership. -/
def Action.KeepsMembership : Action → Prop
  | .submitCommand _ command _ => Configuration.decode command = none
  | .submitJointConfiguration _ _ _ => False
  | .submitFinalizeConfiguration _ _ => False
  | .submitJoin _ _ _ => False
  | .beginJoining _ _ _ => False
  | _ => True

instance : DecidablePred Action.KeepsMembership
  | .submitCommand _ command _ =>
    inferInstanceAs (Decidable (Configuration.decode command = none))
  | .submitJointConfiguration _ _ _ => isFalse id
  | .submitFinalizeConfiguration _ _ => isFalse id
  | .submitJoin _ _ _ => isFalse id
  | .beginJoining _ _ _ => isFalse id
  | .start _ _ | .crash _ | .startElection _ _ | .broadcastHeartbeat _ _ | .beginRead _ _ _ _
  | .deliver _ _ _ _ => isTrue trivial

namespace Shadow

/-- The shadow of a cluster in which nothing has happened. -/
def initial (S : Setting σ) (C : ClusterConfiguration) : Shadow S C where
  world := World.initial
  sound := World.sound_initial _ _
  plain := fun h => nomatch h
  committed := []
  decided := ⟨0, Or.inl rfl⟩
  covers := fun _ => List.prefix_refl _
  shots := fun _ _ => none
  shot := fun h => nomatch h

/-- One shadow comes after another in a run. -/
structure Later (g g' : Shadow S C) : Prop where
  world : g.world.Later g'.world
  committed : g.committed <+: g'.committed

theorem Later.refl (g : Shadow S C) : g.Later g := ⟨.refl _, prefix_refl _⟩

theorem Later.trans (h : g.Later g') (h' : g'.Later g'') : g.Later g'' :=
  ⟨h.world.trans h'.world, h.committed.trans h'.committed⟩

theorem Reach.toLater {q : Text} (h : g.Reach q g') : g.Later g' := ⟨h.later, h.committed⟩

end Shadow

/-! ## Deliveries -/

namespace RaftNode

variable {q : Text} {n : RaftNode σ}

/-- Sending the answer of a call completes it. -/
theorem Answered.send {ρ : Type} {call : Call (RaftNode σ × ρ)}
    {true_of : Shadow S C → ρ → Prop} (h : Answered q g n call true_of) (reply : ρ → Message)
    (hr : ∀ g' answer, true_of g' answer → (reply answer).Justified g') :
    Refined q g n (call >>= fun result => pure (result.1.send (reply result.2))) := by
  obtain ⟨g', _, answer, rfl, hp, hs, ht⟩ := h
  exact ⟨g', _, rfl, hp.trans (.send (hr g' answer ht)), hs.effects _⟩

theorem Settled.handle (hS : S.Fixed C) (hR : C.Readable) (hs : n.Settled g q) {m : Message}
    (hm : m.Justified g) (hd : m.dest = q) (keep : ℕ) (echo : Bool) (currentMillis : ℕ) :
    Refined q g n (m.handle S.machine keep echo currentMillis n) := by
  cases m with
  | voteRequest dest request =>
    obtain rfl : dest = q := hd
    exact (hs.handleVoteRequest hm currentMillis).send
      (fun response => .voteResponse request.candidateId dest response) fun _ _ h => h
  | voteResponse dest =>
    obtain rfl : dest = q := hd
    exact hs.handleVoteResponse hS hm currentMillis
  | appendEntries dest request =>
    obtain rfl : dest = q := hd
    have hm' : { request with entries := request.entries.take keep }.Justified g :=
      { hm with entries := (List.take_prefix _ _).trans hm.entries }
    exact (hs.handleAppendEntries hS hm' currentMillis).send
      (fun response => .appendEntriesResponse request.leaderId dest response) fun _ _ h => h
  | appendEntriesResponse dest =>
    obtain rfl : dest = q := hd
    exact hs.handleAppendEntriesResponse hS hm currentMillis
  | installSnapshot dest request =>
    obtain rfl : dest = q := hd
    exact (hs.handleInstallSnapshot hS hR hm currentMillis).send
      (fun response => .installSnapshotResponse request.leaderId dest response
        (if echo then response.nextOffset
          else saturatingAdd request.offset request.data.length)
        (if echo then response.done else request.done)) fun _ _ h => h
  | installSnapshotResponse dest =>
    obtain rfl : dest = q := hd
    exact hs.handleInstallSnapshotResponse hS hm currentMillis

end RaftNode

/-- A cluster as its shadow says. -/
structure Cluster.Refines (c : Cluster σ) (g : Shadow S C) : Prop where
  disk : ∀ q, (c.disks q).Matches g q
  node : ∀ {q n}, c.nodes q = some n → n.Settled g q ∧ n.durable = c.disks q ∧ n.effects = []
  history : ∀ {q e}, (q, e) ∈ c.history → e.Justified g q

namespace Cluster

theorem refines_initial : (initial : Cluster σ).Refines (Shadow.initial S C) where
  disk _ := ⟨rfl, rfl, rfl, LogStore.represents_new, le_rfl, nofun⟩
  node h := nomatch h
  history h := nomatch h

/-- What a step of a cluster with a fixed membership does: nothing, end a process,
or let a node make a call that its shadow accounts for. A call leaves the node's
read domain as it was, unless it begins a read and takes the next one. -/
inductive Does (g : Shadow S C) (c : Cluster σ) (s : Step) : Cluster σ → Prop
  | idle {domains : ℕ} (hle : c.domains ≤ domains) : Does g c s { c with domains }
  | stop (id : Text) : Does g c s (c.setNode id none)
  | act {id : Text} {n : RaftNode σ} {g' : Shadow S C} {starts : Text → ℕ} {domains : ℕ}
      (hn : n.Settled g' id) (ha : Accounts id g (c.disks id) n.effects g' n.durable)
      (hle : c.domains ≤ domains) (hstarts : ∀ p, p ≠ id → starts p = c.starts p)
      (hdomain : ∀ d, n.readDomain = some d → starts id = c.starts id ∧
        ((∃ n₀, c.nodes id = some n₀ ∧ n₀.readDomain = some d) ∨
          d = c.domains ∧ c.domains < domains ∧ ∃ query currentMillis memory,
            s.action = .beginRead id query currentMillis memory)) :
      Does g c s ({ c with starts, domains }.settle id
        (.ok (some n)) s.cut)

namespace Refines

variable {c : Cluster σ} (hc : c.Refines g)
include hc

variable {id : Text}

/-- The cluster after some effects of one node, whose process is replaced. -/
theorem observe (hg : g.Reach id g') {es : List Effect} {node : Option (RaftNode σ)}
    (hd : (lastWrite es (c.disks id)).Matches g' id) (he : ∀ e ∈ es, e.Justified g' id)
    (hn : ∀ n, node = some n → n.Settled g' id ∧ n.durable = lastWrite es (c.disks id) ∧
      n.effects = []) : ((c.observe id es).setNode id node).Refines g' where
  disk q := by
    by_cases hq : q = id
    · subst hq
      simp only [Cluster.observe, setNode, update_self]
      exact hd
    · simp only [Cluster.observe, setNode, update_of_ne hq]
      exact hg.disk hq (hc.disk q)
  node {q n} h := by
    by_cases hq : q = id
    · subst hq
      simp only [observe, setNode, update_self] at h ⊢
      exact hn n h
    · simp only [Cluster.observe, setNode, Function.update_of_ne hq] at h ⊢
      obtain ⟨hs, hrest⟩ := hc.node h
      exact ⟨⟨hg.node hq hs.holds, hs.settled⟩, hrest⟩
  history {q e} h := by
    simp only [Cluster.observe, setNode, List.mem_append, List.mem_map, Prod.mk.injEq] at h
    rcases h with h | ⟨e', he', rfl, rfl⟩
    · exact hg.effect (hc.history h)
    · exact he e' he'

theorem settle {n : RaftNode σ} (hn : n.Settled g' id)
    (ha : Accounts id g (c.disks id) n.effects g' n.durable) (cut : Option ℕ) :
    ∃ g', (c.settle id (.ok (some n)) cut).Refines g' ∧ g.Later g' := by
  cases cut with
  | none =>
    refine ⟨g', hc.observe ha.reach ?_ ha.justified ?_, ha.reach.toLater⟩
    · rw [ha.lastWrite_eq]
      exact hn.holds.durable
    · intro n' hn'
      obtain rfl := some.inj hn'
      exact ⟨hn.effects [], ha.lastWrite_eq.symm, rfl⟩
  | some count =>
    obtain ⟨g₀, hg, hd, he⟩ := ha.cut (hc.disk id) count
    exact ⟨g₀, hc.observe hg hd he (fun n h => nomatch h), hg.toLater⟩

variable {s : Step}

theorem of_does {c' : Cluster σ} (h : Does g c s c') : ∃ g', c'.Refines g' ∧ g.Later g' := by
  cases h with
  | idle => exact ⟨g, ⟨hc.disk, hc.node, hc.history⟩, .refl g⟩
  | stop id =>
    refine ⟨g, ⟨hc.disk, fun {q n} h => ?_, hc.history⟩, .refl g⟩
    simp only [setNode, update_apply] at h
    split_ifs at h
    exact hc.node h
  | @act id n g' starts domains hn ha hle hsts hdom =>
    have hc' : { c with starts, domains }.Refines g :=
      ⟨hc.disk, hc.node, hc.history⟩
    exact hc'.settle hn ha s.cut

theorem call {body : RaftNode σ → Call (RaftNode σ)} {domains : ℕ} (hle : c.domains ≤ domains)
    (h : ∀ n, n.Settled g id → ∃ d, (∀ x, d = some x → n.readDomain = some x ∨
        x = c.domains ∧ c.domains < domains ∧ ∃ query currentMillis memory,
          s.action = .beginRead id query currentMillis memory) ∧
      RaftNode.Refined id g { n with readDomain := d } (body n)) :
    Does g c s ({ c with domains }.call id s.cut body) := by
  rw [Cluster.call]
  cases hn : c.nodes id with
  | none => exact .idle hle
  | some n =>
    obtain ⟨hs, hdur, heff⟩ := hc.node hn
    obtain ⟨_, hd, _, n', hok, hp, hs'⟩ := h n hs
    obtain ⟨es, hes, hacc⟩ := hp.accounts
    have hes' : n'.effects = es := by
      rw [hes]
      simp only [heff, nil_append]
    simp only [hok]
    refine .act hs' ?_ hle (fun _ _ => rfl) fun x hx => ⟨rfl, ?_⟩
    · rw [hes', ← hdur]
      exact hacc
    · exact (hd x (hp.domain.symm.trans hx)).imp_left fun h => ⟨n, hn, h⟩

theorem messageAt {position : ℕ} {m : Message} (h : c.messageAt position = some m) : m.Justified g := by
  rw [Cluster.messageAt] at h
  split at h
  · rename_i heq
    cases h
    exact hc.history (e := .send m) (mem_of_getElem? heq)
  · cases h

theorem start (hS : S.Fixed C) (hR : C.Readable) {config : RaftNodeConfig σ}
    (hl : S.launch id = some config) (currentMillis : ℕ) : Does g c s
      ({ c with starts := update c.starts id (c.starts id + 1) }.settle id
        ((RaftNode.new S.machine config (c.disks id) currentMillis).map Except.toOption)
        s.cut) := by
  obtain ⟨_, _, hok, hg, hs, hdur, heff, hdom⟩ :=
    RaftNode.new_settled hS hR (hc.disk id) hl currentMillis
  rw [hok]
  refine .act hs ?_ le_rfl (fun p hp => update_of_ne hp _ _) fun d hd => ?_
  · rw [hdur, heff]
    exact .moves hg (hdur ▸ hs.holds.durable) .done
  · rw [hdom] at hd
    cases hd

theorem does (hS : S.Fixed C) (hR : C.Readable) (hk : s.action.KeepsMembership) :
    Does g c s (step S c s) := by
  have hcall : ∀ {id : Text} {body : RaftNode σ → Call (RaftNode σ)},
      (∀ n, n.Settled g id → RaftNode.Refined id g n (body n)) →
      Does g c s (c.call id s.cut body) :=
    fun h => hc.call le_rfl fun n hn => ⟨n.readDomain, fun _ => .inl, h n hn⟩
  rw [step]
  obtain ⟨action, _⟩ := s
  cases action with
  | start id currentMillis =>
    simp only
    split
    · exact .idle le_rfl
    · rename_i hl
      exact hc.start hS hR hl currentMillis
  | crash id => exact .stop id
  | startElection id currentMillis => exact hcall fun n hn => hn.startElection hS currentMillis
  | broadcastHeartbeat id currentMillis =>
    exact hcall fun n hn => hn.broadcastHeartbeat currentMillis
  | submitCommand id command currentMillis =>
    exact hcall fun n hn => hn.submitCommand hS hk currentMillis
  | beginRead id query currentMillis memory =>
    refine hc.call (Nat.le_succ _) fun n hn => ?_
    obtain ⟨d, hd, hrefi⟩ := hn.beginRead hS query currentMillis
      (if memory then some c.domains else none)
    refine ⟨d, fun x hx => (hd x hx).imp_right fun h => ?_, hrefi⟩
    refine ⟨?_, Nat.lt_succ_self _, query, currentMillis, memory, rfl⟩
    split at h
    · exact (some.inj h).symm
    · cases h
  | submitJointConfiguration | submitFinalizeConfiguration | submitJoin | beginJoining => exact hk.elim
  | deliver position keep echo currentMillis =>
    simp only
    split
    · exact .idle le_rfl
    · rename_i hm
      exact hcall fun n hn => hn.handle hS hR (hc.messageAt hm) rfl keep echo currentMillis

end Refines

theorem run_of_getElem? {steps : List Step} {k : ℕ} {s : Step} (hs : steps[k]? = some s) :
    run S (steps.take (k + 1)) = step S (run S (steps.take k)) s := by
  rw [take_add_one, hs, run, run, foldl_append]
  rfl

/-- Every state of a run has a shadow, and later states have later shadows. -/
theorem exists_shadows (hS : S.Fixed C) (hR : C.Readable) {steps : List Step}
    (hk : ∀ s ∈ steps, s.action.KeepsMembership) : ∃ shadows : ℕ → Shadow S C,
      (∀ k, (run S (steps.take k)).Refines (shadows k)) ∧
      ∀ j k, j ≤ k → (shadows j).Later (shadows k) := by
  induction steps using reverseRecOn with
  | nil =>
    refine ⟨fun _ => Shadow.initial S C, fun k => ?_, fun _ _ _ => .refl _⟩
    rw [take_nil]
    exact refines_initial
  | append_singleton steps s ih =>
    obtain ⟨shadows, href, hlat⟩ := ih fun s' hs' => hk s' (mem_append_left _ hs')
    have hlast := href steps.length
    rw [take_length] at hlast
    obtain ⟨g', href', hlat'⟩ := hlast.of_does (hlast.does hS hR (hk s (by simp)))
    refine ⟨fun k => if k ≤ steps.length then shadows k else g', fun k => ?_, fun j k hjk => ?_⟩
    · simp only
      split
      · rename_i hle
        rw [take_append_of_le_length hle]
        exact href k
      · rw [take_of_length_le (by rw [length_append]; simp; omega), run, foldl_append]
        exact href'
    · simp only
      split
      · split
        · exact hlat j k hjk
        · rename_i hj _
          exact (hlat j steps.length hj).trans hlat'
      · rw [if_neg (by omega)]
        exact .refl g'

end Cluster

end Charlotte.Graft
