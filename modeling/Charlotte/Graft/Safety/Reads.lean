import Charlotte.Graft.Safety.Commitment

/-!
# Linearizable reads

A read is admitted with a fence: an entry of its own at the end of the leader's
log. It is answered once the fence is committed in the same term, by the process
that admitted it. What any node had committed before the read was admitted then
lies below the fence, because a leader of a later term would have kept the fence
from being committed.
-/

namespace Charlotte.Graft

open Lib Lib.ReplicatedLog List Option Function Graft.Action

variable {σ : Type} {S : Setting σ} {C : ClusterConfiguration} {g g' : Shadow S C}

/-! ## Read domains -/

namespace Cluster

variable {c c' : Cluster σ} {s : Step} {p q : Text} {d : ℕ}

/-- The process of a node has a read domain. -/
def HoldsDomain (c : Cluster σ) (p : Text) (d : ℕ) : Prop :=
  ∃ n, c.nodes p = some n ∧ n.readDomain = some d

/-- Domains are allocated once, and no two processes share one. -/
structure DomainsOwned (c : Cluster σ) : Prop where
  lt : ∀ {p d}, c.HoldsDomain p d → d < c.domains
  unique : ∀ {p q d}, c.HoldsDomain p d → c.HoldsDomain q d → p = q

theorem settle_frame (c : Cluster σ) (id : Text) (n : RaftNode σ) (cut : Option ℕ) :
    (c.settle id (.ok (some n)) cut).starts = c.starts ∧
      (c.settle id (.ok (some n)) cut).domains = c.domains ∧
      ∀ p, p ≠ id → (c.settle id (.ok (some n)) cut).nodes p = c.nodes p := by
  have hset : ∀ es node, ((c.observe id es).setNode id node).starts = c.starts ∧
      ((c.observe id es).setNode id node).domains = c.domains ∧
      ∀ p, p ≠ id → ((c.observe id es).setNode id node).nodes p = c.nodes p :=
    fun es node => ⟨rfl, rfl, fun p hp => update_of_ne hp _ _⟩
  cases cut with
  | none | some => exact hset _ _

/-- Every attempt to read allocates a domain. -/
theorem step_beginRead_domains (c : Cluster σ) (id : Text) (query : Bytes) (currentMillis : ℕ)
    (memory : Bool) (cut : Option ℕ) :
    (step S c ⟨.beginRead id query currentMillis memory, cut⟩).domains = c.domains + 1 := by
  have hsettle : ∀ (c : Cluster σ) (call : Call (Option (RaftNode σ))),
      (c.settle id call cut).domains = c.domains := by
    intro c call
    cases cut with
    | none => rcases call with effects | ⟨_ | n⟩ <;> rfl
    | some => rfl
  simp only [step, call]
  split
  · rfl
  · exact hsettle _ _

theorem settle_self {id : Text} {n n' : RaftNode σ} {cut : Option ℕ}
    (h : (c.settle id (.ok (some n)) cut).nodes id = some n') : n'.readDomain = n.readDomain := by
  cases cut with
  | none =>
    simp only [settle, setNode, observe, update_self] at h
    rw [← some.inj h]
  | some =>
    simp only [settle, setNode, observe, update_self] at h
    cases h

namespace Does

theorem domains_le (h : Does g c s c') : c.domains ≤ c'.domains := by
  cases h with
  | idle hle => exact hle
  | stop => exact le_rfl
  | act hn ha hle =>
    rw [(settle_frame _ _ _ _).2.1]
    exact hle

/-- A process keeps its domain, or gets the next one by beginning a read. -/
theorem holdsDomain (h : Does g c s c') (hd : c'.HoldsDomain p d) :
    c'.starts p = c.starts p ∧ (c.HoldsDomain p d ∨
      d = c.domains ∧ c.domains < c'.domains ∧ ∃ query currentMillis memory,
        s.action = .beginRead p query currentMillis memory) := by
  cases h with
  | idle => exact ⟨rfl, .inl hd⟩
  | stop id =>
    obtain ⟨n, hn, hd⟩ := hd
    simp only [setNode, update_apply] at hn
    split_ifs at hn
    exact ⟨rfl, .inl ⟨n, hn, hd⟩⟩
  | @act id n g' starts domains hn ha hle hsts hdoma =>
    obtain ⟨n', hn', hd⟩ := hd
    obtain ⟨hst, hdom, hns⟩ := settle_frame
      { c with starts, domains } id n s.cut
    rw [hst, hdom]
    by_cases hp : p = id
    · subst hp
      rw [settle_self hn'] at hd
      obtain ⟨hs, hcase⟩ := hdoma d hd
      exact ⟨hs, hcase⟩
    · rw [hns p hp] at hn'
      exact ⟨hsts p hp, .inl ⟨n', hn', hd⟩⟩

theorem domainsOwned (h : Does g c s c') (hc : c.DomainsOwned) : c'.DomainsOwned where
  lt hd := by
    rcases (h.holdsDomain hd).2 with hold | ⟨heq, hlt, -⟩
    · exact (hc.lt hold).trans_le h.domains_le
    · exact heq ▸ hlt
  unique hp hq := by
    rcases (h.holdsDomain hp).2 with hp | ⟨hdp, -, _, _, _, hp⟩ <;>
      rcases (h.holdsDomain hq).2 with hq | ⟨_, -, _, _, _, hq⟩
    · exact hc.unique hp hq
    · exact absurd (hc.lt hp) (by omega)
    · exact absurd (hc.lt hq) (by omega)
    · rw [hp] at hq
      exact (beginRead.inj hq).1

end Does

section Run

variable {steps : List Step} (hS : S.Fixed C) (hR : C.Readable)
  (hk : ∀ s ∈ steps, s.action.KeepsMembership)
include hS hR hk

/-- Between two moments of a run lies a step, or the run is over. -/
theorem run_succ {k : ℕ} (hc : (run S (steps.take k)).Refines g) :
    (steps[k]? = none ∧ run S (steps.take (k + 1)) = run S (steps.take k)) ∨ ∃ s, steps[k]? = some s ∧
        Does g (run S (steps.take k)) s (run S (steps.take (k + 1))) := by
  cases hs : steps[k]? with
  | none =>
    refine .inl ⟨rfl, ?_⟩
    rw [take_add_one, hs, toList_none, append_nil]
  | some s =>
    refine .inr ⟨s, rfl, ?_⟩
    rw [run_of_getElem? hs]
    exact hc.does hS hR (hk s (mem_of_getElem? hs))

theorem domainsOwned_run (k : ℕ) : (run S (steps.take k)).DomainsOwned := by
  obtain ⟨_, href, -⟩ := exists_shadows hS hR hk
  induction k with
  | zero => exact ⟨fun ⟨_, h, _⟩ => (nomatch h), fun ⟨_, h, _⟩ => nomatch h⟩
  | succ k ih =>
    rcases run_succ hS hR hk (href k) with ⟨-, heq⟩ | ⟨s, -, hdoes⟩
    · rw [heq]
      exact ih
    · exact hdoes.domainsOwned ih

theorem domains_mono {j k : ℕ} (hjk : j ≤ k) :
    (run S (steps.take j)).domains ≤ (run S (steps.take k)).domains := by
  obtain ⟨_, href, -⟩ := exists_shadows hS hR hk
  induction k, hjk using Nat.le_induction with
  | base => exact le_rfl
  | succ k hjk ih =>
    rcases run_succ hS hR hk (href k) with ⟨-, heq⟩ | ⟨s, -, hdoes⟩
    · rw [heq]
      exact ih
    · exact ih.trans hdoes.domains_le

/-- A domain that was allocated by a moment of the run is held later only by the
process that held it then. -/
theorem holdsDomain_earlier {j k : ℕ} (hjk : j ≤ k)
    (hd : (run S (steps.take k)).HoldsDomain p d) (hlt : d < (run S (steps.take j)).domains) :
    (run S (steps.take k)).starts p = (run S (steps.take j)).starts p ∧
      (run S (steps.take j)).HoldsDomain p d := by
  obtain ⟨_, href, -⟩ := exists_shadows hS hR hk
  induction k, hjk using Nat.le_induction with
  | base => exact ⟨rfl, hd⟩
  | succ k hjk ih =>
    rcases run_succ hS hR hk (href k) with ⟨-, heq⟩ | ⟨s, -, hdoes⟩
    · rw [heq] at hd ⊢
      exact ih hd
    · have hmono := domains_mono hS hR hk hjk
      obtain ⟨hsts, hold | ⟨_, -⟩⟩ := hdoes.holdsDomain hd
      · rw [hsts]
        exact ih hold
      · omega

end Run

end Cluster

open Cluster

/-! ## Fences -/

namespace RaftNode

variable {n : RaftNode σ} {q : Text} {M : StateMachine σ} {read : PendingRead}

theorem beginRead_ok {query : Bytes} {currentMillis : ℕ} {domain : Option ℕ}
    (h : (n.beginRead M query currentMillis domain).map Prod.snd = .ok (.ok read)) :
    n.state = .leader ∧ n.readDomain.or domain = some read.domain ∧
      read.term = n.currentTerm ∧ read.index = n.logStore.lastIndex + 1 ∧
      read.membershipEpoch = n.membershipEpoch := by
  obtain ⟨⟨_, _⟩, h, rfl⟩ := Call.map_eq_ok.mp h
  rw [beginRead] at h
  split at h
  · cases h
  rename_i hl
  rw [not_or, not_not] at hl
  split at h
  · cases h
  split at h
  · cases h
  · rename_i hor
    obtain ⟨_, -, hn₁⟩ := Call.bind_eq_ok.mp h
    cases hn₁
    exact ⟨hl.1, hor, rfl, rfl, rfl⟩

theorem handleClientQuery_ok {answer : Bytes} (h : n.handleClientQuery M read = .ok answer) :
    n.state = .leader ∧ n.currentTerm = read.term ∧ n.membershipEpoch = read.membershipEpoch ∧
      n.readDomain = some read.domain ∧ read.index ≤ n.commitIndex ∧
      n.lastApplied = n.commitIndex ∧ n.logStore.termAt n.commitIndex = read.term := by
  have hrdy : n.readReady read = .ok true := by
    rw [handleClientQuery] at h
    split at h
    · cases h
    · cases h
    · assumption
  rw [readReady] at hrdy
  split at hrdy
  · cases hrdy
  rename_i hl
  split at hrdy
  · cases hrdy
  · rename_i hd
    simp only [not_or, not_not] at hl hd
    simp only [Except.ok.injEq, Bool.and_eq_true, decide_eq_true_eq] at hrdy
    exact ⟨hl.1, hl.2.1, hd.1, hd.2, hrdy.1.1, hrdy.1.2, hrdy.2⟩

/-- A leader whose last committed entry is of its own term has had it chosen. -/
theorem Matches.chosen_commit (hn : n.Matches g q) (hpos : 0 < n.commitIndex)
    (ht : n.logStore.termAt n.commitIndex = n.currentTerm) :
    ∃ i, n.commitIndex ≤ i ∧ Chosen C.quorums g.world.hist (g.world.replica q).term i := by
  have hle := hn.commit_le
  have hlen := (g.sound.replica q).commit_le
  rw [hn.log.termAt (hn.snapshot_le.trans hn.applied_le), hn.term, termAtIndex,
    if_neg (by omega), getElem?_eq_getElem (by omega)] at ht
  have he : ((g.world.replica q).log.take (g.world.replica q).commit)[n.commitIndex - 1]? =
      some ((g.world.replica q).log[n.commitIndex - 1]) := by
    rw [getElem?_take_of_lt (by omega), getElem?_eq_getElem (by omega)]
  rcases (g.sound.replica q).commit_decided with hnil | ⟨T, i, hT, hc, hp⟩
  · rw [hnil] at he
    cases he
  · have hmem := mem_of_getElem? (prefix_getElem? (hp.trans (List.take_prefix _ _)) he)
    obtain ⟨w, hw⟩ := isSome_iff_exists.mp hc.1
    have hge : (g.world.replica q).term ≤ T := ht.ge.trans (g.sound.hist.lead_term_le hw _ hmem)
    obtain rfl : T = (g.world.replica q).term := le_antisymm hT hge
    have hleng := hp.length_le
    rw [length_take_of_le hlen, length_take_of_le hc.2.2.1] at hleng
    exact ⟨i, hle.trans hleng, hc⟩

end RaftNode

namespace Cluster

variable {c c' : Cluster σ} {q : Text}

/-- What was committed when a leader's log ended before the fence is in its log
when the fence is committed. -/
theorem Refines.fence (hc : c.Refines g) (hc' : c'.Refines g') (hlat : g.Later g')
    {n n' : RaftNode σ} (hn : c.nodes q = some n) (hn' : c'.nodes q = some n')
    (hl : n.state = .leader) (ht : n'.currentTerm = n.currentTerm)
    (hi : n.logStore.lastIndex < n'.commitIndex)
    (hterm : n'.logStore.termAt n'.commitIndex = n'.currentTerm) :
    g.committed <+: g.world.hist.lead n.currentTerm ∧ g.committed.length < n'.commitIndex := by
  have hm := (hc.node hn).1.holds
  have hm' := (hc'.node hn').1.holds
  have hw := hm.winner hl
  have hlead := hm.lead hl
  rw [← hm.term] at hw hlead
  obtain ⟨_, _, hchosen⟩ := hm'.chosen_commit (Nat.zero_lt_of_lt hi) hterm
  rw [← hm'.term, ht] at hchosen
  obtain ⟨T, hd⟩ := g.decided
  have hlen : (g.world.hist.lead n.currentTerm).length = n.logStore.lastIndex := by
    rw [hlead, hm.log.lastIndex]
  have hpre := hlat.world.decided_prefix_lead g.sound (isSome_of_eq_some hw) hchosen (by omega) hd
  refine ⟨hpre, ?_⟩
  have := hpre.length_le
  omega

/-- A read is answered by the process that admitted it, in the same term, domain
and membership, from a state that has applied all that was committed anywhere
before it was admitted. -/
theorem linearizable_reads (hS : S.Fixed C) (hR : C.Readable) {steps : List Step}
    (hk : ∀ s ∈ steps, s.action.KeepsMembership) {j : ℕ} {id : Text} {query : Bytes}
    {currentMillis : ℕ} {memory : Bool} {cut : Option ℕ}
    (hstep : steps[j]? = some ⟨.beginRead id query currentMillis memory, cut⟩)
    {n₀ : RaftNode σ} {read : PendingRead} (hn₀ : (run S (steps.take j)).nodes id = some n₀)
    (hread : (n₀.beginRead S.machine query currentMillis
      (if memory then some (run S (steps.take j)).domains else none)).map Prod.snd = .ok (.ok read))
    {k : ℕ} (hjk : j < k) {p : Text} {n : RaftNode σ} {answer : Bytes}
    (hn : (run S (steps.take k)).nodes p = some n)
    (hanswer : n.handleClientQuery S.machine read = .ok answer) :
    (p = id ∧ (run S (steps.take k)).starts id = (run S (steps.take j)).starts id ∧
      n.currentTerm = n₀.currentTerm ∧ n.readDomain = some read.domain ∧
      n.membershipEpoch = n₀.membershipEpoch) ∧
    ∃ log, log.length = n.lastApplied ∧ (∀ s, n.stateMachine = some s → S.Replays log s) ∧
      ∀ i ≤ j, ∀ q index, (run S (steps.take i)).HasCommitted q index →
        ∃ e, ((run S (steps.take i)).disks q).logStore.Covers S C index e ∧
          log[index - 1]? = some e := by
  obtain ⟨shadows, href, hlat⟩ := exists_shadows hS hR hk
  obtain ⟨hl₀, hdom₀, hterm₀, _, hepoch₀⟩ := RaftNode.beginRead_ok hread
  obtain ⟨hl, hterm, hepoch, hdom, _, _, hfence⟩ := RaftNode.handleClientQuery_ok hanswer
  have hown := domainsOwned_run hS hR hk
  -- the domain of the read leads back to the process that admitted it
  have hsame : p = id ∧ (run S (steps.take k)).starts p = (run S (steps.take j)).starts p := by
    rcases or_eq_some_iff.mp hdom₀ with hold | ⟨-, hnew⟩
    · have hid : (run S (steps.take j)).HoldsDomain id read.domain := ⟨n₀, hn₀, hold⟩
      obtain ⟨hsts, hp⟩ := holdsDomain_earlier hS hR hk hjk.le ⟨n, hn, hdom⟩ ((hown j).lt hid)
      exact ⟨(hown j).unique hp hid, hsts⟩
    · have hfr : read.domain = (run S (steps.take j)).domains := by
        split at hnew
        · exact (some.inj hnew).symm
        · cases hnew
      rcases run_succ hS hR hk (href j) with ⟨hnone, -⟩ | ⟨s, hs, hdoes⟩
      · rw [hstep] at hnone
        cases hnone
      · cases hstep.symm.trans hs
        have hlt : read.domain < (run S (steps.take (j + 1))).domains := by
          rw [run_of_getElem? hstep, step_beginRead_domains, hfr]
          exact Nat.lt_succ_self _
        obtain ⟨hsts, hp⟩ := holdsDomain_earlier hS hR hk hjk ⟨n, hn, hdom⟩ hlt
        obtain ⟨hsts', hp' | ⟨-, -, _, _, _, haction⟩⟩ := hdoes.holdsDomain hp
        · exact absurd ((hown j).lt hp') (by omega)
        · exact ⟨(beginRead.inj haction).1.symm, hsts.trans hsts'⟩
  obtain ⟨rfl, hsts⟩ := hsame
  have ht : n.currentTerm = n₀.currentTerm := hterm.trans hterm₀
  refine ⟨⟨rfl, hsts, ht, hdom, hepoch.trans hepoch₀⟩, ?_⟩
  have hm := ((href k).node hn).1.holds
  have hcm := hm.commit_le.trans ((shadows k).sound.replica p).commit_le
  refine ⟨((shadows k).world.replica p).log.take n.lastApplied,
    length_take_of_le (by omega), hm.machine, fun i hi q index hq => ?_⟩
  obtain ⟨hpre, _⟩ := (href j).fence (href k) (hlat j k hjk.le) hn₀ hn hl₀ ht (by omega)
    (hfence.trans hterm.symm)
  obtain ⟨hpos, hle⟩ := (href i).committed hq
  obtain ⟨e, he⟩ := Shadow.exists_committed hpos hle
  refine ⟨e, (href i).disk_covers (.refl _) hpos hle he, ?_⟩
  have hej := prefix_getElem? (hlat i j hi).committed he
  have hlt := (List.getElem?_eq_some_iff.mp hej).1
  rw [getElem?_take_of_lt (by omega), ← hm.lead hl, ← hm.term, ht]
  exact prefix_getElem? ((hlat j k hjk.le).world.grows.lead ((href j).winner hn₀ hl₀))
    (prefix_getElem? hpre hej)

end Cluster

/-- A command is committed, and then a read with its fence. -/
def twoVotersRead : List Step :=
  twoVotersCommit ++ [(submitCommand (ascii "a") [7] 0).whole,
    (broadcastHeartbeat (ascii "a") 0).whole, deliverAt 19, deliverAt 21,
    (beginRead (ascii "a") [] 0 true).whole,
    (broadcastHeartbeat (ascii "a") 0).whole, deliverAt 25, deliverAt 29]

theorem linearizable_reads_twoVoters :
    ∃ n, (Cluster.run (recorderSetting twoVoters) twoVotersRead).nodes (ascii "a") = some n ∧
      n.handleClientQuery recorder ⟨0, 1, 3, 0, []⟩ = .ok [7] ∧ ∃ log, log.length = n.lastApplied ∧
        (∀ s, n.stateMachine = some s → (recorderSetting twoVoters).Replays log s) ∧
        ∃ e, log[1]? = some e := by
  have hk : ∀ s ∈ twoVotersRead, s.action.KeepsMembership := by decide
  have hstep : twoVotersRead[14]? = some ⟨.beginRead (ascii "a") [] 0 true, none⟩ := rfl
  obtain ⟨_, hn₀, hread⟩ := map_eq_some_iff.mp (show
    ((run (recorderSetting twoVoters) (twoVotersRead.take 14)).nodes (ascii "a")).map
      (fun n => (n.beginRead recorder [] 0 (some 0)).map Prod.snd) =
        some (.ok (.ok ⟨0, 1, 3, 0, []⟩)) by decide)
  obtain ⟨n, hn, hans⟩ := map_eq_some_iff.mp (show
    ((run (recorderSetting twoVoters) (twoVotersRead.take 18)).nodes (ascii "a")).map
      (fun n => n.handleClientQuery recorder ⟨0, 1, 3, 0, []⟩) = some (.ok [7]) by
        decide)
  have hdoma : (run (recorderSetting twoVoters) (twoVotersRead.take 14)).domains = 0 := by
    decide
  obtain ⟨-, log, hlen, hmac, hall⟩ := linearizable_reads
    (recorderSetting_fixed (C := twoVoters) rfl) (by decide) hk hstep hn₀
    (by rw [hdoma]; exact hread) (by decide) hn hans
  obtain ⟨e, -, he⟩ := hall 14 le_rfl (ascii "a") 2
    ⟨by decide, .inr ⟨⟨1, ascii "a", [7]⟩, by decide⟩⟩
  exact ⟨n, hn, hans, log, hlen, hmac, e, he⟩

/-- The new leader commits a command before the old one admits a read. -/
def staleRead : List Step :=
  learnersElection ++ [(submitCommand (ascii "b\x7d") [9] 0).whole,
    (broadcastHeartbeat (ascii "b\x7d") 0).whole, deliverAt 35, deliverAt 37,
    (beginRead (ascii "a") [] 0 true).whole]

/-- The old leader answers the read from a state without the command. -/
theorem stale_read_of_bracedLearners : (recorderSetting bracedLearners).Fixed bracedLearners ∧
      (∀ s ∈ staleRead, s.action.KeepsMembership) ∧
      staleRead[15]? = some ⟨.beginRead (ascii "a") [] 0 true, none⟩ ∧
      (ascii "b\x7d", .applied 4 ⟨2, ascii "b\x7d", [9]⟩) ∈
        (Cluster.run (recorderSetting bracedLearners) (staleRead.take 15)).history ∧
      ((Cluster.run (recorderSetting bracedLearners) (staleRead.take 15)).nodes
        (ascii "a")).map (fun n => (n.beginRead recorder [] 0 (some 0)).map Prod.snd) =
          some (.ok (.ok ⟨0, 1, 3, 0, []⟩)) ∧
      ((Cluster.run (recorderSetting bracedLearners) staleRead).nodes (ascii "a")).map
        (fun n => (n.stateMachine, n.handleClientQuery recorder ⟨0, 1, 3, 0, []⟩)) =
          some (some [7], .ok [7]) :=
  ⟨recorderSetting_fixed rfl, by decide, rfl, by decide +kernel⟩

end Charlotte.Graft
