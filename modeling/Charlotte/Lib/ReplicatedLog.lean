import Charlotte.Lib.QuorumSystem
import Charlotte.Lib.Prefix

/-!
# Leader-based log replication

The protocol in its own terms: replicas hold a term, a vote, a phase, a
complete log and the length of the prefix they know to be decided. The
history records what the safety argument refers to and no replica can see:
the ballots with the log the voter held, the bids with the log the candidate
held, the winner of each term with its electors, the log it was elected with
and the log it has built since, and the longest prefix of that log each
replica has confirmed.

## Implementation notes

Logs are never compacted here. An implementation that discards a prefix
refines this model by relating its retained suffix to the complete log.
-/

namespace Charlotte.Lib.ReplicatedLog

open List Option

variable {ν ε : Type*}

inductive Phase
  | follower
  | candidate
  | leader
  deriving DecidableEq

structure Replica (ν ε : Type*) where
  term : ℕ
  vote : Option ν
  phase : Phase
  log : List ε
  commit : ℕ

/-- What has happened so far, as far as the safety argument needs it. -/
structure History (ν ε : Type*) where
  ballot : ν → ℕ → Option (ν × List ε)
  bid : ℕ → ν → Option (List ε)
  winner : ℕ → Option ν
  electors : ℕ → Set ν
  base : ℕ → List ε
  lead : ℕ → List ε
  acked : ν → ℕ → ℕ

structure World (ν ε : Type*) where
  hist : History ν ε
  replica : ν → Replica ν ε

section Definitions

variable (Q : QuorumSystem ν) (termOf : ε → ℕ)

/-- The term of the last entry, zero for the empty log. -/
def lastTerm (l : List ε) : ℕ := (l.getLast?.map termOf).getD 0

/-- The voting rule: the candidate's log is at least as recent as the voter's. -/
def UpToDate (candidate voter : List ε) : Prop :=
  lastTerm termOf voter < lastTerm termOf candidate ∨
    lastTerm termOf voter = lastTerm termOf candidate ∧ voter.length ≤ candidate.length

/-- Every prefix ending in an entry of term `t` is a prefix of the log the
leader of term `t` has built. -/
def Anchored (h : History ν ε) (l : List ε) : Prop :=
  ∀ i e, l[i]? = some e → (h.winner (termOf e)).isSome ∧ l.take (i + 1) <+: h.lead (termOf e)

/-- A later winner, of a term up to `bound`, was elected without the first
`i` entries of the term-`T` leader. -/
def Overruled (h : History ν ε) (T i bound : ℕ) : Prop :=
  ∃ T', T < T' ∧ T' ≤ bound ∧ (h.winner T').isSome ∧ (h.base T').take i ≠ (h.lead T).take i

/-- A quorum has confirmed the first `i` entries of the term-`T` leader, the
last of which is an entry of that term. -/
def Chosen (h : History ν ε) (T i : ℕ) : Prop :=
  (h.winner T).isSome ∧ (h.base T).length < i ∧ i ≤ (h.lead T).length ∧
    Q.IsQuorum {q | i ≤ h.acked q T}

/-- The list is a prefix of what some leader of a term up to `T` has had chosen. -/
def Decided (h : History ν ε) (T : ℕ) (p : List ε) : Prop :=
  p = [] ∨ ∃ T₀ i, T₀ ≤ T ∧ Chosen Q h T₀ i ∧ p <+: (h.lead T₀).take i

/-- Facts that concern the history alone. -/
structure History.Sound (h : History ν ε) : Prop where
  ballot_bid : ∀ {q T c l}, h.ballot q T = some (c, l) →
    ∃ cl, h.bid T c = some cl ∧ UpToDate termOf cl l
  ballot_anchored : ∀ {q T c l}, h.ballot q T = some (c, l) → Anchored termOf h l
  bid_anchored : ∀ {T c l}, h.bid T c = some l → Anchored termOf h l
  bid_below : ∀ {T c l}, h.bid T c = some l → ∀ e ∈ l, termOf e < T
  winner_bid : ∀ {T c}, h.winner T = some c → h.bid T c = some (h.base T)
  winner_quorum : ∀ {T c}, h.winner T = some c → Q.IsQuorum (h.electors T)
  winner_ballot : ∀ {T c q}, h.winner T = some c → q ∈ h.electors T →
    ∃ l, h.ballot q T = some (c, l)
  lead_own : ∀ {T c}, h.winner T = some c →
    ∃ own, h.lead T = h.base T ++ own ∧ ∀ e ∈ own, termOf e = T
  acked_lead : ∀ {q T}, 0 < h.acked q T → (h.winner T).isSome ∧ h.acked q T ≤ (h.lead T).length
  ballot_kept : ∀ {q T' c l}, h.ballot q T' = some (c, l) →
    (h.winner T' = none ∨ q ∈ h.electors T') →
    ∀ T i, T < T' → (h.base T).length < i → i ≤ h.acked q T →
      l.take i = (h.lead T).take i ∨ Overruled h T i (T' - 1)

/-- Facts that concern one replica, given the history. -/
structure Replica.Sound (h : History ν ε) (q : ν) (r : Replica ν ε) : Prop where
  ballot_term : ∀ {T b}, h.ballot q T = some b → T ≤ r.term
  ballot_vote : ∀ {c l}, h.ballot q r.term = some (c, l) → r.vote = some c
  bid_term : ∀ {T l}, h.bid T q = some l → T ≤ r.term
  log_anchored : Anchored termOf h r.log
  log_term : ∀ e ∈ r.log, termOf e ≤ r.term
  candidate : r.phase = .candidate → h.bid r.term q = some r.log ∧ h.winner r.term ≠ some q
  leader : r.phase = .leader → h.winner r.term = some q ∧ h.lead r.term = r.log
  acked_term : ∀ {T}, 0 < h.acked q T → T ≤ r.term
  acked_log : r.log.take (h.acked q r.term) = (h.lead r.term).take (h.acked q r.term)
  acked_kept : ∀ T i, (h.base T).length < i → i ≤ h.acked q T →
    r.log.take i = (h.lead T).take i ∨ Overruled h T i r.term
  commit_le : r.commit ≤ r.log.length
  commit_decided : Decided Q h r.term (r.log.take r.commit)

/-- The invariant of the protocol. -/
structure World.Sound (w : World ν ε) : Prop where
  hist : w.hist.Sound Q termOf
  replica : ∀ q, (w.replica q).Sound Q termOf w.hist q

end Definitions

/-- Nothing has happened, and every replica is an empty follower. -/
def World.initial : World ν ε where
  hist := ⟨fun _ _ => none, fun _ _ => none, fun _ => none, fun _ => ∅, fun _ => [],
    fun _ => [], fun _ _ => 0⟩
  replica := fun _ => ⟨0, none, .follower, [], 0⟩

theorem World.sound_initial (Q : QuorumSystem ν) (termOf : ε → ℕ) :
    (World.initial : World ν ε).Sound Q termOf where
  hist :=
    { ballot_bid := nofun
      ballot_anchored := nofun
      bid_anchored := nofun
      bid_below := nofun
      winner_bid := nofun
      winner_quorum := nofun
      winner_ballot := nofun
      lead_own := nofun
      acked_lead := nofun
      ballot_kept := nofun }
  replica := fun _ =>
    { ballot_term := nofun
      ballot_vote := nofun
      bid_term := nofun
      log_anchored := nofun
      log_term := nofun
      candidate := nofun
      leader := nofun
      acked_term := nofun
      acked_log := rfl
      acked_kept := fun _ _ hb hi => absurd hi (not_le.mpr (Nat.zero_lt_of_lt hb))
      commit_le := le_rfl
      commit_decided := .inl rfl }

/-! ## Growth of the history -/

/-- Nothing that happened is undone, and a leader's log only gets longer. -/
structure History.Grows (h h' : History ν ε) : Prop where
  ballot : ∀ {q T b}, h.ballot q T = some b → h'.ballot q T = some b
  bid : ∀ {T c l}, h.bid T c = some l → h'.bid T c = some l
  winner : ∀ {T c}, h.winner T = some c → h'.winner T = some c
  electors : ∀ {T c}, h.winner T = some c → h'.electors T = h.electors T
  base : ∀ {T c}, h.winner T = some c → h'.base T = h.base T
  lead : ∀ {T c}, h.winner T = some c → h.lead T <+: h'.lead T
  acked : ∀ q T, h.acked q T ≤ h'.acked q T

namespace History.Grows

variable {h h' h'' : History ν ε}

theorem refl (h : History ν ε) : h.Grows h :=
  ⟨id, id, id, fun _ => rfl, fun _ => rfl, fun _ => prefix_refl _, fun _ _ => le_rfl⟩

theorem trans (g : h.Grows h') (g' : h'.Grows h'') : h.Grows h'' where
  ballot hb := g'.ballot (g.ballot hb)
  bid hb := g'.bid (g.bid hb)
  winner hw := g'.winner (g.winner hw)
  electors hw := (g'.electors (g.winner hw)).trans (g.electors hw)
  base hw := (g'.base (g.winner hw)).trans (g.base hw)
  lead hw := (g.lead hw).trans (g'.lead (g.winner hw))
  acked q T := (g.acked q T).trans (g'.acked q T)

variable {T : ℕ}

theorem winner_isSome (g : h.Grows h') (hw : (h.winner T).isSome) : (h'.winner T).isSome := by
  obtain ⟨c, hc⟩ := isSome_iff_exists.mp hw
  rw [g.winner hc]
  rfl

variable {i : ℕ} {Q : QuorumSystem ν}

/-- A prefix within the old leader log is the same prefix of the new one. -/
theorem lead_take (g : h.Grows h') (hw : (h.winner T).isSome)
    (hi : i ≤ (h.lead T).length) : (h'.lead T).take i = (h.lead T).take i := by
  obtain ⟨c, hc⟩ := isSome_iff_exists.mp hw
  obtain ⟨_, hown⟩ := g.lead hc
  rw [← hown, take_append_of_le_length hi]

theorem anchored {termOf : ε → ℕ} (g : h.Grows h') {l : List ε}
    (ha : Anchored termOf h l) : Anchored termOf h' l := by
  intro i e he
  obtain ⟨hw, hp⟩ := ha i e he
  obtain ⟨c, hc⟩ := isSome_iff_exists.mp hw
  exact ⟨g.winner_isSome hw, hp.trans (g.lead hc)⟩

theorem overruled (g : h.Grows h') {b b' : ℕ} (hw : (h.winner T).isSome)
    (hi : i ≤ (h.lead T).length) (hb : b ≤ b') (ho : Overruled h T i b) : Overruled h' T i b' := by
  obtain ⟨T', hT, hT', hw', hne⟩ := ho
  obtain ⟨c, hc⟩ := isSome_iff_exists.mp hw'
  refine ⟨T', hT, hT'.trans hb, g.winner_isSome hw', ?_⟩
  rw [g.base hc, g.lead_take hw hi]
  exact hne

theorem chosen (g : h.Grows h') (hc : Chosen Q h T i) : Chosen Q h' T i := by
  obtain ⟨hw, hb, hl, hq⟩ := hc
  obtain ⟨c, hc⟩ := isSome_iff_exists.mp hw
  refine ⟨g.winner_isSome hw, ?_, hl.trans (g.lead hc).length_le, ?_⟩
  · rw [g.base hc]
    exact hb
  · exact Q.mono (fun q hq' => le_trans hq' (g.acked q T)) hq

theorem decided (g : h.Grows h') {T' : ℕ} (hT : T ≤ T')
    {p : List ε} (hd : Decided Q h T p) : Decided Q h' T' p := by
  rcases hd with rfl | ⟨T₀, i, hT₀, hc, hp⟩
  · exact .inl rfl
  · refine .inr ⟨T₀, i, hT₀.trans hT, g.chosen hc, ?_⟩
    rw [g.lead_take hc.1 hc.2.2.1]
    exact hp

end History.Grows

/-! ## Leader completeness -/

section Completeness

variable {Q : QuorumSystem ν} {termOf : ε → ℕ} {h : History ν ε}

theorem Anchored.take {l : List ε} (ha : Anchored termOf h l) (k : ℕ) :
    Anchored termOf h (l.take k) := by
  intro i e he
  rw [getElem?_take] at he
  split at he
  · rw [take_take, Nat.min_eq_left (by omega)]
    exact ha i e he
  · cases he

/-- Two anchored logs with entries of one term at a position agree up to it. -/
theorem Anchored.take_eq {l l' : List ε} (ha : Anchored termOf h l)
    (ha' : Anchored termOf h l') {i : ℕ} {e e' : ε} (he : l[i]? = some e)
    (he' : l'[i]? = some e') (ht : termOf e = termOf e') : l.take (i + 1) = l'.take (i + 1) := by
  have hp := (ha i e he).2
  have hp' := (ha' i e' he').2
  rw [← ht] at hp'
  have hlen : (l.take (i + 1)).length = (l'.take (i + 1)).length := by
    have := (List.getElem?_eq_some_iff.mp he).1
    have := (List.getElem?_eq_some_iff.mp he').1
    simp only [length_take]
    omega
  exact (prefix_of_prefix_length_le hp hp' hlen.le).eq_of_length hlen

theorem Decided.of_prefix {T : ℕ} {p p' : List ε} (hd : Decided Q h T p') (hp : p <+: p') :
    Decided Q h T p := by
  rcases hd with rfl | ⟨T₀, i, hT₀, hc, hp'⟩
  · exact .inl (prefix_nil.mp hp)
  · exact .inr ⟨T₀, i, hT₀, hc, hp.trans hp'⟩

namespace History.Sound

variable (hs : h.Sound Q termOf)
include hs

variable {T : ℕ} {c : ν}

theorem lead_term_le (hw : h.winner T = some c) : ∀ e ∈ h.lead T, termOf e ≤ T := by
  intro e he
  obtain ⟨_, hlead, hown⟩ := hs.lead_own hw
  rw [hlead, mem_append] at he
  rcases he with he | he
  · exact (hs.bid_below (hs.winner_bid hw) e he).le
  · exact (hown e he).le

theorem base_prefix_lead (hw : h.winner T = some c) : h.base T <+: h.lead T := by
  obtain ⟨own, hlead, _⟩ := hs.lead_own hw
  exact ⟨own, hlead.symm⟩

variable {i : ℕ}

/-- An entry of term `T` in the log of its leader stands beyond the elected log. -/
theorem base_length_le {e : ε} (hw : (h.winner T).isSome)
    (he : (h.lead T)[i]? = some e) (ht : termOf e = T) : (h.base T).length ≤ i := by
  obtain ⟨c, hc⟩ := isSome_iff_exists.mp hw
  by_contra hlt
  obtain ⟨_, hlead, _⟩ := hs.lead_own hc
  rw [hlead, getElem?_append_left (by omega)] at he
  have hbel := hs.bid_below (hs.winner_bid hc) e (mem_of_getElem? he)
  omega

/-- The entries a leader has added itself carry its term. -/
theorem own_term {e : ε} (hw : (h.winner T).isSome)
    (he : (h.lead T)[i]? = some e) (hi : (h.base T).length ≤ i) : termOf e = T := by
  obtain ⟨c, hc⟩ := isSome_iff_exists.mp hw
  obtain ⟨_, hlead, hown⟩ := hs.lead_own hc
  rw [hlead, getElem?_append_right hi] at he
  exact hown e (mem_of_getElem? he)

theorem lead_anchored (hw : h.winner T = some c) : Anchored termOf h (h.lead T) := by
  intro i e he
  by_cases hi : i < (h.base T).length
  · obtain ⟨_, hlead, _⟩ := hs.lead_own hw
    rw [hlead, getElem?_append_left hi] at he
    rw [hlead, take_append_of_le_length (by omega)]
    exact hs.bid_anchored (hs.winner_bid hw) i e he
  · have ht := hs.own_term (isSome_of_eq_some hw) he (by omega)
    rw [ht]
    exact ⟨isSome_of_eq_some hw, take_prefix _ _⟩

/-- A non-empty anchored log is a prefix of the log of its last entry's
leader, and reaches into that leader's own entries. -/
theorem anchored_last {l : List ε} (ha : Anchored termOf h l) (hl : l ≠ []) :
    (h.winner (lastTerm termOf l)).isSome ∧ l <+: h.lead (lastTerm termOf l) ∧
      (h.base (lastTerm termOf l)).length < l.length := by
  have hlen : 0 < l.length := length_pos_iff.mpr hl
  have hlast : l[l.length - 1]? = some (l.getLast hl) := by
    rw [← getLast?_eq_getElem?, getLast?_eq_some_getLast hl]
  have hterm : lastTerm termOf l = termOf (l.getLast hl) := by
    simp [lastTerm, getLast?_eq_some_getLast hl]
  obtain ⟨hw, hp⟩ := ha _ _ hlast
  have htake : l.take (l.length - 1 + 1) = l := by
    rw [Nat.sub_add_cancel hlen, take_length]
  rw [htake] at hp
  rw [hterm]
  refine ⟨hw, hp, ?_⟩
  have hi := hs.base_length_le hw (prefix_getElem? hp hlast) rfl
  omega

variable {T' : ℕ}

/-- The voting rule carries a chosen prefix from the voter's log to the
candidate's, provided the leaders of the terms in between have it. -/
theorem upToDate_carries {cl l : List ε} (hw : (h.winner T).isSome)
    (hb : (h.base T).length < i) (hi : i ≤ (h.lead T).length)
    (hcl : Anchored termOf h cl) (hl : Anchored termOf h l)
    (hbel : ∀ e ∈ cl, termOf e < T') (hu : UpToDate termOf cl l)
    (hkeep : l.take i = (h.lead T).take i) (hmid : ∀ t, T < t → t < T' → (h.winner t).isSome →
      (h.base t).take i = (h.lead T).take i) : cl.take i = (h.lead T).take i := by
  have hlen : i ≤ l.length := le_length_of_take_eq hkeep hi
  have hne : l ≠ [] := by
    rintro rfl
    simp at hlen
    omega
  obtain ⟨hwl, hpl, _⟩ := hs.anchored_last hl hne
  -- the chosen entry sits in the voter's log, so the voter's last term is not smaller
  have hTl : T ≤ lastTerm termOf l := by
    have hlt : i - 1 < (h.lead T).length := by omega
    have he : (h.lead T)[i - 1]? = some ((h.lead T)[i - 1]) := getElem?_eq_getElem hlt
    have hle : l[i - 1]? = some ((h.lead T)[i - 1]) := by
      rw [← getElem?_take_of_lt (show i - 1 < i by omega), hkeep,
        getElem?_take_of_lt (by omega), he]
    have ht := hs.own_term hw he (by omega)
    obtain ⟨c, hc⟩ := isSome_iff_exists.mp hwl
    have hmem := mem_of_getElem? (prefix_getElem? hpl hle)
    have hterm := hs.lead_term_le hc _ hmem
    omega
  rcases hu with hlt | ⟨heq, hle⟩
  · have hne' : cl ≠ [] := by
      rintro rfl
      simp [lastTerm] at hlt
    obtain ⟨hwc, hpc, _⟩ := hs.anchored_last hcl hne'
    have hlast : lastTerm termOf cl < T' := by
      have hmem := getLast_mem hne'
      have := hbel _ hmem
      simpa [lastTerm, getLast?_eq_some_getLast hne'] using this
    have hbase := hmid _ (by omega) hlast hwc
    have hlenb := le_length_of_take_eq hbase hi
    obtain ⟨c, hc⟩ := isSome_iff_exists.mp hwc
    rw [← hbase, ← prefix_take (hs.base_prefix_lead hc) hlenb, prefix_take hpc (by omega)]
  · have hne' : cl ≠ [] := by
      rintro rfl
      simp only [length_nil, Nat.le_zero] at hle
      omega
    obtain ⟨_, hpc, _⟩ := hs.anchored_last hcl hne'
    rw [← heq] at hpc
    have hpre : l <+: cl := prefix_of_prefix_length_le hpl hpc hle
    rw [← hkeep, prefix_take hpre hlen]

/-- Every later leader was elected with the prefix a quorum has confirmed. -/
theorem leader_complete (hc : Chosen Q h T i) (hT : T < T')
    (hw' : (h.winner T').isSome) : (h.base T').take i = (h.lead T).take i := by
  induction T' using Nat.strong_induction_on with
  | _ T' ih =>
    obtain ⟨hw, hb, hi, hq⟩ := hc
    obtain ⟨c, hwc⟩ := isSome_iff_exists.mp hw'
    obtain ⟨q, hqe, hqa⟩ := Q.inter (hs.winner_quorum hwc) hq
    obtain ⟨l, hbal⟩ := hs.winner_ballot hwc hqe
    obtain ⟨cl, hbid, hu⟩ := hs.ballot_bid hbal
    have hbase := hs.winner_bid hwc
    obtain rfl : cl = h.base T' := some.inj (hbid.symm.trans hbase)
    have hmid : ∀ t, T < t → t < T' → (h.winner t).isSome →
        (h.base t).take i = (h.lead T).take i := fun t ht ht' hwt => ih t ht' ht hwt
    have hkeep : l.take i = (h.lead T).take i := by
      rcases hs.ballot_kept hbal (.inr hqe) T i hT hb hqa with hk | ho
      · exact hk
      · obtain ⟨t, ht, _, hwt, hne⟩ := ho
        exact absurd (hmid t ht (by omega) hwt) hne
    exact hs.upToDate_carries hw hb hi (hs.bid_anchored hbase) (hs.ballot_anchored hbal)
      (hs.bid_below hbase) hu hkeep hmid

/-- What is decided up to a term is a prefix of the log of every leader from
that term on. -/
theorem decided_prefix_lead {p : List ε} (hd : Decided Q h T p)
    (hT : T ≤ T') (hw' : (h.winner T').isSome) : p <+: h.lead T' := by
  rcases hd with rfl | ⟨_, _, hT₀, hc, hp⟩
  · exact nil_prefix
  · rcases Nat.eq_or_lt_of_le (hT₀.trans hT) with rfl | hlt
    · exact hp.trans (List.take_prefix _ _)
    · obtain ⟨c, hwc⟩ := isSome_iff_exists.mp hw'
      rw [← hs.leader_complete hc hlt hw'] at hp
      exact (hp.trans (List.take_prefix _ _)).trans (hs.base_prefix_lead hwc)

theorem decided_comparable {p p' : List ε} (hd : Decided Q h T p)
    (hd' : Decided Q h T' p') : p <+: p' ∨ p' <+: p := by
  rcases hd with rfl | ⟨T₀, i, _, hc, hp⟩
  · exact .inl nil_prefix
  rcases hd' with rfl | ⟨T₁, j, _, hc', hp'⟩
  · exact .inr nil_prefix
  have hlead : ∀ {t k l}, Chosen Q h t k → l <+: (h.lead t).take k → Decided Q h t l :=
    fun hc hl => .inr ⟨_, _, le_rfl, hc, hl⟩
  rcases Nat.le_total T₀ T₁ with hle | hle
  · have hpre := hs.decided_prefix_lead (hlead hc hp) hle hc'.1
    exact prefix_or_prefix_of_prefix hpre (hp'.trans (List.take_prefix _ _))
  · have hpre := hs.decided_prefix_lead (hlead hc' hp') hle hc.1
    exact prefix_or_prefix_of_prefix (hp.trans (List.take_prefix _ _)) hpre

end History.Sound

end Completeness

end Charlotte.Lib.ReplicatedLog
