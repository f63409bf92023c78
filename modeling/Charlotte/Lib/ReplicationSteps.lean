import Charlotte.Lib.ReplicatedLog

/-!
# The moves of log replication

Each move changes one replica and, where it matters to the safety argument,
the history. A move's precondition is what the acting replica can know; the
invariant of the protocol follows for every sequence of moves.
-/

namespace Charlotte.Lib.ReplicatedLog

open Function List Option History.Grows World.Sound

variable {ν ε : Type*} [DecidableEq ν]

namespace World

variable (w : World ν ε)

variable (q : ν)

/-- Replace the state of one replica. -/
def setReplica (r : Replica ν ε) : World ν ε :=
  { w with replica := update w.replica q r }

/-- Enter a higher term as a follower, with any vote. -/
def raise (T : ℕ) (v : Option ν) : World ν ε :=
  w.setReplica q { w.replica q with term := T, vote := v, phase := .follower }

/-- Fall back to follower within the term. -/
def yield : World ν ε :=
  w.setReplica q { w.replica q with phase := .follower }

/-- Stand as a candidate in the next term, voting for oneself. -/
def stand : World ν ε where
  hist := { w.hist with
    ballot := update w.hist.ballot q
      (update (w.hist.ballot q) ((w.replica q).term + 1) (some (q, (w.replica q).log)))
    bid := update w.hist.bid ((w.replica q).term + 1)
      (update (w.hist.bid ((w.replica q).term + 1)) q (some (w.replica q).log)) }
  replica := update w.replica q { w.replica q with
    term := (w.replica q).term + 1, vote := some q, phase := .candidate }

/-- Cast a ballot in the current term; a repeated one leaves the first on record. -/
def cast (q c : ν) : World ν ε where
  hist := { w.hist with
    ballot := update w.hist.ballot q (update (w.hist.ballot q) (w.replica q).term
      (some ((w.hist.ballot q (w.replica q).term).getD (c, (w.replica q).log)))) }
  replica := update w.replica q { w.replica q with vote := some c }

/-- Take the lead of the current term. -/
def elect : World ν ε where
  hist := { w.hist with
    winner := update w.hist.winner (w.replica q).term (some q)
    electors := update w.hist.electors (w.replica q).term
      {v | ∃ l, w.hist.ballot v (w.replica q).term = some (q, l)}
    base := update w.hist.base (w.replica q).term (w.replica q).log
    lead := update w.hist.lead (w.replica q).term (w.replica q).log }
  replica := update w.replica q { w.replica q with phase := .leader }

/-- Confirm a prefix of the current leader's log. -/
def ack (m : ℕ) : World ν ε :=
  { w with hist := { w.hist with
      acked := update w.hist.acked q (update (w.hist.acked q) (w.replica q).term
        (max (w.hist.acked q (w.replica q).term) m)) } }

/-- Add an entry to the log one leads. -/
def append (e : ε) : World ν ε where
  hist := { w.hist with
    lead := update w.hist.lead (w.replica q).term ((w.replica q).log ++ [e]) }
  replica := update w.replica q { w.replica q with log := (w.replica q).log ++ [e] }

/-- Take over the first `k` entries of the current leader's log. -/
def adopt (k : ℕ) : World ν ε :=
  w.setReplica q { w.replica q with log := (w.hist.lead (w.replica q).term).take k }

/-- Know the first `c` entries of one's log to be decided. -/
def commit (c : ℕ) : World ν ε :=
  w.setReplica q { w.replica q with commit := c }

end World

/-- The moves of replica `q` with their preconditions. -/
inductive Move (Q : QuorumSystem ν) (termOf : ε → ℕ) (q : ν) : World ν ε → World ν ε → Prop
  | raise {w} (T : ℕ) (v : Option ν) (hT : (w.replica q).term < T) :
      Move Q termOf q w (w.raise q T v)
  | yield {w} : Move Q termOf q w (w.yield q)
  | stand {w} : Move Q termOf q w (w.stand q)
  | cast {w} (c : ν) (cl : List ε) (hv : (w.replica q).vote = none ∨ (w.replica q).vote = some c)
      (hb : w.hist.bid (w.replica q).term c = some cl)
      (hu : UpToDate termOf cl (w.replica q).log) : Move Q termOf q w (w.cast q c)
  | elect {w} (hp : (w.replica q).phase = .candidate)
      (hq : Q.IsQuorum {v | ∃ l, w.hist.ballot v (w.replica q).term = some (q, l)}) :
      Move Q termOf q w (w.elect q)
  | append {w} (e : ε) (hp : (w.replica q).phase = .leader)
      (he : termOf e = (w.replica q).term) : Move Q termOf q w (w.append q e)
  | adopt {w} (k : ℕ) (hp : (w.replica q).phase = .follower)
      (hw : (w.hist.winner (w.replica q).term).isSome)
      (hk : k ≤ (w.hist.lead (w.replica q).term).length)
      (hc : ∀ i ≤ (w.replica q).log.length,
        (w.replica q).log.take i = (w.hist.lead (w.replica q).term).take i → i ≤ k) :
      Move Q termOf q w (w.adopt q k)
  | ack {w} (m : ℕ) (hw : (w.hist.winner (w.replica q).term).isSome)
      (hm : m ≤ (w.hist.lead (w.replica q).term).length)
      (hl : (w.replica q).log.take m = (w.hist.lead (w.replica q).term).take m) :
      Move Q termOf q w (w.ack q m)
  | commit {w} (c : ℕ) (hle : (w.replica q).commit ≤ c) (hc : c ≤ (w.replica q).log.length)
      (hd : Decided Q w.hist (w.replica q).term ((w.replica q).log.take c)) :
      Move Q termOf q w (w.commit q c)

section Preservation

variable {Q : QuorumSystem ν} {termOf : ε → ℕ} {w w' : World ν ε}

/-! ## Growth of the history and the replicas it does not concern -/

variable {h' h : History ν ε} {p : ν} {r : Replica ν ε}

omit [DecidableEq ν] in
/-- A replica stays sound while the history grows without new facts about its
own ballots, bids and confirmations; its phase is up to the move. -/
theorem Replica.Sound.grow
    (hs : h.Sound Q termOf) (hr : r.Sound Q termOf h p) (g : h.Grows h') (ph : Phase)
    (hbal : h'.ballot p = h.ballot p) (hbid : ∀ T, h'.bid T p = h.bid T p)
    (hacked : h'.acked p = h.acked p) (hcand : ph = .candidate →
      h'.bid r.term p = some r.log ∧ h'.winner r.term ≠ some p)
    (hleader : ph = .leader → h'.winner r.term = some p ∧ h'.lead r.term = r.log) :
    { r with phase := ph }.Sound Q termOf h' p where
  ballot_term hb := hr.ballot_term (by rwa [hbal] at hb)
  ballot_vote hb := hr.ballot_vote (by rwa [hbal] at hb)
  bid_term hb := hr.bid_term (by rwa [hbid] at hb)
  log_anchored := g.anchored hr.log_anchored
  log_term := hr.log_term
  candidate := hcand
  leader := hleader
  acked_term ha := hr.acked_term (by rwa [hacked] at ha)
  acked_log := by
    rw [hacked]
    rcases eq_zero_or_pos (h.acked p r.term) with h0 | hpos
    · simp [h0]
    · obtain ⟨hw, hl⟩ := hs.acked_lead hpos
      rw [g.lead_take hw hl]
      exact hr.acked_log
  acked_kept T i hb hi := by
    rw [hacked] at hi
    rcases eq_zero_or_pos i with rfl | hpos
    · exact absurd hb (Nat.not_lt_zero _)
    obtain ⟨hw, hl⟩ := hs.acked_lead (hpos.trans_le hi)
    obtain ⟨c, hc⟩ := isSome_iff_exists.mp hw
    rw [g.base hc] at hb
    rw [g.lead_take hw (hi.trans hl)]
    exact (hr.acked_kept T i hb hi).imp_right (g.overruled hw (hi.trans hl) le_rfl)
  commit_le := hr.commit_le
  commit_decided := g.decided le_rfl hr.commit_decided

/-- The history says the same of replica `p` as before. -/
structure Unconcerned (h h' : History ν ε) (p : ν) : Prop where
  ballot : h'.ballot p = h.ballot p
  bid : ∀ T, h'.bid T p = h.bid T p
  acked : h'.acked p = h.acked p
  winner : ∀ {T}, h'.winner T = some p → h.winner T = some p
  lead : ∀ {T}, h.winner T = some p → h'.lead T = h.lead T

omit [DecidableEq ν] in
theorem Replica.Sound.of_unconcerned
    (hs : h.Sound Q termOf) (g : h.Grows h') (u : Unconcerned h h' p)
    (hr : r.Sound Q termOf h p) : r.Sound Q termOf h' p := by
  refine hr.grow hs g r.phase u.ballot u.bid u.acked ?_ ?_
  · intro hp
    obtain ⟨hb, hw⟩ := hr.candidate hp
    exact ⟨by rw [u.bid, hb], fun hw' => hw (u.winner hw')⟩
  · intro hp
    obtain ⟨hw, hl⟩ := hr.leader hp
    exact ⟨g.winner hw, by rw [u.lead hw, hl]⟩

variable (hs : w.Sound Q termOf)
include hs

/-- A move that changes one replica, given what it does to the history. -/
theorem World.Sound.of_update (q : ν) (g : w.hist.Grows h')
    (hh : h'.Sound Q termOf) (hu : ∀ p, p ≠ q → Unconcerned w.hist h' p) (hr : r.Sound Q termOf h' q) :
    (⟨h', update w.replica q r⟩ : World ν ε).Sound Q termOf where
  hist := hh
  replica p := by
    by_cases hp : p = q
    · subst hp
      simpa only [update_self] using hr
    · simpa only [update_of_ne hp] using (hs.replica p).of_unconcerned hs.hist g (hu p hp)

/-- A move that changes one replica and leaves the history alone. -/
theorem World.Sound.setReplica (q : ν)
    (hr : r.Sound Q termOf w.hist q) : (w.setReplica q r).Sound Q termOf :=
  hs.of_update q (refl _) hs.hist
    (fun _ _ => ⟨rfl, fun _ => rfl, rfl, id, fun _ => rfl⟩) hr

/-! ## Moves that leave the history alone -/

variable {T : ℕ}

theorem World.Sound.raise (q : ν) (v : Option ν)
    (hT : (w.replica q).term < T) : (w.raise q T v).Sound Q termOf := by
  have hr := hs.replica q
  apply hs.setReplica q
  have hfr : w.hist.acked q T = 0 := by
    by_contra hne
    exact absurd (hr.acked_term (pos_of_ne_zero hne)) (by omega)
  exact { hr with
    ballot_term := fun hb => (hr.ballot_term hb).trans hT.le
    ballot_vote := by
      intro c l hb
      exact absurd (hr.ballot_term hb) (by simpa using hT)
    bid_term := fun hb => (hr.bid_term hb).trans hT.le
    log_term := fun e he => (hr.log_term e he).trans hT.le
    candidate := fun hp => by cases hp
    leader := fun hp => by cases hp
    acked_term := fun ha => (hr.acked_term ha).trans hT.le
    acked_log := by simp [hfr]
    acked_kept := by
      intro t i hb hi
      refine (hr.acked_kept t i hb hi).imp_right ?_
      rintro ⟨t', ht, ht', hw, hne⟩
      exact ⟨t', ht, ht'.trans hT.le, hw, hne⟩
    commit_decided := (refl _).decided hT.le hr.commit_decided }

theorem World.Sound.yield (q : ν) : (w.yield q).Sound Q termOf := by
  have hr := hs.replica q
  apply hs.setReplica q
  exact hr.grow hs.hist (refl _) .follower rfl (fun _ => rfl) rfl
    (fun hp => by cases hp) (fun hp => by cases hp)

theorem World.Sound.commit (q : ν) {c : ℕ} (hc : c ≤ (w.replica q).log.length)
    (hd : Decided Q w.hist (w.replica q).term ((w.replica q).log.take c)) :
    (w.commit q c).Sound Q termOf := by
  have hr := hs.replica q
  apply hs.setReplica q
  exact { hr with commit_le := hc, commit_decided := hd }

omit hs

omit [DecidableEq ν] in
/-- The prefix a replica knows to be decided agrees with the log of the leader
of its term. -/
theorem World.Sound.commit_take_lead (hs : w.Sound Q termOf) (q : ν)
    (hw : (w.hist.winner (w.replica q).term).isSome) : (w.replica q).log.take (w.replica q).commit =
      (w.hist.lead (w.replica q).term).take (w.replica q).commit := by
  have hr := hs.replica q
  have hpre := hs.hist.decided_prefix_lead hr.commit_decided le_rfl hw
  have hlen : ((w.replica q).log.take (w.replica q).commit).length = (w.replica q).commit :=
    length_take_of_le hr.commit_le
  exact ((prefix_take_self_iff hlen).mp hpre).symm

theorem World.Sound.adopt (hs : w.Sound Q termOf) (q : ν) {k : ℕ}
    (hp : (w.replica q).phase = .follower) (hw : (w.hist.winner (w.replica q).term).isSome)
    (hc : ∀ i ≤ (w.replica q).log.length,
      (w.replica q).log.take i = (w.hist.lead (w.replica q).term).take i → i ≤ k)
    (hk : k ≤ (w.hist.lead (w.replica q).term).length) : (w.adopt q k).Sound Q termOf := by
  have hr := hs.replica q
  obtain ⟨c, hwc⟩ := isSome_iff_exists.mp hw
  have hcm : (w.replica q).commit ≤ k := hc _ hr.commit_le (hs.commit_take_lead q hw)
  have hacked : w.hist.acked q (w.replica q).term ≤ k := by
    rcases eq_zero_or_pos (w.hist.acked q (w.replica q).term) with _ | hpos
    · omega
    · exact hc _ (le_length_of_take_eq hr.acked_log (hs.hist.acked_lead hpos).2) hr.acked_log
  apply hs.setReplica q
  exact { hr with
    log_anchored := (hs.hist.lead_anchored hwc).take k
    log_term := fun e he => hs.hist.lead_term_le hwc e (mem_of_mem_take he)
    candidate := fun hp' => by simp [hp] at hp'
    leader := fun hp' => by simp [hp] at hp'
    acked_log := by rw [take_take, min_eq_left hacked]
    acked_kept := by
      intro t i hb hi
      rcases hr.acked_kept t i hb hi with hkeep | ho
      · have hpos : 0 < w.hist.acked q t := by omega
        have hlead := (hs.hist.acked_lead hpos).2
        have hterm := hr.acked_term hpos
        -- either the leader was elected without these entries, or it has them too
        by_cases hbase : (w.hist.base (w.replica q).term).take i = (w.hist.lead t).take i
        · left
          have hlen := le_length_of_take_eq hbase (hi.trans hlead)
          have heq : (w.hist.lead (w.replica q).term).take i = (w.hist.lead t).take i := by
            rw [prefix_take (hs.hist.base_prefix_lead hwc) hlen, hbase]
          have hik := hc i (le_length_of_take_eq hkeep (hi.trans hlead)) (hkeep.trans heq.symm)
          rw [take_take, min_eq_left hik, heq]
        · rcases eq_or_lt_of_le hterm with rfl | hlt
          · left
            have hik : i ≤ k := hi.trans hacked
            rw [take_take, min_eq_left hik]
          · exact .inr ⟨_, hlt, le_rfl, hw, hbase⟩
      · exact .inr ho
    commit_le := by
      rw [length_take]
      exact le_min hcm (hcm.trans hk)
    commit_decided := by
      rw [take_take, min_eq_left hcm, ← hs.commit_take_lead q hw]
      exact hr.commit_decided }

/-! ## Candidacy and ballots -/

omit [DecidableEq ν] in
theorem upToDate_refl (l : List ε) : UpToDate termOf l l := Or.inr ⟨rfl, le_rfl⟩

/-- Announce a candidacy in the current term. -/
def World.announce (w : World ν ε) (q : ν) : World ν ε where
  hist := { w.hist with
    bid := update w.hist.bid (w.replica q).term
      (update (w.hist.bid (w.replica q).term) q (some (w.replica q).log)) }
  replica := update w.replica q { w.replica q with phase := .candidate }

theorem World.announce_bid (w : World ν ε) (q c : ν) (T : ℕ) : (w.announce q).hist.bid T c =
    if T = (w.replica q).term ∧ c = q then some (w.replica q).log else w.hist.bid T c := by
  by_cases hT : T = (w.replica q).term
  · subst hT
    by_cases hc : c = q <;> simp [World.announce, hc]
  · simp [World.announce, hT]

variable {q : ν}

theorem World.announce_grows (hfr : w.hist.bid (w.replica q).term q = none) :
    w.hist.Grows (w.announce q).hist := by
  refine ⟨id, ?_, id, fun _ => rfl, fun _ => rfl, fun _ => prefix_refl _, fun _ _ => le_rfl⟩
  intro T c l hb
  rw [World.announce_bid, if_neg]
  · exact hb
  · rintro ⟨rfl, rfl⟩
    cases hfr.symm.trans hb

variable (hs : w.Sound Q termOf)
include hs

theorem World.Sound.announce (q : ν) (hfr : w.hist.bid (w.replica q).term q = none)
    (hbel : ∀ e ∈ (w.replica q).log, termOf e < (w.replica q).term) :
    (w.announce q).Sound Q termOf := by
  have hr := hs.replica q
  have g := World.announce_grows hfr
  have hbid : ∀ {T c l}, (w.announce q).hist.bid T c = some l → w.hist.bid T c = some l ∨
      T = (w.replica q).term ∧ c = q ∧ l = (w.replica q).log := by
    intro T c l hb
    rw [World.announce_bid] at hb
    split at hb
    next h => exact .inr ⟨h.1, h.2, (some.inj hb).symm⟩
    next => exact .inl hb
  apply hs.of_update q g
  · exact { hs.hist with
      ballot_bid := by
        intro p T c l hb
        obtain ⟨cl, hcl, hu⟩ := hs.hist.ballot_bid hb
        exact ⟨cl, g.bid hcl, hu⟩
      bid_anchored := by
        intro T c l hb
        rcases hbid hb with hb | ⟨rfl, rfl, rfl⟩
        · exact hs.hist.bid_anchored hb
        · exact hr.log_anchored
      bid_below := by
        intro T c l hb
        rcases hbid hb with hb | ⟨rfl, rfl, rfl⟩
        · exact hs.hist.bid_below hb
        · exact hbel
      winner_bid := fun hw => g.bid (hs.hist.winner_bid hw) }
  · intro p hp
    exact ⟨rfl, fun T => by simp [World.announce_bid, hp], rfl, id, fun _ => rfl⟩
  · exact { hr with
      bid_term := by
        intro T l hb
        rcases hbid hb with hb | ⟨rfl, -⟩
        · exact hr.bid_term hb
        · exact le_rfl
      candidate := by
        refine fun _ => ⟨by simp [World.announce_bid], fun hw => ?_⟩
        cases hfr.symm.trans (hs.hist.winner_bid hw)
      leader := nofun }

omit hs in
theorem World.Sound.cast_grows (w : World ν ε) (q c : ν) : w.hist.Grows (w.cast q c).hist := by
  refine ⟨?_, id, id, fun _ => rfl, fun _ => rfl, fun _ => prefix_refl _, fun _ _ => le_rfl⟩
  intro p T b hb
  by_cases hp : p = q
  · subst hp
    by_cases hT : T = (w.replica p).term
    · subst hT
      simp only [World.cast, update_self, hb, getD_some]
    · simpa only [World.cast, update_self, update_of_ne hT] using hb
  · simpa only [World.cast, update_of_ne hp] using hb

theorem World.Sound.cast (q c : ν) {cl : List ε}
    (hv : (w.replica q).vote = none ∨ (w.replica q).vote = some c)
    (hb : w.hist.bid (w.replica q).term c = some cl)
    (hu : UpToDate termOf cl (w.replica q).log) : (w.cast q c).Sound Q termOf := by
  have hr := hs.replica q
  have g := cast_grows w q c
  have hbal : ∀ {p T b}, (w.cast q c).hist.ballot p T = some b →
      w.hist.ballot p T = some b ∨ p = q ∧ T = (w.replica q).term ∧
        b = (c, (w.replica q).log) ∧ w.hist.ballot q (w.replica q).term = none := by
    intro p T b hb'
    by_cases hp : p = q
    · subst hp
      by_cases hT : T = (w.replica p).term
      · subst hT
        simp only [World.cast, update_self, some.injEq] at hb'
        cases hold : w.hist.ballot p (w.replica p).term with
        | none =>
          rw [hold] at hb'
          exact .inr ⟨rfl, rfl, hb'.symm, rfl⟩
        | some =>
          rw [hold] at hb'
          exact .inl (congrArg some hb')
      · simp only [World.cast, update_self, update_of_ne hT] at hb'
        exact .inl hb'
    · simp only [World.cast, update_of_ne hp] at hb'
      exact .inl hb'
  apply hs.of_update q g
  · exact { hs.hist with
      ballot_bid := by
        intro p T c' l hb'
        rcases hbal hb' with hb' | ⟨rfl, rfl, hb', _⟩
        · exact hs.hist.ballot_bid hb'
        · cases hb'
          exact ⟨cl, hb, hu⟩
      ballot_anchored := by
        intro p T c' l hb'
        rcases hbal hb' with hb' | ⟨rfl, rfl, hb', _⟩
        · exact hs.hist.ballot_anchored hb'
        · cases hb'
          exact hr.log_anchored
      winner_ballot := by
        intro T c' p hw hp
        obtain ⟨l, hl⟩ := hs.hist.winner_ballot hw hp
        exact ⟨l, g.ballot hl⟩
      ballot_kept := by
        intro p T' c' l hb' he T i hT hbl hi
        rcases hbal hb' with hb' | ⟨rfl, rfl, hb', hnone⟩
        · exact hs.hist.ballot_kept hb' he T i hT hbl hi
        · cases hb'
          -- the ballot counts only while the term has no winner yet
          have hwin : w.hist.winner (w.replica p).term = none := by
            rcases he with he | he
            · exact he
            · cases hw : w.hist.winner (w.replica p).term with
              | none => rfl
              | some =>
                obtain ⟨_, hl'⟩ := hs.hist.winner_ballot hw he
                simp [hnone] at hl'
          refine (hr.acked_kept T i hbl hi).imp_right ?_
          rintro ⟨t, ht, ht', hw, hne⟩
          refine ⟨t, ht, Nat.le_sub_one_of_lt (lt_of_le_of_ne ht' ?_), hw, hne⟩
          rintro rfl
          simp [hwin] at hw }
  · intro p hp
    exact ⟨by simp only [World.cast, update_of_ne hp], fun _ => rfl, rfl, id, fun _ => rfl⟩
  · have hvote : ∀ {c' l}, (w.cast q c).hist.ballot q (w.replica q).term = some (c', l) →
        c = c' := by
      intro c' l hb'
      rcases hbal hb' with hb' | ⟨_, _, hb', _⟩
      · have := hr.ballot_vote hb'
        rcases hv with hv | hv
        · simp [hv] at this
        · exact some.inj (hv.symm.trans this)
      · cases hb'
        rfl
    exact { hr with
      ballot_term := by
        intro T b hb'
        rcases hbal hb' with hb' | ⟨_, rfl, _⟩
        · exact hr.ballot_term hb'
        · exact le_rfl
      ballot_vote := fun hb' => congrArg some (hvote hb') }

/-- Standing is to enter the next term, to announce it and to vote for oneself. -/
theorem World.Sound.stand_eq (q : ν) : w.stand q =
    ((w.raise q ((w.replica q).term + 1) none).announce q).cast q q := by
  have hnone : w.hist.ballot q ((w.replica q).term + 1) = none := by
    refine eq_none_iff_forall_ne_some.mpr fun b hb => ?_
    have := (hs.replica q).ballot_term hb
    omega
  simp [World.stand, World.raise, World.announce, World.cast, World.setReplica, hnone]

omit [DecidableEq ν] in
theorem World.Sound.bid_fresh (q : ν) : w.hist.bid ((w.replica q).term + 1) q = none := by
  refine eq_none_iff_forall_ne_some.mpr fun l hb => ?_
  have := (hs.replica q).bid_term hb
  omega

theorem World.Sound.stand_grows (q : ν) : w.hist.Grows (w.stand q).hist := by
  rw [hs.stand_eq]
  refine trans ?_ (cast_grows _ q q)
  have hfr : (w.raise q ((w.replica q).term + 1) none).hist.bid
      ((w.raise q ((w.replica q).term + 1) none).replica q).term q = none := by
    simpa [World.raise, World.setReplica] using hs.bid_fresh q
  exact World.announce_grows hfr

theorem World.Sound.stand (q : ν) : (w.stand q).Sound Q termOf := by
  have hraised := hs.raise q none (Nat.lt_succ_self (w.replica q).term)
  rw [hs.stand_eq]
  have hanno := hraised.announce q
    (by simpa [World.raise, World.setReplica] using hs.bid_fresh q) (by
      simp only [World.raise, World.setReplica, update_self]
      exact fun e he => Nat.lt_succ_of_le ((hs.replica q).log_term e he))
  refine hanno.cast q q (.inl ?_) ?_ (upToDate_refl _) <;>
    simp [World.announce, World.raise, World.setReplica]

omit hs

/-! ## Election -/

variable (hs : w.Sound Q termOf)
include hs

variable (hp : (w.replica q).phase = .candidate)
include hp

variable (hq : Q.IsQuorum {v | ∃ l, w.hist.ballot v (w.replica q).term = some (q, l)})
include hq

omit [DecidableEq ν] in
/-- A candidate with a quorum of ballots is the first to win its term. -/
theorem World.Sound.winner_none : w.hist.winner (w.replica q).term = none := by
  cases hw : w.hist.winner (w.replica q).term with
  | none => rfl
  | some c =>
    exfalso
    obtain ⟨v, hv, l, hl⟩ := Q.inter (hs.hist.winner_quorum hw) hq
    obtain ⟨_, hl'⟩ := hs.hist.winner_ballot hw hv
    have hc : c = q := by
      rw [hl] at hl'
      cases hl'
      rfl
    exact ((hs.replica q).candidate hp).2 (hc ▸ hw)

theorem World.Sound.elect_grows : w.hist.Grows (w.elect q).hist := by
  have hnone := hs.winner_none hp hq
  have hne : ∀ {T c}, w.hist.winner T = some c → T ≠ (w.replica q).term := by
    rintro T c hw rfl
    simp [hnone] at hw
  refine ⟨id, id, ?_, ?_, ?_, ?_, fun _ _ => le_rfl⟩
  · intro T c hw
    simpa only [World.elect, update_of_ne (hne hw)] using hw
  · intro T c hw
    simp only [World.elect, update_of_ne (hne hw)]
  · intro T c hw
    simp only [World.elect, update_of_ne (hne hw)]
  · intro T c hw
    simp only [World.elect, update_of_ne (hne hw), prefix_refl]

theorem World.Sound.elect : (w.elect q).Sound Q termOf := by
  have hr := hs.replica q
  have hnone := hs.winner_none hp hq
  have g := hs.elect_grows hp hq
  have hwin : (w.elect q).hist.winner (w.replica q).term = some q := by simp [World.elect]
  have hold : ∀ {T}, T ≠ (w.replica q).term → (w.elect q).hist.winner T = w.hist.winner T ∧
      (w.elect q).hist.electors T = w.hist.electors T ∧
      (w.elect q).hist.base T = w.hist.base T ∧ (w.elect q).hist.lead T = w.hist.lead T := by
    intro T hT
    simp only [World.elect, update_of_ne hT, and_self]
  have hsome : ∀ {T}, (w.hist.winner T).isSome → T ≠ (w.replica q).term := by
    rintro T hw rfl
    simp [hnone] at hw
  apply hs.of_update q g
  · exact { hs.hist with
      ballot_anchored := fun hb => g.anchored (hs.hist.ballot_anchored hb)
      bid_anchored := fun hb => g.anchored (hs.hist.bid_anchored hb)
      winner_bid := by
        intro T c hw
        by_cases hT : T = (w.replica q).term
        · subst hT
          obtain rfl : q = c := some.inj (hwin.symm.trans hw)
          simpa [World.elect] using (hr.candidate hp).1
        · rw [(hold hT).1] at hw
          rw [(hold hT).2.2.1]
          exact hs.hist.winner_bid hw
      winner_quorum := by
        intro T c hw
        by_cases hT : T = (w.replica q).term
        · subst hT
          simpa [World.elect] using hq
        · rw [(hold hT).1] at hw
          rw [(hold hT).2.1]
          exact hs.hist.winner_quorum hw
      winner_ballot := by
        intro T c p hw he
        by_cases hT : T = (w.replica q).term
        · subst hT
          obtain rfl : q = c := some.inj (hwin.symm.trans hw)
          simpa [World.elect] using he
        · rw [(hold hT).1] at hw
          rw [(hold hT).2.1] at he
          exact hs.hist.winner_ballot hw he
      lead_own := by
        intro T c hw
        by_cases hT : T = (w.replica q).term
        · subst hT
          exact ⟨[], by simp [World.elect], by simp⟩
        · rw [(hold hT).1] at hw
          rw [(hold hT).2.2.1, (hold hT).2.2.2]
          exact hs.hist.lead_own hw
      acked_lead := by
        intro p T ha
        obtain ⟨hw, hl⟩ := hs.hist.acked_lead ha
        rw [(hold (hsome hw)).1, (hold (hsome hw)).2.2.2]
        exact ⟨hw, hl⟩
      ballot_kept := by
        intro p T' c l hb he T i hT hbl hi
        have hpos : 0 < w.hist.acked p T := lt_of_lt_of_le (Nat.zero_lt_of_lt hbl) hi
        obtain ⟨hw, hl⟩ := hs.hist.acked_lead hpos
        rw [(hold (hsome hw)).2.2.1] at hbl
        rw [(hold (hsome hw)).2.2.2]
        have he' : w.hist.winner T' = none ∨ p ∈ w.hist.electors T' := by
          by_cases hT' : T' = (w.replica q).term
          · exact .inl (hT' ▸ hnone)
          · rwa [(hold hT').1, (hold hT').2.1] at he
        exact (hs.hist.ballot_kept hb he' T i hT hbl hi).imp_right
          (g.overruled hw (hi.trans hl) le_rfl) }
  · intro p hne
    refine ⟨rfl, fun _ => rfl, rfl, ?_, ?_⟩
    · intro T hw
      by_cases hT : T = (w.replica q).term
      · subst hT
        exact absurd (some.inj (hwin.symm.trans hw)).symm hne
      · rwa [(hold hT).1] at hw
    · intro T hw
      exact (hold (hsome (isSome_of_eq_some hw))).2.2.2
  · refine hr.grow hs.hist g .leader rfl (fun _ => rfl) rfl (fun h => by cases h) ?_
    exact fun _ => ⟨hwin, by simp [World.elect]⟩

omit hq

omit hp

/-! ## Replication -/

theorem World.Sound.append_grows (e : ε)
    (hp : (w.replica q).phase = .leader) : w.hist.Grows (w.append q e).hist := by
  refine ⟨id, id, id, fun _ => rfl, fun _ => rfl, ?_, fun _ _ => le_rfl⟩
  intro T c hw
  by_cases hT : T = (w.replica q).term
  · subst hT
    simp [World.append, ((hs.replica q).leader hp).2]
  · simp only [World.append, update_of_ne hT, prefix_refl]

theorem World.Sound.append {e : ε}
    (hp : (w.replica q).phase = .leader) (he : termOf e = (w.replica q).term) :
    (w.append q e).Sound Q termOf := by
  have hr := hs.replica q
  have g := hs.append_grows e hp
  obtain ⟨hwin, hlead⟩ := hr.leader hp
  have hnew : (w.append q e).hist.lead (w.replica q).term = (w.replica q).log ++ [e] := by
    simp [World.append]
  have hold : ∀ {T}, T ≠ (w.replica q).term → (w.append q e).hist.lead T = w.hist.lead T := by
    intro T hT
    simp only [World.append, update_of_ne hT]
  apply hs.of_update q g
  · exact { hs.hist with
      ballot_anchored := fun hb => g.anchored (hs.hist.ballot_anchored hb)
      bid_anchored := fun hb => g.anchored (hs.hist.bid_anchored hb)
      lead_own := by
        intro T c hw
        by_cases hT : T = (w.replica q).term
        · subst hT
          obtain ⟨own, hown, hterm⟩ := hs.hist.lead_own hwin
          refine ⟨own ++ [e], ?_, ?_⟩
          · rw [hnew, ← hlead, hown, append_assoc]
            rfl
          · intro e' he'
            rcases mem_append.mp he' with he' | he'
            · exact hterm e' he'
            · rw [mem_singleton.mp he', he]
        · rw [hold hT]
          exact hs.hist.lead_own hw
      acked_lead := by
        intro p T ha
        obtain ⟨hw, hl⟩ := hs.hist.acked_lead ha
        obtain ⟨c, hc⟩ := isSome_iff_exists.mp hw
        exact ⟨hw, hl.trans (g.lead hc).length_le⟩
      ballot_kept := by
        intro p T' c l hb hel T i hT hbl hi
        have hpos : 0 < w.hist.acked p T := lt_of_lt_of_le (Nat.zero_lt_of_lt hbl) hi
        obtain ⟨hw, hl⟩ := hs.hist.acked_lead hpos
        rw [g.lead_take hw (hi.trans hl)]
        exact (hs.hist.ballot_kept hb hel T i hT hbl hi).imp_right
          (g.overruled hw (hi.trans hl) le_rfl) }
  · intro p hne
    refine ⟨rfl, fun _ => rfl, rfl, id, ?_⟩
    intro T hw
    apply hold
    rintro rfl
    exact hne (some.inj (hw.symm.trans hwin))
  · have hcm : ((w.replica q).log ++ [e]).take (w.replica q).commit =
        (w.replica q).log.take (w.replica q).commit :=
      take_append_of_le_length hr.commit_le
    exact { hr with
      log_anchored := by
        intro i e' he'
        by_cases hi : i < (w.replica q).log.length
        · rw [getElem?_append_left hi] at he'
          rw [take_append_of_le_length (by omega)]
          exact g.anchored hr.log_anchored i e' he'
        · rw [getElem?_append_right (by omega)] at he'
          obtain ⟨hi0, rfl⟩ : i - (w.replica q).log.length = 0 ∧ e = e' := by
            rw [getElem?_singleton] at he'
            split at he'
            · exact ⟨by assumption, some.inj he'⟩
            · cases he'
          rw [he]
          refine ⟨isSome_of_eq_some hwin, ?_⟩
          rw [hnew]
          exact take_prefix _ _
      log_term := by
        intro e' he'
        rcases mem_append.mp he' with he' | he'
        · exact hr.log_term e' he'
        · rw [mem_singleton.mp he', he]
      candidate := fun hp' => by simp [hp] at hp'
      leader := fun _ => ⟨hwin, hnew⟩
      acked_log := by
        rw [hnew]
      acked_kept := by
        intro T i hb hi
        have hpos : 0 < w.hist.acked q T := lt_of_lt_of_le (Nat.zero_lt_of_lt hb) hi
        obtain ⟨hw, hl⟩ := hs.hist.acked_lead hpos
        rw [g.lead_take hw (hi.trans hl)]
        rcases hr.acked_kept T i hb hi with hk | ho
        · left
          rw [take_append_of_le_length (le_length_of_take_eq hk (hi.trans hl)), hk]
        · exact .inr (g.overruled hw (hi.trans hl) le_rfl ho)
      commit_le := by
        rw [length_append]
        exact hr.commit_le.trans (Nat.le_add_right _ _)
      commit_decided := by
        rw [hcm]
        exact g.decided le_rfl hr.commit_decided }

omit hs in
theorem World.Sound.ack_grows (w : World ν ε) (q : ν) (m : ℕ) : w.hist.Grows (w.ack q m).hist := by
  refine ⟨id, id, id, fun _ => rfl, fun _ => rfl, fun _ => prefix_refl _, ?_⟩
  intro p T
  by_cases hp : p = q
  · subst hp
    by_cases hT : T = (w.replica p).term
    · subst hT
      simp [World.ack]
    · simp only [World.ack, update_self, update_of_ne hT, le_refl]
  · simp only [World.ack, update_of_ne hp, le_refl]

theorem World.Sound.ack {m : ℕ}
    (hw : (w.hist.winner (w.replica q).term).isSome) (hm : m ≤ (w.hist.lead (w.replica q).term).length)
    (hl : (w.replica q).log.take m = (w.hist.lead (w.replica q).term).take m) :
    (w.ack q m).Sound Q termOf := by
  have hr := hs.replica q
  have g := ack_grows w q m
  have hnew : (w.ack q m).hist.acked q (w.replica q).term =
      max (w.hist.acked q (w.replica q).term) m := by
    simp [World.ack]
  have hold : ∀ {T}, T ≠ (w.replica q).term → (w.ack q m).hist.acked q T = w.hist.acked q T := by
    intro T hT
    simp only [World.ack, update_self, update_of_ne hT]
  have hoth : ∀ {p}, p ≠ q → (w.ack q m).hist.acked p = w.hist.acked p := by
    intro p hp
    simp only [World.ack, update_of_ne hp]
  have hbd : max (w.hist.acked q (w.replica q).term) m ≤
      (w.hist.lead (w.replica q).term).length := by
    rcases eq_zero_or_pos (w.hist.acked q (w.replica q).term) with h0 | hpos
    · simpa [h0] using hm
    · exact max_le (hs.hist.acked_lead hpos).2 hm
  have hlog : (w.replica q).log.take (max (w.hist.acked q (w.replica q).term) m) =
      (w.hist.lead (w.replica q).term).take (max (w.hist.acked q (w.replica q).term) m) := by
    rcases le_total (w.hist.acked q (w.replica q).term) m with h | h
    · rw [max_eq_right h, hl]
    · rw [max_eq_left h, hr.acked_log]
  have hupdate : w.replica = update w.replica q (w.replica q) := by simp
  rw [show w.ack q m = ⟨(w.ack q m).hist, update w.replica q (w.replica q)⟩ by
    rw [← hupdate]; rfl]
  apply hs.of_update q g
  · exact { hs.hist with
      acked_lead := by
        intro p T ha
        by_cases hp : p = q
        · subst hp
          by_cases hT : T = (w.replica p).term
          · subst hT
            exact ⟨hw, hnew ▸ hbd⟩
          · rw [hold hT] at ha ⊢
            exact hs.hist.acked_lead ha
        · rw [hoth hp] at ha ⊢
          exact hs.hist.acked_lead ha
      ballot_kept := by
        intro p T' c l hb hel T i hT hbl hi
        by_cases hp : p = q
        · subst hp
          have hne : T ≠ (w.replica p).term := by
            have := hr.ballot_term hb
            omega
          rw [hold hne] at hi
          exact hs.hist.ballot_kept hb hel T i hT hbl hi
        · rw [hoth hp] at hi
          exact hs.hist.ballot_kept hb hel T i hT hbl hi }
  · intro p hp
    exact ⟨rfl, fun _ => rfl, hoth hp, id, fun _ => rfl⟩
  · exact { hr with
      acked_term := by
        intro T ha
        by_cases hT : T = (w.replica q).term
        · exact hT.le
        · rw [hold hT] at ha
          exact hr.acked_term ha
      acked_log := by
        rw [hnew]
        exact hlog
      acked_kept := by
        intro T i hb hi
        by_cases hT : T = (w.replica q).term
        · subst hT
          rw [hnew] at hi
          exact .inl (take_eq_of_le hlog hi)
        · rw [hold hT] at hi
          exact hr.acked_kept T i hb hi
      commit_decided := g.decided le_rfl hr.commit_decided }

omit hs

/-! ## Runs -/

variable {q : ν}

theorem Move.sound (m : Move Q termOf q w w') (hs : w.Sound Q termOf) : w'.Sound Q termOf := by
  cases m with
  | raise T v hT => exact hs.raise q v hT
  | yield => exact hs.yield q
  | stand => exact hs.stand q
  | cast c cl hv hb hu => exact hs.cast q c hv hb hu
  | elect hp hq => exact hs.elect hp hq
  | append e hp he => exact hs.append hp he
  | adopt k hp hw hk hc => exact hs.adopt q hp hw hc hk
  | ack m hw hm hl => exact hs.ack hw hm hl
  | commit c hle hc hd => exact hs.commit q hc hd

theorem Move.grows (m : Move Q termOf q w w') (hs : w.Sound Q termOf) : w.hist.Grows w'.hist := by
  cases m with
  | stand => exact hs.stand_grows q
  | cast c => exact cast_grows w q c
  | elect hp hq => exact hs.elect_grows hp hq
  | append e hp => exact hs.append_grows e hp
  | ack m => exact ack_grows w q m
  | raise | yield | adopt | commit => exact refl _

theorem Move.replica_of_ne (m : Move Q termOf q w w') (hp : p ≠ q) : w'.replica p = w.replica p := by
  cases m with
  | ack => rfl
  | _ => exact update_of_ne hp _ _

theorem Move.term_le_self (m : Move Q termOf q w w') : (w.replica q).term ≤ (w'.replica q).term := by
  have hset : ∀ r : Replica ν ε, (w.replica q).term ≤ r.term →
      (w.replica q).term ≤ (update w.replica q r q).term := by
    intro r hr
    rwa [update_self]
  cases m with
  | raise T v hT => exact hset _ hT.le
  | stand => exact hset _ (Nat.le_succ _)
  | ack => exact le_rfl
  | _ => exact hset _ le_rfl

theorem Move.term_le (m : Move Q termOf q w w') (p : ν) : (w.replica p).term ≤ (w'.replica p).term := by
  by_cases hp : p = q
  · subst hp
    exact m.term_le_self
  · rw [m.replica_of_ne hp]

theorem Move.commit_le (m : Move Q termOf q w w') (p : ν) :
    (w.replica p).commit ≤ (w'.replica p).commit := by
  by_cases hp : p = q
  · subst hp
    have hset : ∀ r : Replica ν ε, (w.replica p).commit ≤ r.commit →
        (w.replica p).commit ≤ (update w.replica p r p).commit := by
      intro r hr
      rwa [update_self]
    cases m with
    | ack => exact le_rfl
    | commit c hle => exact hset _ hle
    | _ => exact hset _ le_rfl
  · rw [m.replica_of_ne hp]

/-- A replica confirms nothing of a term it has left. -/
theorem Move.acked_frozen (m : Move Q termOf q w w')
    (hT : T < (w.replica p).term) : w'.hist.acked p T = w.hist.acked p T := by
  cases m with
  | ack =>
    by_cases hp : p = q
    · subst hp
      simp only [World.ack, update_self, update_of_ne hT.ne]
    · simp only [World.ack, update_of_ne hp]
  | raise | yield | stand | cast | elect | append | adopt | commit => rfl

/-- What any number of moves preserves: the history grows, terms and commit
indices rise, and confirmations of terms already left stay as they are. -/
structure World.Later (w w' : World ν ε) : Prop where
  grows : w.hist.Grows w'.hist
  term_le : ∀ p, (w.replica p).term ≤ (w'.replica p).term
  commit_le : ∀ p, (w.replica p).commit ≤ (w'.replica p).commit
  acked_frozen : ∀ {p T}, T < (w.replica p).term → w'.hist.acked p T = w.hist.acked p T

omit [DecidableEq ν] in
theorem World.Later.refl (w : World ν ε) : w.Later w :=
  ⟨History.Grows.refl _, fun _ => le_rfl, fun _ => le_rfl, fun _ => rfl⟩

omit [DecidableEq ν] in
theorem World.Later.trans {w'' : World ν ε} (h : w.Later w') (h' : w'.Later w'') : w.Later w'' where
  grows := h.grows.trans h'.grows
  term_le p := (h.term_le p).trans (h'.term_le p)
  commit_le p := (h.commit_le p).trans (h'.commit_le p)
  acked_frozen hT := (h'.acked_frozen (hT.trans_le (h.term_le _))).trans (h.acked_frozen hT)

theorem Move.later (m : Move Q termOf q w w') (hs : w.Sound Q termOf) : w.Later w' :=
  ⟨m.grows hs, m.term_le, m.commit_le, m.acked_frozen⟩

/-- Any number of moves of replica `q`. -/
abbrev Moves (Q : QuorumSystem ν) (termOf : ε → ℕ) (q : ν) : World ν ε → World ν ε → Prop :=
  Relation.ReflTransGen (Move Q termOf q)

theorem Moves.sound (m : Moves Q termOf q w w') (hs : w.Sound Q termOf) : w'.Sound Q termOf := by
  induction m with
  | refl => exact hs
  | tail _ hm ih => exact hm.sound ih

theorem Moves.later (m : Moves Q termOf q w w') (hs : w.Sound Q termOf) : w.Later w' := by
  induction m with
  | refl => exact World.Later.refl w
  | tail hms hm ih => exact ih.trans (hm.later (Moves.sound hms hs))

theorem Moves.replica_of_ne (m : Moves Q termOf q w w') (hp : p ≠ q) : w'.replica p = w.replica p := by
  induction m with
  | refl => rfl
  | tail _ hm ih => rw [hm.replica_of_ne hp, ih]

omit [DecidableEq ν] in
/-- A leader that gets an entry beyond its present log chosen later holds all that
is decided now: a replica that has confirmed anything of a later term will not
confirm the entry. -/
theorem World.Later.decided_prefix_lead (hl : w.Later w') (hs : w.Sound Q termOf) {T' i : ℕ}
    {p : List ε} (hw : (w.hist.winner T).isSome) (hc : Chosen Q w'.hist T i)
    (hi : (w.hist.lead T).length < i) (hd : Decided Q w.hist T' p) : p <+: w.hist.lead T := by
  rcases hd with rfl | ⟨T₀, i₀, -, hc₀, hp⟩
  · exact nil_prefix
  · rcases lt_or_ge T T₀ with hlt | hge
    · obtain ⟨v, hv, hv₀⟩ := Q.inter hc.2.2.2 hc₀.2.2.2
      have hterm : T₀ ≤ (w.replica v).term :=
        (hs.replica v).acked_term ((Nat.zero_lt_of_lt hc₀.2.1).trans_le hv₀)
      have hfrozen : w'.hist.acked v T = w.hist.acked v T := hl.acked_frozen (hlt.trans_le hterm)
      have hack : i ≤ w.hist.acked v T := hfrozen ▸ hv
      have := (hs.hist.acked_lead ((Nat.zero_lt_of_lt hi).trans_le hack)).2
      omega
    · exact hs.hist.decided_prefix_lead (.inr ⟨T₀, i₀, le_rfl, hc₀, hp⟩) hge hw

end Preservation

end Charlotte.Lib.ReplicatedLog
