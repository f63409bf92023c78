import Charlotte.Ingress.Policy

/-!
# The policy in force

`SnapshotHistory` replaces a snapshot of a known epoch where it stands, while the current one is
the last. What was installed is in force exactly as long as no epoch returns that is still held
but no longer the current one.
-/

namespace Charlotte.Ingress

open List Option

namespace SnapshotHistory

def run (capacity : ℕ) (calls : List BackendSnapshot) : SnapshotHistory :=
  calls.foldl install (new capacity)

variable (calls : List BackendSnapshot)

/-- The latest snapshot of every epoch, the one that was installed last in front. -/
def recent : List BackendSnapshot :=
  calls.foldl (fun known s => s :: known.filter (·.epoch != s.epoch)) []

/-- What holds right after the last of the calls. -/
structure InForce (capacity : ℕ) (earlier : List BackendSnapshot) (s : BackendSnapshot) : Prop where
  current : (run capacity (earlier ++ [s])).current = some s
  installed : (run capacity (earlier ++ [s])).get s.epoch = some s
  recent : ∀ latest ∈ (recent (earlier ++ [s])).take capacity,
    (run capacity (earlier ++ [s])).get latest.epoch = some latest

/-- The epoch is held, but it is not the current one. -/
def Returns (h : SnapshotHistory) (s : BackendSnapshot) : Prop :=
  (∃ held ∈ h.snapshots, held.epoch = s.epoch) ∧ ∀ c, h.current = some c → c.epoch ≠ s.epoch

variable {h : SnapshotHistory} {s : BackendSnapshot} {capacity : ℕ} {earlier : List BackendSnapshot}

theorem run_concat : run capacity (earlier ++ [s]) = (run capacity earlier).install s := by
  simp [run]

theorem recent_concat :
    recent (earlier ++ [s]) = s :: (recent earlier).filter (·.epoch != s.epoch) := by
  simp [recent]

theorem capacity_run : (run capacity calls).capacity = capacity := by
  induction calls using reverseRecOn with
  | nil => rfl
  | append_singleton earlier s ih =>
    rw [run_concat, install]
    split
    · exact ih
    · split <;> exact ih

theorem distinct_recent : (recent calls).Pairwise fun a b => a.epoch ≠ b.epoch := by
  induction calls using reverseRecOn with
  | nil => exact .nil
  | append_singleton earlier s ih =>
    rw [recent_concat]
    refine .cons (fun other hoth => ?_) (ih.filter _)
    have hne := (mem_filter.mp hoth).2
    exact fun heq => by simp [heq] at hne

/-- A snapshot of the current epoch or of one that is not held becomes the newest. -/
theorem install_spec {known : List BackendSnapshot} (hcap : 0 < h.capacity)
    (hkn : h.snapshots.reverse = known.take h.capacity)
    (hdis : known.Pairwise fun a b => a.epoch ≠ b.epoch) (hs : ¬ Returns h s) :
    (h.install s).snapshots.reverse = (s :: known.filter (·.epoch != s.epoch)).take h.capacity := by
  obtain ⟨room, hroom⟩ := Nat.exists_eq_succ_of_ne_zero hcap.ne'
  have hmem : ∀ x, x ∈ h.snapshots ↔ x ∈ known.take h.capacity := by simp [← hkn]
  rw [install, if_neg hcap.ne', hroom, take_succ_cons]
  cases hfind : h.snapshots.findIdx? (·.epoch == s.epoch) with
  | none =>
    have hnone : ∀ x ∈ known.take (room + 1), x.epoch ≠ s.epoch := fun x hx => by
      simpa using findIdx?_eq_none_iff.mp hfind x ((hmem x).mpr (hroom ▸ hx))
    have hfilter : (known.filter (·.epoch != s.epoch)).take room = known.take room := by
      have hsplit := congrArg (filter (·.epoch != s.epoch)) (take_append_drop (room + 1) known)
      rw [filter_append, filter_eq_self.mpr (by simpa using hnone)] at hsplit
      rw [← hsplit, take_append, take_take, length_take]
      by_cases hlong : room + 1 ≤ known.length
      · simp [hlong]
      · simp [drop_eq_nil_of_le (Nat.le_of_not_le hlong)]
    rw [hfilter]
    simp only [reverse_append, reverse_singleton, singleton_append]
    refine congrArg (s :: ·) ?_
    have hlen := congrArg length hkn
    rw [length_reverse, length_take] at hlen
    split
    · rw [← dropLast_reverse, hkn, dropLast_eq_take, take_take, length_take]
      exact congrArg (known.take ·) (by omega)
    · rw [hkn, take_of_length_le (by omega), take_of_length_le (by omega)]
  | some index =>
    obtain ⟨held, hheld, hepoch⟩ : ∃ held ∈ h.snapshots, held.epoch = s.epoch := by
      by_contra hnone
      rw [findIdx?_eq_none_iff.mpr (by simpa using hnone)] at hfind
      cases hfind
    obtain ⟨c, hcur, hc⟩ : ∃ c, h.current = some c ∧ c.epoch = s.epoch := by
      by_contra hnone
      exact hs ⟨⟨held, hheld, hepoch⟩, fun c hcur heq => hnone ⟨c, hcur, heq⟩⟩
    obtain ⟨older, hsnap⟩ := getLast?_eq_some_iff.mp hcur
    cases known with
    | nil => simp [hsnap] at hkn
    | cons first rest =>
      rw [hsnap, hroom, take_succ_cons, reverse_append, reverse_singleton, singleton_append] at hkn
      obtain ⟨rfl, hrest⟩ := cons.inj hkn
      obtain ⟨hne, -⟩ := pairwise_cons.mp hdis
      have hoths : ∀ x ∈ rest, x.epoch ≠ s.epoch := fun x hx => hc ▸ (hne x hx).symm
      have holder : ∀ x ∈ older, x.epoch ≠ s.epoch := fun x hx =>
        hoths x (mem_of_mem_take (hrest ▸ mem_reverse.mpr hx))
      have hidx : index = older.length := by
        rw [hsnap, findIdx?_append, findIdx?_eq_none_iff.mpr (by simpa using holder)] at hfind
        simpa [hc, eq_comm] using hfind
      rw [filter_cons_of_neg (by simp [hc]), filter_eq_self.mpr (by simpa using hoths), ← hrest]
      simp [hsnap, hidx]

theorem current_install_ne (hcap : 0 < h.capacity) (hs : Returns h s) :
    (h.install s).current ≠ some s := by
  obtain ⟨⟨held, hheld, hepoch⟩, hcur⟩ := hs
  rw [install, if_neg hcap.ne']
  cases hfind : h.snapshots.findIdx? (·.epoch == s.epoch) with
  | none => exact absurd hepoch (by simpa using findIdx?_eq_none_iff.mp hfind held hheld)
  | some index =>
    obtain ⟨hlt, hat, -⟩ := findIdx?_eq_some_iff_getElem.mp hfind
    simp only [current, getLast?_eq_getElem?, length_set, getElem?_set] at hcur ⊢
    split
    · rename_i heq
      have hlast := hcur _ (by rw [← heq]; exact getElem?_eq_getElem hlt)
      exact absurd (beq_iff_eq.mp hat) hlast
    · exact fun hsame => hcur s hsame rfl

end SnapshotHistory

open SnapshotHistory

/-- What was installed is in force after every call, exactly if no call brings back an epoch
that is still held behind the current one. -/
theorem installed_in_force_iff {capacity : ℕ} (hcapacity : 0 < capacity)
    (calls : List BackendSnapshot) :
    (∀ earlier s, earlier ++ [s] <+: calls → InForce capacity earlier s) ↔
      ∀ earlier s, earlier ++ [s] <+: calls → ¬ Returns (run capacity earlier) s := by
  constructor
  · intro hforce earlier s hcs hretu
    refine current_install_ne (by rwa [capacity_run]) hretu ?_
    rw [← run_concat]
    exact (hforce earlier s hcs).current
  · intro hretu
    -- The history is the front part of the recent snapshots, oldest first.
    have hrun : ∀ earlier, earlier <+: calls →
        (run capacity earlier).snapshots.reverse = (recent earlier).take capacity := by
      intro earlier hearl
      induction earlier using reverseRecOn with
      | nil => simp [run, recent, new]
      | append_singleton earlier s ih =>
        have hstep := install_spec (h := run capacity earlier) (s := s) (by rwa [capacity_run])
          (by rw [capacity_run]; exact ih ((prefix_append _ _).trans hearl)) (distinct_recent earlier)
          (hretu earlier s hearl)
        rwa [capacity_run, ← run_concat, ← recent_concat] at hstep
    intro earlier s hcs
    have hrv := hrun _ hcs
    have hget : ∀ latest ∈ (recent (earlier ++ [s])).take capacity,
        (run capacity (earlier ++ [s])).get latest.epoch = some latest := by
      intro latest hlatest
      have hdis := (distinct_recent (earlier ++ [s])).sublist (take_sublist capacity _)
      rw [← hrv, mem_reverse] at hlatest
      rw [← hrv, pairwise_reverse] at hdis
      obtain ⟨before, _, hsplit⟩ := append_of_mem hlatest
      rw [hsplit, pairwise_append] at hdis
      have hbef : before.find? (·.epoch == latest.epoch) = none := by
        simpa using fun x hx => (hdis.2.2 x hx latest mem_cons_self).symm
      rw [SnapshotHistory.get, hsplit, find?_append, hbef]
      simp
    have hs : s ∈ (recent (earlier ++ [s])).take capacity := by
      obtain ⟨_, rfl⟩ := Nat.exists_eq_succ_of_ne_zero hcapacity.ne'
      rw [recent_concat, take_succ_cons]
      exact mem_cons_self
    refine ⟨?_, hget s hs, hget⟩
    obtain ⟨_, rfl⟩ := Nat.exists_eq_succ_of_ne_zero hcapacity.ne'
    rw [current, ← head?_reverse, hrv, recent_concat, take_succ_cons, head?_cons]

/-- Two policies of the same service, told apart by their epochs. -/
def policyOf (epoch : UInt64) : BackendSnapshot := ⟨epoch, 1, some 1, [⟨epoch, []⟩], [⟨epoch, []⟩]⟩

/-- The eligible set goes from one policy to another and back: the other one stays in force. -/
theorem returning_policy_not_current :
    (run 4 [policyOf 1, policyOf 2, policyOf 1]).current = some (policyOf 2) := by
  decide

theorem installed_in_force_renewed : InForce 4 [policyOf 1] (policyOf 2) := by
  refine (installed_in_force_iff (by decide) [policyOf 1, policyOf 2]).mpr
    (fun earlier s hcs hretu => ?_) _ _ (prefix_refl _)
  obtain ⟨⟨_, hheld, hepoch⟩, -⟩ := hretu
  match earlier with
  | [] => cases hheld
  | [first] =>
    simp only [cons_append, nil_append, cons_prefix_cons, prefix_nil] at hcs
    obtain ⟨rfl, rfl, -⟩ := hcs
    cases mem_singleton.mp hheld
    exact absurd hepoch (by decide)
  | _ :: _ :: _ => simpa using hcs.length_le

end Charlotte.Ingress
