import Charlotte.Graft.Refinement.Run

/-!
# Election safety

In a cluster with a fixed membership each term has at most one leader, and each
node grants at most one candidate its vote in a term, as long as the snapshots
can carry the members' ids.

They cannot carry every id. The text of a snapshot lists the members as objects,
and the reader takes the first closing brace for the end of one, so a member with
a brace in its id comes back without its role, as a voter. A cluster whose
learners have such ids counts its votes differently on the nodes that have
installed a snapshot.
-/

namespace Charlotte.Graft

open Lib Lib.ReplicatedLog List Option Graft.Action

namespace Cluster

variable {σ : Type} {S : Setting σ} {C : ClusterConfiguration} {g : Shadow S C}
  {c : Cluster σ}

theorem Refines.winner (hc : c.Refines g) {q : Text} {n : RaftNode σ} (hn : c.nodes q = some n)
    (hl : n.state = .leader) : g.world.hist.winner n.currentTerm = some q := by
  have hm := (hc.node hn).1.holds
  rw [hm.term]
  exact hm.winner hl

/-- The winner of a term is the same whenever one looks. -/
theorem winner_unique {shadows : ℕ → Shadow S C}
    (hlat : ∀ j k, j ≤ k → (shadows j).Later (shadows k)) {j k T : ℕ} {p p' : Text}
    (h : (shadows j).world.hist.winner T = some p)
    (h' : (shadows k).world.hist.winner T = some p') : p = p' := by
  apply some.inj
  rcases Nat.le_total j k with hle | hle
  · rw [← h', (hlat j k hle).world.grows.winner h]
  · rw [← h, (hlat k j hle).world.grows.winner h']

/-- The cluster has had one leader in each term, and no node has voted twice. -/
theorem election_safety (hS : S.Fixed C) (hR : C.Readable) {steps : List Step}
    (hk : ∀ s ∈ steps, s.action.KeepsMembership) : (∀ T p p', (p, .elected T) ∈ (run S steps).history →
      (p', .elected T) ∈ (run S steps).history → p = p') ∧
    (∀ T p c c', (p, .granted T c) ∈ (run S steps).history →
      (p, .granted T c') ∈ (run S steps).history → c = c') ∧
    ∀ j k p p' n n', (run S (steps.take j)).nodes p = some n →
      (run S (steps.take k)).nodes p' = some n' → n.state = .leader → n'.state = .leader →
      n.currentTerm = n'.currentTerm → p = p' := by
  obtain ⟨_, href, hlat⟩ := exists_shadows hS hR hk
  have hend := href steps.length
  rw [take_length] at hend
  refine ⟨?_, ?_, ?_⟩
  · intro T p p' hp hp'
    exact winner_unique hlat (hend.history hp) (hend.history hp')
  · intro T p c c' hc hc'
    obtain ⟨l, hl⟩ := hend.history hc
    obtain ⟨_, hl'⟩ := hend.history hc'
    exact congrArg Prod.fst (some.inj (hl.symm.trans hl'))
  · intro j k p p' n n' hn hn' hl hl' hT
    have hw' := (href k).winner hn' hl'
    rw [← hT] at hw'
    exact winner_unique hlat ((href j).winner hn hl) hw'

end Cluster

open Cluster

/-! ## A recording application -/

/-- An application whose state is the bytes of all commands. -/
def recorder : StateMachine Bytes where
  applyWithResult s _ data := (s ++ data, [])
  snapshot s := s
  restore _ data := .ok data
  reset _ := []
  query := some fun s _ => s

/-- The members of a configuration, each running the recorder and compacting its
log from two applied entries on. -/
def recorderSetting (C : ClusterConfiguration) : Setting Bytes where
  machine := recorder
  launch id := (C.currentMembers.get? id).map fun me => ⟨me, 100, some [], C, 2, 4096⟩
  launched := by
    intro id config h
    obtain ⟨me, hme, rfl⟩ := Option.map_eq_some_iff.mp h
    exact C.currentMembers.keyed hme

theorem recorderSetting_fixed {C : ClusterConfiguration} (hC : C.IsStable) :
    (recorderSetting C).Fixed C where
  stable := hC
  launch := by
    intro id config h
    obtain ⟨_, _, rfl⟩ := map_eq_some_iff.mp h
    rfl
  restores _ _ := rfl

/-- A step that no crash cuts short. -/
def Action.whole (action : Action) : Step := ⟨action, none⟩

/-- Deliver a message with up to eight entries. -/
def deliverAt (position : ℕ) : Step := (deliver position 8 false 0).whole

/-- Two voters with ids that a snapshot can carry. -/
def twoVoters : ClusterConfiguration :=
  ⟨Members.collect [.voter (ascii "a") 1, .voter (ascii "b") 2], .empty, by decide⟩

/-- The first voter is elected by both. -/
def twoVotersElection : List Step :=
  [(start (ascii "a") 0).whole, (start (ascii "b") 0).whole,
    (startElection (ascii "a") 0).whole, deliverAt 3, deliverAt 8]

theorem election_safety_twoVoters : (ascii "a", .elected 1) ∈
        (Cluster.run (recorderSetting twoVoters) twoVotersElection).history ∧ ∀ p, (p, .elected 1) ∈
        (Cluster.run (recorderSetting twoVoters) twoVotersElection).history → p = ascii "a" := by
  have hmem : (ascii "a", .elected 1) ∈
      (run (recorderSetting twoVoters) twoVotersElection).history := by decide
  refine ⟨hmem, fun p hp => ?_⟩
  exact (election_safety (recorderSetting_fixed (C := twoVoters) rfl) (by decide)
    (by decide)).1 1 p (ascii "a") hp hmem

/-- One voter and two learners that a snapshot turns into voters. -/
def bracedLearners : ClusterConfiguration :=
  ⟨Members.collect [.voter (ascii "a") 1, .learner (ascii "b\x7d") 2,
    .learner (ascii "c\x7d") 3], .empty, by decide⟩

/-- The voter leads alone and sends its snapshot to the learners, which then
elect one of them in the next term. -/
def learnersElection : List Step :=
  [(start (ascii "a") 0).whole, (start (ascii "b\x7d") 0).whole,
    (start (ascii "c\x7d") 0).whole, (startElection (ascii "a") 0).whole,
    (submitCommand (ascii "a") [7] 0).whole, (broadcastHeartbeat (ascii "a") 0).whole,
    deliverAt 9, deliverAt 10, (startElection (ascii "b\x7d") 0).whole,
    deliverAt 25, deliverAt 30]

/-- The voter, unaware of the election, stands in the same term. -/
def rivalElections : List Step :=
  learnersElection ++ [(startElection (ascii "a") 0).whole]

/-- One term has two leaders. -/
theorem two_leaders_of_bracedLearners : (recorderSetting bracedLearners).Fixed bracedLearners ∧
      (∀ s ∈ rivalElections, s.action.KeepsMembership) ∧ ¬∀ T p p', (p, .elected T) ∈
          (Cluster.run (recorderSetting bracedLearners) rivalElections).history → (p', .elected T) ∈
          (Cluster.run (recorderSetting bracedLearners) rivalElections).history → p = p' := by
  refine ⟨recorderSetting_fixed rfl, by decide, fun h => ?_⟩
  have hmem : ∀ p ∈ [ascii "a", ascii "b\x7d"], (p, .elected 2) ∈
      (run (recorderSetting bracedLearners) rivalElections).history := by decide +kernel
  rw [forall_mem_cons, forall_mem_singleton] at hmem
  exact absurd (h 2 _ _ hmem.1 hmem.2) (by decide)

end Charlotte.Graft
