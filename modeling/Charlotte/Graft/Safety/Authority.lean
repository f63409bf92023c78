import Charlotte.Graft.Safety.Calls

/-!
# Who may lead the nodes that elected it

A vote is given to a voter of the configuration at the end of the log, committed or not. A
leader is accepted only as a voter of the committed configuration. While a membership change
is under way the two differ: a node that an uncommitted joint configuration adds can be
elected by nodes that then refuse what it sends.
-/

namespace Charlotte.Graft

variable {σ : Type} {n n' m : RaftNode σ}

open Graft.Action

namespace RaftNode

/-- The node follows another leader of its term. -/
def FollowsOther (n : RaftNode σ) (leaderId : Text) : Prop :=
  n.state = .follower ∧ ∃ leader, n.knownLeaderId = some leader ∧ leader ≠ leaderId

theorem refusesLeader_eq_false_iff {leaderId : Text} (hjoin : n.joining = false) :
    n.refusesLeader leaderId n.currentTerm = false ↔ n.clusterConfiguration.isVoter leaderId = true ∧
      leaderId ≠ n.me.id ∧ ¬ n.FollowsOther leaderId := by
  simp only [refusesLeader, acceptsJoiningLeader, hjoin, FollowsOther]
  constructor
  · intro h
    simp only [Bool.or_eq_false_iff, beq_eq_false_iff_ne, Bool.and_eq_false_iff, Bool.false_and,
      Bool.not_false, Bool.and_true, Bool.not_eq_false', beq_self_eq_true, Bool.true_and] at h
    obtain ⟨⟨hme, hvoter⟩, hoth⟩ := h
    refine ⟨hvoter, hme, ?_⟩
    rintro ⟨hf, _, hl, hne⟩
    simp [hf, hl, hne] at hoth
  · rintro ⟨hvoter, hme, hoth⟩
    cases hl : n.knownLeaderId with
    | none => simp [hme, hvoter]
    | some leader =>
      have hsame : n.state = .follower → leader = leaderId := fun hf =>
        not_not.mp fun hne => hoth ⟨hf, leader, hl, hne⟩
      by_cases hf : n.state = .follower
      · simp [hme, hvoter, hf, hsame hf]
      · simp [hme, hvoter, hf]

variable {request : VoteRequest} {response : VoteResponse} {currentMillis : ℕ}

/-- A node that is being admitted does not vote. -/
theorem not_joining_of_granted (h : n.handleVoteRequest request currentMillis = .ok (n', response))
    (hg : response.voteGranted = true) : n.joining = false := by
  unfold handleVoteRequest at h
  simp only at h
  generalize hs : (if { n with currentMillis }.currentTerm < request.term then
    { n with currentMillis }.stepDown request.term currentMillis
    else { n with currentMillis }) = s at h
  have hsame : s.joining = n.joining := by
    rw [← hs]
    split <;> rfl
  split at h
  · cases h
    cases hg
  · rename_i hcond
    simp only [Bool.or_eq_true, not_or, Bool.not_eq_true] at hcond
    exact hsame.symm.trans hcond.2

end RaftNode

namespace Cluster

variable {S : Setting σ} {steps : List Step} {p : Text} {j k : ℕ} {request : VoteRequest}

/-- In the `j`-th step the node is asked for its vote and gives it. -/
structure Grants (S : Setting σ) (steps : List Step) (j : ℕ) (p : Text) (request : VoteRequest)
    (n : RaftNode σ) : Prop where
  node : (run S (steps.take j)).nodes p = some n
  granted : ∃ position keep echo currentMillis n' response,
    steps[j]? = some ⟨.deliver position keep echo currentMillis, none⟩ ∧
    (run S (steps.take j)).messageAt position = some (.voteRequest p request) ∧
    n.handleVoteRequest request currentMillis = .ok (n', response) ∧ response.voteGranted = true

end Cluster

/-- Three nodes that are launched with a configuration of two of them. -/
def newcomerSetting : Setting Bytes where
  machine := recorder
  launch id := if [ascii "a", ascii "b", ascii "c"].contains id then
    some ⟨.voter id 1, 100, some [], twoVoters, 0, 4096⟩ else none
  launched := by
    intro id config h
    split at h
    · cases h
      rfl
    · cases h

/-- The leader of term 1 proposes a third voter, which receives the uncommitted proposal and is
elected in term 2 by the other two. -/
def newcomerElection : List Step :=
  [(start (ascii "a") 0).whole, (start (ascii "b") 0).whole,
    (start (ascii "c") 0).whole, (startElection (ascii "a") 0).whole, deliverAt 3, deliverAt 8,
    (submitJointConfiguration (ascii "a")
      [.voter (ascii "a") 1, .voter (ascii "b") 1, .voter (ascii "c") 1] 0).whole,
    (broadcastHeartbeat (ascii "a") 0).whole, deliverAt 12, deliverAt 13,
    (startElection (ascii "c") 0).whole, deliverAt 23, deliverAt 24, deliverAt 29, deliverAt 34,
    (broadcastHeartbeat (ascii "c") 0).whole]

/-- The voter that was elected brings its first entry to the other one, which applies it. -/
def followedElection : List Step :=
  twoVotersElection ++ [(broadcastHeartbeat (ascii "a") 0).whole, deliverAt 11, deliverAt 13,
    (broadcastHeartbeat (ascii "a") 0).whole, deliverAt 15]

end Charlotte.Graft
