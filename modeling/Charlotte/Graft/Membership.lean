import Charlotte.Graft.Types
import Charlotte.Lib.QuorumSystem

/-!
# Cluster membership

`membership.rs`: a configuration is a pair of member maps keyed by peer id. In
the joint phase the second map is not empty, and a decision needs a majority of
the voters of each. The constructors assert that a configuration has members;
they return `none` where that assertion stops the process.
-/

namespace Charlotte.Graft

open Std List Lib.QuorumSystem Bool

/-- A member map: every peer is filed under its own id. -/
@[ext]
structure Members where
  byId : TextMap Peer
  keyed : ∀ {id : Text} {peer : Peer}, byId[id]? = some peer → peer.id = id

namespace Members

def empty : Members := ⟨∅, by simp⟩

variable (members : Members)

def insert (peer : Peer) : Members where
  byId := members.byId.insert peer.id peer
  keyed := by
    intro id p hp
    rw [ExtTreeMap.getElem?_insert] at hp
    split at hp
    · rename_i heq
      rw [← Option.some.inj hp]
      exact LawfulEqOrd.eq_of_compare heq
    · exact members.keyed hp

/-- Collect peers by id; a later peer replaces an earlier one of the same id. -/
def collect (peers : List Peer) : Members := peers.foldl insert empty

def isEmpty : Bool := members.byId.isEmpty

/-- The peers in the order of their ids. -/
def values : List Peer := members.byId.toList.map Prod.snd

def get? (id : Text) : Option Peer := members.byId[id]?

def contains (id : Text) : Bool := members.byId.contains id

end Members

open Members

/-- Normalised membership. It is stable while `nextMembers` is empty. -/
@[ext]
structure ClusterConfiguration where
  currentMembers : Members
  nextMembers : Members
  nonempty : currentMembers.isEmpty = false

/-- A strict majority of the voters is in the set, and there are voters. -/
def hasMajority (members : Members) (peerIds : TextSet) : Bool :=
  let voterCount := (members.values.filter Peer.isVoter).length
  decide (0 < voterCount) &&
    decide (voterCount / 2 <
      (members.values.filter fun peer => peer.isVoter && peerIds.contains peer.id).length)

/-- The peers whose id was not seen before, in order. -/
def distinctById (seen : TextSet) : List Peer → List Peer
  | [] => []
  | peer :: rest =>
    if seen.contains peer.id then distinctById seen rest
    else peer :: distinctById (seen.insert peer.id) rest

namespace ClusterConfiguration

/-- `none` where the source asserts that the configuration is not empty. -/
def stable (members : List Peer) : Option ClusterConfiguration :=
  if h : (collect members).isEmpty = false then
    some ⟨collect members, empty, h⟩
  else none

variable (c : ClusterConfiguration)

def isJointConsensus : Bool := !c.nextMembers.isEmpty

def allMembers : List Peer :=
  distinctById ∅ (c.currentMembers.values ++ c.nextMembers.values)

def contains (peerId : Text) : Bool :=
  c.currentMembers.contains peerId || c.nextMembers.contains peerId

def isVoter (peerId : Text) : Bool :=
  (c.currentMembers.get? peerId).any Peer.isVoter || (c.nextMembers.get? peerId).any Peer.isVoter

/-- `none` where the source asserts that the proposed membership is not empty. -/
def transitionTo (proposed : List Peer) : Option ClusterConfiguration :=
  if (collect proposed).isEmpty then none
  else some ⟨c.currentMembers, collect proposed, c.nonempty⟩

def finalizeTransition : ClusterConfiguration :=
  if h : c.nextMembers.isEmpty = false then ⟨c.nextMembers, empty, h⟩ else c

def hasJointMajority (peerIds : TextSet) : Bool :=
  hasMajority c.currentMembers peerIds && (!c.isJointConsensus || hasMajority c.nextMembers peerIds)

/-- In the joint phase the peers that vote before and after it. -/
def activeVotingMembers : List Peer :=
  if c.isJointConsensus then
    c.currentMembers.values.filter fun peer =>
      peer.isVoter && (c.nextMembers.get? peer.id).any Peer.isVoter
  else c.currentMembers.values.filter Peer.isVoter

end ClusterConfiguration

/-! ## Member maps -/

namespace Members

variable {m : Members} {peer : Peer} {id : Text}

theorem mem_values : peer ∈ m.values ↔ m.get? peer.id = some peer := by
  simp only [values, mem_map, Prod.exists, exists_eq_right,
    ExtTreeMap.mem_toList_iff_getElem?_eq_some]
  constructor
  · rintro ⟨_, hid⟩
    rwa [get?, m.keyed hid]
  · intro h
    exact ⟨peer.id, h⟩

theorem contains_eq_isSome : m.contains id = (m.get? id).isSome :=
  ExtTreeMap.contains_eq_isSome_getElem?

theorem nodup_ids : (m.values.map Peer.id).Nodup := by
  have hids : m.values.map Peer.id = m.byId.toList.map Prod.fst := by
    rw [values, map_map]
    apply map_congr_left
    rintro ⟨_, _⟩ hp
    exact m.keyed (ExtTreeMap.mem_toList_iff_getElem?_eq_some.mp hp)
  rw [hids, List.Nodup, pairwise_map]
  refine ExtTreeMap.distinct_keys_toList.imp ?_
  intro a b hne heq
  exact hne (by rw [heq]; exact ReflOrd.compare_self)

theorem get?_insert (p : Peer) (id : Text) :
    (m.insert p).get? id = if p.id = id then some p else m.get? id := by
  simp only [get?, insert, ExtTreeMap.getElem?_insert, Std.compare_eq_iff_eq]

variable {peers : List Peer}

theorem get?_foldl_insert_of_ne (h : ∀ p ∈ peers, p.id ≠ id) :
    (peers.foldl insert m).get? id = m.get? id := by
  induction peers generalizing m with
  | nil => rfl
  | cons p rest ih =>
    rw [forall_mem_cons] at h
    rw [foldl_cons, ih h.2, get?_insert, if_neg h.1]

theorem get?_foldl_insert_of_mem (hd : (peers.map Peer.id).Nodup)
    (hp : peer ∈ peers) : (peers.foldl insert m).get? peer.id = some peer := by
  induction peers generalizing m with
  | nil => cases hp
  | cons p rest ih =>
    rw [map_cons, nodup_cons] at hd
    rw [foldl_cons]
    rcases mem_cons.mp hp with rfl | hp
    · rw [get?_foldl_insert_of_ne, get?_insert, if_pos rfl]
      intro p' hp' heq
      exact hd.1 (mem_map.mpr ⟨p', hp', heq⟩)
    · exact ih hd.2 hp

theorem collect_values : collect m.values = m := by
  apply Members.ext
  apply ExtTreeMap.ext_getElem?
  intro id
  change (collect m.values).get? id = m.get? id
  cases hid : m.get? id with
  | some p =>
    have hp : p.id = id := m.keyed hid
    subst hp
    exact get?_foldl_insert_of_mem nodup_ids (mem_values.mpr hid)
  | none =>
    rw [collect, get?_foldl_insert_of_ne]
    · simp [get?, empty]
    · rintro p hp rfl
      rw [mem_values.mp hp] at hid
      cases hid

/-- The ids of the voters. -/
def voters (m : Members) : Finset Text :=
  ((m.values.filter Peer.isVoter).map Peer.id).toFinset

theorem mem_voters : id ∈ m.voters ↔ (m.get? id).any Peer.isVoter = true := by
  simp only [voters, mem_toFinset, mem_map, mem_filter, mem_values, Option.any_eq_true]
  constructor
  · rintro ⟨p, ⟨hp, hv⟩, rfl⟩
    exact ⟨p, hp, hv⟩
  · rintro ⟨p, hp, hv⟩
    have := m.keyed hp
    subst this
    exact ⟨p, ⟨hp, hv⟩, rfl⟩

theorem card_filter_ids (keep : Peer → Bool) :
    (((m.values.filter keep).map Peer.id).toFinset).card = (m.values.filter keep).length := by
  rw [toFinset_card_of_nodup, length_map]
  exact nodup_ids.sublist (filter_sublist.map _)

end Members

/-- The majority test of the source recognises quorums of the voters. -/
theorem isQuorum_of_hasMajority {m : Members} {peerIds : TextSet}
    (h : hasMajority m peerIds = true) :
    (majority m.voters).IsQuorum {id | peerIds.contains id = true} := by
  simp only [hasMajority, and_eq_true, decide_eq_true_eq] at h
  refine ⟨((m.values.filter fun peer => peer.isVoter && peerIds.contains peer.id).map
    Peer.id).toFinset, ?_, ?_, ?_⟩
  · intro id hid
    simp only [mem_toFinset, mem_map, mem_filter, and_eq_true] at hid
    obtain ⟨p, ⟨hp, hv, -⟩, rfl⟩ := hid
    rw [mem_voters, mem_values.mp hp]
    exact hv
  · rw [voters, card_filter_ids, card_filter_ids]
    exact h.2
  · intro id hid
    simp only [mem_toFinset, mem_map, mem_filter, and_eq_true] at hid
    obtain ⟨p, ⟨-, -, hc⟩, rfl⟩ := hid
    exact hc

variable {seen : TextSet} {peers : List Peer} {peer : Peer}

theorem mem_distinctById (h : peer ∈ distinctById seen peers) : peer ∈ peers := by
  induction peers generalizing seen with
  | nil => cases h
  | cons p rest ih =>
    rw [distinctById] at h
    split at h
    · exact mem_cons_of_mem _ (ih h)
    · rcases mem_cons.mp h with rfl | h
      · exact mem_cons_self
      · exact mem_cons_of_mem _ (ih h)

/-- Every id is still represented after dropping repeated ids. -/
theorem exists_mem_distinctById (h : peer ∈ peers) (hs : seen.contains peer.id = false) :
    ∃ p ∈ distinctById seen peers, p.id = peer.id := by
  induction peers generalizing seen with
  | nil => cases h
  | cons p rest ih =>
    rw [distinctById]
    rcases mem_cons.mp h with rfl | h
    · simp [hs]
    · split
      · exact ih h hs
      by_cases heq : p.id = peer.id
      · exact ⟨p, mem_cons_self, heq⟩
      · have hs' : (seen.insert p.id).contains peer.id = false := by
          simpa [ExtTreeSet.contains_insert, heq] using hs
        obtain ⟨p', hp', hid⟩ := ih h hs'
        exact ⟨p', mem_cons_of_mem _ hp', hid⟩

namespace ClusterConfiguration

variable {c : ClusterConfiguration} {id : Text}

/-- The voters of the current member set. -/
def voters (c : ClusterConfiguration) : Finset Text := c.currentMembers.voters

/-- No change of membership is under way. -/
def IsStable (c : ClusterConfiguration) : Prop := c.nextMembers = empty

theorem IsStable.isJointConsensus (h : c.IsStable) : c.isJointConsensus = false := by
  rw [ClusterConfiguration.isJointConsensus, show c.nextMembers = _ from h]
  rfl

theorem hasMajority_current {peerIds : TextSet} (h : c.hasJointMajority peerIds = true) :
    hasMajority c.currentMembers peerIds = true := by
  rw [hasJointMajority, and_eq_true] at h
  exact h.1

theorem isQuorum_of_hasJointMajority {peerIds : TextSet} (hm : c.hasJointMajority peerIds = true) :
    (majority c.voters).IsQuorum {id | peerIds.contains id = true} :=
  isQuorum_of_hasMajority (hasMajority_current hm)

/-- A stable configuration is rebuilt from the list of its members. -/
theorem IsStable.stable_values (h : c.IsStable) : stable c.currentMembers.values = some c := by
  have hne := c.nonempty
  rw [stable]
  simp only [collect_values, hne, ↓reduceDIte, Option.some.injEq]
  exact ClusterConfiguration.ext rfl (Eq.symm h)

/-! ## Neighbouring configurations -/

def memberLists (c : ClusterConfiguration) : List Members := [c.currentMembers, c.nextMembers]

variable {d : ClusterConfiguration} {proposed : List Peer} {A B : TextSet}

/-- A configuration shares a member list with what a transition or its end makes of
it, and a joint majority of either is a majority of that list. -/
theorem exists_shared_memberList
    (hd : d = c ∨ c.transitionTo proposed = some d ∨ d = c.finalizeTransition)
    (ha : c.hasJointMajority A = true) (hb : d.hasJointMajority B = true) :
    ∃ m ∈ c.memberLists, m ∈ d.memberLists ∧ hasMajority m A = true ∧ hasMajority m B = true := by
  have hA := hasMajority_current ha
  have hB := hasMajority_current hb
  have same : d = c → ∃ m ∈ c.memberLists, m ∈ d.memberLists ∧ hasMajority m A = true ∧
      hasMajority m B = true := by
    rintro rfl
    exact ⟨_, mem_cons_self, mem_cons_self, hA, hB⟩
  rcases hd with hd | hd | hd
  · exact same hd
  · -- a proposal replaces the next members and keeps the current ones
    rw [transitionTo] at hd
    split at hd
    · cases hd
    · cases hd
      exact ⟨_, mem_cons_self, mem_cons_self, hA, hB⟩
  · rw [finalizeTransition] at hd
    split at hd
    · rename_i hj
      subst hd
      refine ⟨c.nextMembers, mem_cons_of_mem _ mem_cons_self, mem_cons_self, ?_, hB⟩
      simpa [hasJointMajority, isJointConsensus, hA, hj] using ha
    · exact same hd

/-- Quorums of neighbouring configurations meet in a voter of a list that both have,
and whoever is active in the joint phase votes after it. -/
theorem neighbour_quorums_meet (c : ClusterConfiguration) (proposed : List Peer) :
    (∀ d, d = c ∨ c.transitionTo proposed = some d ∨ d = c.finalizeTransition →
      ∀ A B : TextSet, c.hasJointMajority A = true → d.hasJointMajority B = true →
        ∃ m ∈ c.memberLists, m ∈ d.memberLists ∧
          ∃ id ∈ m.voters, A.contains id = true ∧ B.contains id = true) ∧
    (c.isJointConsensus = true →
      ∀ peer ∈ c.activeVotingMembers, peer.id ∈ c.finalizeTransition.voters) := by
  constructor
  · intro d hd A B ha hb
    obtain ⟨m, hmc, hmd, hA, hB⟩ := exists_shared_memberList hd ha hb
    obtain ⟨S, hSV, hS, hSA⟩ := isQuorum_of_hasMajority hA
    obtain ⟨R, hRV, hR, hRB⟩ := isQuorum_of_hasMajority hB
    obtain ⟨id, hidS, hidR⟩ := exists_mem_of_majorities hSV hRV hS hR
    exact ⟨m, hmc, hmd, id, hSV hidS, hSA id hidS, hRB id hidR⟩
  · intro hj peer hp
    rw [activeVotingMembers, if_pos hj, mem_filter, and_eq_true] at hp
    rw [isJointConsensus, not_eq_true'] at hj
    rw [finalizeTransition, dif_pos hj, voters, mem_voters]
    exact hp.2.2

end ClusterConfiguration

end Charlotte.Graft
