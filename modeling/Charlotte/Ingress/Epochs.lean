import Charlotte.Ingress.Policy
import Charlotte.Lib.Checks
import Charlotte.Catalog.State

/-!
# Epochs of ingress policies

The epoch of a snapshot is a fingerprint of the policy it was made from. The eligible nodes and the
draining ones are fed to it one after the other without their number, so that an epoch tells two
policies apart only if they have equally many eligible nodes.
-/

namespace Charlotte.Ingress

open Lib List Option
open Graft (Bytes Text ascii)

/-- What `service_load_balancing_epoch` is told. -/
structure Policy where
  membershipEpoch : UInt64
  serviceName : Bytes
  assignmentSequence : UInt64
  deploymentGeneration : UInt64
  serviceGeneration : UInt64
  eligibleNodes : List UInt64
  drainingNodes : List (UInt64 × UInt64)

namespace Policy

def sortNodes (nodes : List UInt64) : List UInt64 := nodes.insertionSort (· ≤ ·)

def sortPairs (pairs : List (UInt64 × UInt64)) : List (UInt64 × UInt64) :=
  pairs.insertionSort fun a b => a.1 < b.1 ∨ a.1 = b.1 ∧ a.2 ≤ b.2

def bytes (p : Policy) : Bytes :=
  ascii "Charlotte ingress policy v2\x00" ++ (word p.membershipEpoch ++
    (word (.ofNat p.serviceName.length) ++ (p.serviceName ++ (word p.assignmentSequence ++
      (word p.deploymentGeneration ++ (word p.serviceGeneration ++
        ((sortNodes p.eligibleNodes).flatMap word ++
          (sortPairs p.drainingNodes).flatMap fun pair => word pair.1 ++ word pair.2)))))))

/-- `service_load_balancing_epoch`. -/
def epoch (p : Policy) : UInt64 := fingerprint p.bytes

end Policy

open Policy

def availabilityBytes (epoch generation : UInt64) : Bytes :=
  ascii "Charlotte ingress availability v1\x00" ++ (word epoch ++ word generation)

def availabilityLoadBalancingEpoch (epoch generation : UInt64) : UInt64 :=
  fingerprint (availabilityBytes epoch generation)

def BackendSnapshot.newWithMembers (epoch selfNode : UInt64) (advertiserNode : Option UInt64)
    (members : List Backend) (eligibleNodes : List UInt64) : Option BackendSnapshot :=
  let sorted := members.mergeSort fun a b => decide (a.nodeId ≤ b.nodeId)
  let known := fun node => sorted.any (·.nodeId == node)
  if members.isEmpty || decide (64 < members.length) ||
      decide (members.length < eligibleNodes.length) ||
      sorted.any (fun backend => backend.mac == List.replicate 6 0 || backend.mac.headD 0 &&& 1 != 0) ||
      !decide ((sorted.map (·.nodeId)).Nodup ∧ (sorted.map (·.mac)).Nodup ∧ eligibleNodes.Nodup) ||
      !eligibleNodes.all known || !advertiserNode.all known then none
  else some ⟨epoch, selfNode, advertiserNode, sorted,
    sorted.filter fun backend => eligibleNodes.contains backend.nodeId⟩

/-! ### Framing -/

theorem word_append_inj {a b : UInt64} {x y : Bytes} (h : word a ++ x = word b ++ y) :
    a = b ∧ x = y := by
  obtain ⟨hword, hrest⟩ := append_inj h (by simp [word])
  have hvl := congrArg leValue hword
  rw [word, word, leValue_leBytes a.toNat_lt, leValue_leBytes b.toNat_lt] at hvl
  exact ⟨UInt64.toNat_inj.mp hvl, hrest⟩

theorem pair_append_inj {p q : UInt64 × UInt64} {x y : Bytes}
    (h : word p.1 ++ word p.2 ++ x = word q.1 ++ word q.2 ++ y) : p = q ∧ x = y := by
  obtain ⟨hfst, h⟩ := word_append_inj h
  obtain ⟨hsnd, h⟩ := word_append_inj h
  exact ⟨Prod.ext hfst hsnd, h⟩

/-- No encoding of an item is empty or the beginning of another: a list is told by its bytes. -/
theorem flatMap_inj {α : Type} {encode : α → Bytes} (hne : ∀ item, encode item ≠ [])
    (hinj : ∀ {a b x y}, encode a ++ x = encode b ++ y → a = b ∧ x = y) {xs ys : List α}
    (h : xs.flatMap encode = ys.flatMap encode) : xs = ys := by
  induction xs generalizing ys with
  | nil =>
    cases ys with
    | nil => rfl
    | cons y => exact absurd (append_eq_nil_iff.mp h.symm).1 (hne y)
  | cons x xs ih =>
    cases ys with
    | nil => exact absurd (append_eq_nil_iff.mp h).1 (hne x)
    | cons =>
      obtain ⟨rfl, hrest⟩ := hinj h
      rw [ih hrest]

namespace Policy

/-- The same policy, up to the order of the nodes. -/
structure Same (a b : Policy) : Prop where
  membershipEpoch : a.membershipEpoch = b.membershipEpoch
  serviceName : a.serviceName = b.serviceName
  assignmentSequence : a.assignmentSequence = b.assignmentSequence
  deploymentGeneration : a.deploymentGeneration = b.deploymentGeneration
  serviceGeneration : a.serviceGeneration = b.serviceGeneration
  eligibleNodes : ∀ node, node ∈ a.eligibleNodes ↔ node ∈ b.eligibleNodes
  drainingNodes : ∀ pair, pair ∈ a.drainingNodes ↔ pair ∈ b.drainingNodes

/-- The nodes are distinct, and a slice is shorter than the address space. -/
structure Proper (p : Policy) : Prop where
  name : p.serviceName.length < 2 ^ 63
  eligible : p.eligibleNodes.Nodup
  draining : (p.drainingNodes.map Prod.fst).Nodup
  apart : ∀ pair ∈ p.drainingNodes, pair.1 ∉ p.eligibleNodes

variable {a b : Policy}

theorem mem_sortNodes {node : UInt64} {nodes : List UInt64} : node ∈ sortNodes nodes ↔ node ∈ nodes :=
  (perm_insertionSort ..).mem_iff

theorem mem_sortPairs {pair : UInt64 × UInt64} {pairs : List (UInt64 × UInt64)} :
    pair ∈ sortPairs pairs ↔ pair ∈ pairs :=
  (perm_insertionSort ..).mem_iff

theorem same_iff_of_bytes_eq (ha : a.Proper) (hb : b.Proper) (h : a.bytes = b.bytes) :
    a.Same b ↔ a.eligibleNodes.length = b.eligibleNodes.length := by
  constructor
  · intro hsame
    exact ((perm_ext_iff_of_nodup ha.eligible hb.eligible).mpr hsame.eligibleNodes).length_eq
  · intro hlen
    have h := append_cancel_left h
    obtain ⟨hmemb, h⟩ := word_append_inj h
    obtain ⟨hname, h⟩ := word_append_inj h
    have hname : a.serviceName.length = b.serviceName.length := by
      have hvl := congrArg UInt64.toNat hname
      have := ha.name
      have := hb.name
      rw [UInt64.toNat_ofNat', UInt64.toNat_ofNat'] at hvl
      omega
    obtain ⟨hname, h⟩ := append_inj h hname
    obtain ⟨hassi, h⟩ := word_append_inj h
    obtain ⟨hdep, h⟩ := word_append_inj h
    obtain ⟨hsvc, h⟩ := word_append_inj h
    obtain ⟨hns, hpairs⟩ := append_inj h (by simp [word, sortNodes, hlen])
    refine ⟨hmemb, hname, hassi, hdep, hsvc, fun node => ?_, fun pair => ?_⟩
    · rw [← mem_sortNodes, flatMap_inj (by simp [word, leBytes]) word_append_inj hns, mem_sortNodes]
    · rw [← mem_sortPairs, flatMap_inj (by simp [word, leBytes]) pair_append_inj hpairs, mem_sortPairs]

/-- The strings that are fed to the hash. -/
def fed (p : Policy) (generation : UInt64) : Set Bytes :=
  {p.bytes, availabilityBytes p.epoch generation}

theorem eq_of_epoch_eq {generation generation' : UInt64}
    (hinj : Set.InjOn fingerprint (a.fed generation ∪ b.fed generation'))
    (h : availabilityLoadBalancingEpoch a.epoch generation =
      availabilityLoadBalancingEpoch b.epoch generation') :
    a.bytes = b.bytes ∧ generation = generation' := by
  have hbs := hinj (.inl (.inr rfl)) (.inr (.inr rfl)) h
  obtain ⟨hepoch, hgen⟩ := word_append_inj (append_cancel_left hbs)
  exact ⟨hinj (.inl (.inl rfl)) (.inr (.inl rfl)) hepoch,
    (word_append_inj (congrArg (· ++ []) hgen)).1⟩

theorem sortNodes_eq {xs ys : List UInt64} (hxs : xs.Nodup) (hys : ys.Nodup)
    (h : ∀ node, node ∈ xs ↔ node ∈ ys) : sortNodes xs = sortNodes ys :=
  Perm.eq_of_pairwise' (pairwise_insertionSort (· ≤ ·) xs) (pairwise_insertionSort (· ≤ ·) ys)
    ((perm_insertionSort ..).trans (((perm_ext_iff_of_nodup hxs hys).mpr h).trans (perm_insertionSort ..).symm))

end Policy

/-! ### The snapshot of a node -/

/-- The availability of the catalog. -/
structure Availability where
  generation : UInt64
  term : UInt64
  membershipEpoch : UInt64
  leaderNode : UInt64
  eligibleNodes : List UInt64

structure Placement where
  deploymentGeneration : UInt64
  serviceGeneration : UInt64
  readyNodes : List UInt64

/-- What `snapshot` reads of a Raft node and of its catalog. -/
structure Replica where
  me : Text
  /-- The node itself while it leads, otherwise the leader it knows. -/
  leader : Option Text
  currentTerm : UInt64
  membershipEpoch : UInt64
  /-- The active voting members. -/
  voters : List Text
  /-- `can_serve_bounded_read`. -/
  readable : Bool
  availability : Option Availability
  drainingNodes : List (UInt64 × UInt64)
  /-- They come from a map. -/
  drains : (drainingNodes.map Prod.fst).Nodup
  placement : Bytes → Option Placement
  assignmentSequence : UInt64

namespace Replica

variable (key : Text → Option UInt64)

variable (r : Replica)

def current : Option Availability := do
  reject (!r.readable)
  let entry ← r.availability
  let leader ← r.leader
  reject (entry.term != r.currentTerm || entry.membershipEpoch != r.membershipEpoch ||
    key leader != some entry.leaderNode ||
    entry.eligibleNodes.any fun node => !r.voters.any fun voter => key voter == some node)
  some entry

/-- The draining nodes among the nodes of the members. -/
def draining (nodes : List UInt64) : List (UInt64 × UInt64) :=
  r.drainingNodes.filter fun pair => nodes.contains pair.1

def ingressNodes (availability : Availability) (nodes : List UInt64) : List UInt64 :=
  nodes.filter fun node =>
    !(r.draining nodes).any (·.1 == node) && availability.eligibleNodes.contains node

def policy (availability : Availability) (nodes : List UInt64)
    (serviceName : Option Bytes) : Policy :=
  let placement := serviceName.bind r.placement
  { membershipEpoch := r.membershipEpoch
    serviceName := serviceName.getD []
    assignmentSequence := r.assignmentSequence
    deploymentGeneration := (placement.map (·.deploymentGeneration)).getD 0
    serviceGeneration := (placement.map (·.serviceGeneration)).getD 0
    eligibleNodes := (r.ingressNodes availability nodes).filter fun node =>
      serviceName.isNone || (placement.map (·.readyNodes)).any (·.contains node)
    drainingNodes := r.draining nodes }

def advertiserNode (ingress eligible : List UInt64) : Option UInt64 :=
  if eligible.isEmpty then none
  else (((r.leader.filter r.voters.contains).bind key).filter ingress.contains).or ingress.min?

/-- `snapshot`; discovery knows the route `mac` of each voter. -/
def snapshot (mac : Text → Option Bytes) (serviceName : Option Bytes) : Option BackendSnapshot := do
  let availability ← r.current key
  let selfNode ← key r.me
  let members ← r.voters.mapM fun voter => do some ⟨← key voter, ← mac voter⟩
  let nodes := members.map Backend.nodeId
  let policy := r.policy availability nodes serviceName
  BackendSnapshot.newWithMembers (availabilityLoadBalancingEpoch policy.epoch availability.generation) selfNode
    (r.advertiserNode key (r.ingressNodes availability nodes) policy.eligibleNodes) members
    policy.eligibleNodes

variable {key} {r r' : Replica} {mac : Text → Option Bytes} {serviceName : Option Bytes}
  {s s' : BackendSnapshot} {availability : Availability} {members : List Backend}

theorem nodes_of_members {voters : List Text}
    (h : (voters.mapM fun voter => do some (⟨← key voter, ← mac voter⟩ : Backend)) = some members) :
    voters.mapM key = some (members.map Backend.nodeId) := by
  induction voters generalizing members with
  | nil => cases h; rfl
  | cons voter voters ih =>
    rw [mapM_cons] at h
    obtain ⟨first, hfst, h⟩ := bind_eq_some_iff.mp h
    obtain ⟨rest, hrest, h⟩ := bind_eq_some_iff.mp h
    obtain ⟨node, hnode, hfst⟩ := bind_eq_some_iff.mp hfst
    obtain ⟨address, -, hfst⟩ := bind_eq_some_iff.mp hfst
    cases h
    cases hfst
    rw [mapM_cons, hnode, ih hrest]
    rfl

theorem newWithMembers_spec {epoch selfNode : UInt64} {advertiser : Option UInt64}
    {eligible : List UInt64}
    (h : BackendSnapshot.newWithMembers epoch selfNode advertiser members eligible = some s) :
    s.epoch = epoch ∧ s.advertiserNode = advertiser ∧ eligible.Nodup ∧
      s.nodes = sortNodes eligible := by
  simp only [BackendSnapshot.newWithMembers] at h
  split at h
  · cases h
  rename_i hchecks
  cases h
  simp only [Bool.or_eq_true, not_or, Bool.not_eq_true', decide_eq_false_iff_not, Bool.not_eq_false,
    not_not, List.all_eq_true, List.any_eq_true, beq_iff_eq] at hchecks
  obtain ⟨⟨⟨-, hns, -, helig⟩, hkn⟩, -⟩ := hchecks
  refine ⟨rfl, rfl, helig, ?_⟩
  set sorted := members.mergeSort fun a b => decide (a.nodeId ≤ b.nodeId)
  have hsub : (sorted.filter fun backend => eligible.contains backend.nodeId).map (·.nodeId) <+
      sorted.map (·.nodeId) := filter_sublist.map _
  have hsor : (sorted.map (·.nodeId)).Pairwise (· ≤ ·) := by
    rw [pairwise_map]
    refine (pairwise_mergeSort (fun a b c hab hbc => ?_) (fun a b => ?_) members).imp of_decide_eq_true
    · exact decide_eq_true (UInt64.le_trans (of_decide_eq_true hab) (of_decide_eq_true hbc))
    · simpa using UInt64.le_total a.nodeId b.nodeId
  refine Perm.eq_of_pairwise' (hsor.sublist hsub) (pairwise_insertionSort (· ≤ ·) _) ?_
  refine ((perm_ext_iff_of_nodup (hns.sublist hsub) helig).mpr fun node => ?_).trans
    (perm_insertionSort ..).symm
  constructor
  · intro hnode
    obtain ⟨backend, hback, rfl⟩ := mem_map.mp hnode
    simpa using (mem_filter.mp hback).2
  · intro hnode
    obtain ⟨backend, hback, rfl⟩ := hkn node hnode
    exact mem_map_of_mem (mem_filter.mpr ⟨hback, by simpa using hnode⟩)

theorem snapshot_spec (h : r.snapshot key mac serviceName = some s) :
    ∃ availability nodes, r.current key = some availability ∧ r.voters.mapM key = some nodes ∧
      s.epoch = availabilityLoadBalancingEpoch (r.policy availability nodes serviceName).epoch
        availability.generation ∧
      s.advertiserNode = r.advertiserNode key (r.ingressNodes availability nodes)
        (r.policy availability nodes serviceName).eligibleNodes ∧
      (r.policy availability nodes serviceName).eligibleNodes.Nodup ∧
      s.nodes = sortNodes (r.policy availability nodes serviceName).eligibleNodes := by
  simp only [snapshot, bind_eq_bind, bind_eq_some_iff] at h
  obtain ⟨availability, hcur, selfNode, -, members, hmemb, h⟩ := h
  exact ⟨availability, _, hcur, nodes_of_members hmemb, newWithMembers_spec h⟩

theorem current_spec (h : r.current key = some availability) : r.availability = some availability ∧
      ∃ leader, r.leader = some leader ∧ key leader = some availability.leaderNode := by
  simp only [current, bind_eq_bind, bind_eq_some_iff, reject_eq_some] at h
  obtain ⟨_, -, entry, hent, leader, hleader, _, hchecks, ⟨⟩⟩ := h
  simp only [Bool.or_eq_false_iff, bne_eq_false_iff_eq] at hchecks
  exact ⟨hent, leader, hleader, hchecks.1.2⟩

/-- What the node feeds to the hash. -/
def fed (key : Text → Option UInt64) (r : Replica) (serviceName : Option Bytes) : Set Bytes :=
  {bytes | ∃ availability nodes, r.current key = some availability ∧ r.voters.mapM key = some nodes ∧
    bytes ∈ (r.policy availability nodes serviceName).fed availability.generation}

/-- Two nodes of one cluster: an epoch of the membership has one set of voters, a generation one
availability, and the leaders that they know do not share a key under two names. -/
structure OneCluster (key : Text → Option UInt64) (r r' : Replica) : Prop where
  voters : r.membershipEpoch = r'.membershipEpoch → r.voters = r'.voters
  availability : ∀ entry entry', r.availability = some entry → r'.availability = some entry' →
    entry.generation = entry'.generation → entry = entry'
  keys : ∀ leader ∈ r.leader, ∀ leader' ∈ r'.leader, key leader = key leader' → leader = leader'

theorem proper_policy {nodes : List UInt64}
    (hname : (serviceName.getD []).length < 2 ^ 63)
    (helig : (r.policy availability nodes serviceName).eligibleNodes.Nodup) :
    (r.policy availability nodes serviceName).Proper where
  name := hname
  eligible := helig
  draining := r.drains.sublist (filter_sublist.map _)
  apart := fun pair hpair hnode => by
    have hingr := (mem_filter.mp (mem_filter.mp hnode).1).2
    have hdrains : ((r.draining nodes).any fun other => other.1 == pair.1) = true :=
      List.any_eq_true.mpr ⟨pair, hpair, beq_self_eq_true _⟩
    rw [hdrains] at hingr
    cases hingr

/-- Equal epochs come from the same policy, which determines the rest of the snapshot. -/
theorem agree (hclus : OneCluster key r r') {mac' : Text → Option Bytes}
    (hs : r.snapshot key mac serviceName = some s) (hs' : r'.snapshot key mac' serviceName = some s')
    (hname : (serviceName.getD []).length < 2 ^ 63)
    (hinj : Set.InjOn fingerprint (fed key r serviceName ∪ fed key r' serviceName))
    (hepoch : s.epoch = s'.epoch) (hcount : s.backends.length = s'.backends.length) :
    s.nodes = s'.nodes ∧ s.advertiserNode = s'.advertiserNode := by
  obtain ⟨availability, nodes, hcur, hns, hs, hadve, helig, hback⟩ := snapshot_spec hs
  obtain ⟨availability', nodes', hcur', hns', hs', hadve', helig', hback'⟩ := snapshot_spec hs'
  have hfed : (r.policy availability nodes serviceName).fed availability.generation ⊆
      fed key r serviceName := fun _ h => ⟨availability, nodes, hcur, hns, h⟩
  have hfed' : (r'.policy availability' nodes' serviceName).fed availability'.generation ⊆
      fed key r' serviceName := fun _ h => ⟨availability', nodes', hcur', hns', h⟩
  obtain ⟨hbs, hgen⟩ := eq_of_epoch_eq (hinj.mono (Set.union_subset_union hfed hfed'))
    (hs.symm.trans (hepoch.trans hs'))
  have hleng := congrArg List.length hback
  have hleng' := congrArg List.length hback'
  simp only [BackendSnapshot.nodes, length_map, sortNodes, length_insertionSort] at hleng hleng'
  have hlen : (r.policy availability nodes serviceName).eligibleNodes.length =
      (r'.policy availability' nodes' serviceName).eligibleNodes.length := by omega
  have hsame := (same_iff_of_bytes_eq (proper_policy hname helig)
    (proper_policy hname helig') hbs).mpr hlen
  obtain ⟨hent, leader, hleader, hkey⟩ := current_spec hcur
  obtain ⟨hent', leader', hleader', hkey'⟩ := current_spec hcur'
  have hvoters := hclus.voters hsame.membershipEpoch
  obtain rfl := hclus.availability _ _ hent hent' hgen
  obtain rfl := hclus.keys _ hleader _ hleader' (hkey.trans hkey'.symm)
  rw [hvoters] at hns
  cases hns.symm.trans hns'
  have hdrai : ∀ pair, pair ∈ r.draining nodes ↔ pair ∈ r'.draining nodes := hsame.drainingNodes
  have hingr : r.ingressNodes availability nodes = r'.ingressNodes availability nodes := by
    refine filter_congr fun node _ => ?_
    congr 2
    rw [Bool.eq_iff_iff, List.any_eq_true, List.any_eq_true]
    exact exists_congr fun pair => and_congr_left' (hdrai pair)
  refine ⟨hback.trans ((sortNodes_eq helig helig' hsame.eligibleNodes).trans
    hback'.symm), ?_⟩
  have hemp : (r.policy availability nodes serviceName).eligibleNodes.isEmpty =
      (r'.policy availability nodes serviceName).eligibleNodes.isEmpty := by
    rw [Bool.eq_iff_iff, isEmpty_iff_length_eq_zero, isEmpty_iff_length_eq_zero, hlen]
  rw [hadve, hadve', hingr]
  simp only [advertiserNode, hleader, hleader', hvoters, hemp]

/-- The key of a node, read from its name. -/
def nodeKey (name : Text) : Option UInt64 := (Catalog.keyFromName name).map UInt64.ofNat

end Replica

open Replica

/-- While the hash tells apart what is fed to it: equal epochs mean the same policy exactly if
equally many nodes are eligible; and two nodes of one cluster whose snapshots have the same epoch and
equally many backends agree on the backend of every flow and on the advertiser. -/
theorem equal_epochs_same_policy_iff (key : Text → Option UInt64) :
    (∀ (a b : Policy) (generation generation' : UInt64), a.Proper → b.Proper →
      Set.InjOn fingerprint (a.fed generation ∪ b.fed generation') →
      availabilityLoadBalancingEpoch a.epoch generation =
        availabilityLoadBalancingEpoch b.epoch generation' →
      (a.Same b ∧ generation = generation' ↔ a.eligibleNodes.length = b.eligibleNodes.length)) ∧
    ∀ r r' mac mac' serviceName s s', OneCluster key r r' →
      r.snapshot key mac serviceName = some s → r'.snapshot key mac' serviceName = some s' →
      (serviceName.getD []).length < 2 ^ 63 →
      Set.InjOn fingerprint (fed key r serviceName ∪ fed key r' serviceName) →
      s.epoch = s'.epoch → s.backends.length = s'.backends.length →
      s.advertiserNode = s'.advertiserNode ∧ ∀ service flow,
        (selectBackend service flow s).map (·.nodeId) =
          (selectBackend service flow s').map (·.nodeId) := by
  constructor
  · intro a b generation generation' ha hb hinj hepoch
    obtain ⟨hbytes, hgeneration⟩ := eq_of_epoch_eq hinj hepoch
    rw [and_iff_left hgeneration]
    exact same_iff_of_bytes_eq ha hb hbytes
  · intro r r' mac mac' serviceName s s' hcluster hs hs' hname hinj hepoch hlength
    obtain ⟨hnodes, hadvertiser⟩ := agree hcluster hs hs' hname hinj hepoch hlength
    exact ⟨hadvertiser, fun service flow => selectBackend_nodes service flow hnodes⟩

def threeEligible : Policy := ⟨1, [], 0, 0, 0, [1, 2, 3], []⟩

def oneDraining : Policy := ⟨1, [], 0, 0, 0, [1], [(2, 3)]⟩

theorem proper_threeEligible : threeEligible.Proper := ⟨by decide, by decide, by decide, nofun⟩

theorem proper_oneDraining : oneDraining.Proper :=
  ⟨by decide, by decide, by decide, by simp [oneDraining]⟩

theorem bytes_threeEligible : threeEligible.bytes = oneDraining.bytes := by decide +kernel

/-- Three eligible nodes, or one eligible and one draining: the same bytes are fed to the hash. -/
theorem eligible_and_draining_confused :
    threeEligible.Proper ∧ oneDraining.Proper ∧ ¬ threeEligible.Same oneDraining ∧ ∀ generation,
      availabilityLoadBalancingEpoch threeEligible.epoch generation =
        availabilityLoadBalancingEpoch oneDraining.epoch generation := by
  refine ⟨proper_threeEligible, proper_oneDraining, fun hsame => ?_, fun generation => ?_⟩
  · exact absurd ((hsame.eligibleNodes 2).mp (by decide)) (by decide)
  · rw [epoch, epoch, bytes_threeEligible]

/-- What a node knows of the cluster of two voters whose leader is `n:00000001`. -/
def viewOf (me : Text) : Replica where
  me := me
  leader := some (ascii "n:00000001")
  currentTerm := 1
  membershipEpoch := 1
  voters := [ascii "n:00000001", ascii "n:00000002"]
  readable := true
  availability := some ⟨1, 1, 1, 1, [1, 2]⟩
  drainingNodes := []
  drains := nodup_nil
  placement := fun _ => none
  assignmentSequence := 0

theorem oneCluster_viewOf (me me' : Text) : OneCluster nodeKey (viewOf me) (viewOf me') where
  voters := fun _ => rfl
  availability := fun _ _ h h' _ => some.inj (h.symm.trans h')
  keys := fun _ h _ h' _ => some.inj (h.symm.trans h')

theorem fed_viewOf (me : Text) :
    fed nodeKey (viewOf me) none ⊆ Policy.fed ⟨1, [], 0, 0, 0, [1, 2], []⟩ 1 := by
  rintro bytes ⟨availability, nodes, hcur, hnodes, hbytes⟩
  have hcur' : (viewOf me).current nodeKey = some ⟨1, 1, 1, 1, [1, 2]⟩ := rfl
  have hnodes' : (viewOf me).voters.mapM nodeKey = some [1, 2] := rfl
  cases hcur'.symm.trans hcur
  cases hnodes'.symm.trans hnodes
  exact hbytes

/-- The routes of a node to the voters. -/
def routes (first : UInt8) (voter : Text) : Option Bytes := some [first, 0, 0, 0, 0, voter.getLastD 0]

theorem snapshot_viewOf {node : UInt64} (me : Text) (first : UInt8) (hme : nodeKey me = some node)
    (hfirst : first &&& 1 = 0) : (viewOf me).snapshot nodeKey (routes first) none =
      some ⟨availabilityLoadBalancingEpoch (Policy.epoch ⟨1, [], 0, 0, 0, [1, 2], []⟩) 1, node, some 1,
        [⟨1, [first, 0, 0, 0, 0, 49]⟩, ⟨2, [first, 0, 0, 0, 0, 50]⟩],
        [⟨1, [first, 0, 0, 0, 0, 49]⟩, ⟨2, [first, 0, 0, 0, 0, 50]⟩]⟩ := by
  have hsnapshot : (viewOf me).snapshot nodeKey (routes first) none = (nodeKey me).bind fun node =>
      BackendSnapshot.newWithMembers
        (availabilityLoadBalancingEpoch (Policy.epoch ⟨1, [], 0, 0, 0, [1, 2], []⟩) 1) node (some 1)
        [⟨1, [first, 0, 0, 0, 0, 49]⟩, ⟨2, [first, 0, 0, 0, 0, 50]⟩] [1, 2] := rfl
  rw [hsnapshot, hme, Option.bind_some, BackendSnapshot.newWithMembers, mergeSort_of_pairwise (by simp)]
  simp [hfirst]

/-- The two policies have one epoch and are not the same. The leader and its follower, who reach the
backends by different routes, agree on the advertiser and on the backend of every flow. -/
theorem equal_epochs_confused : ¬ (threeEligible.Same oneDraining ∧ (1 : UInt64) = 1) ∧
    ∃ s s', (viewOf (ascii "n:00000001")).snapshot nodeKey (routes 2) none = some s ∧
      (viewOf (ascii "n:00000002")).snapshot nodeKey (routes 4) none = some s' ∧
      s.advertiserNode = s'.advertiserNode ∧ ∀ service flow,
        (selectBackend service flow s).map (·.nodeId) = (selectBackend service flow s').map (·.nodeId) := by
  have hinjective : ∀ {policy : Policy} {strings : Set Bytes}, strings ⊆ policy.fed 1 →
      fingerprint policy.bytes ≠ fingerprint (availabilityBytes policy.epoch 1) →
      Set.InjOn fingerprint strings := by
    intro policy strings hsub hdiffer x hx y hy h
    rcases hsub hx with rfl | rfl <;> rcases hsub hy with rfl | rfl
    · rfl
    · exact absurd h hdiffer
    · exact absurd h.symm hdiffer
    · rfl
  constructor
  · have hepoch : threeEligible.epoch = oneDraining.epoch := congrArg fingerprint bytes_threeEligible
    have hinj : Set.InjOn fingerprint (threeEligible.fed 1 ∪ oneDraining.fed 1) := by
      rw [Policy.fed, hepoch, bytes_threeEligible, ← Policy.fed, Set.union_self]
      exact hinjective subset_rfl (by decide +kernel)
    intro h
    exact absurd (((equal_epochs_same_policy_iff nodeKey).1 threeEligible oneDraining 1 1
      proper_threeEligible proper_oneDraining hinj (by rw [hepoch])).mp h) (by decide)
  · have hinj := hinjective (Set.union_subset (fed_viewOf (ascii "n:00000001"))
      (fed_viewOf (ascii "n:00000002"))) (by decide +kernel)
    have hs := snapshot_viewOf (ascii "n:00000001") 2 rfl (by decide)
    have hs' := snapshot_viewOf (ascii "n:00000002") 4 rfl (by decide)
    refine ⟨_, _, hs, hs', (equal_epochs_same_policy_iff nodeKey).2 (viewOf (ascii "n:00000001"))
      (viewOf (ascii "n:00000002")) _ _ none _ _ (oneCluster_viewOf ..) hs hs' (by decide) hinj rfl rfl⟩

end Charlotte.Ingress
