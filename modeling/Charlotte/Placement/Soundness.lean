import Charlotte.Launch.Canonical
import Charlotte.Lib.Runs
import Charlotte.Placement.Resolver

/-!
# Soundness of the placement

Every set that the resolver returns meets the policy of its component, and together
they fit on the nodes. One component at a time, its nodes are charged against the
projected view, which stays the reported view less what the plan has placed so far.
-/

namespace Charlotte.Placement

open Lib Launch List Deployment Projection
open Std (ExtTreeMap)

/-! ### Sorting and choosing -/

variable {α : Type}

theorem sortBy_perm (cmp : α → α → Ordering) (items : List α) :
    (sortBy cmp items).Perm items := perm_insertionSort _ _

variable {cmp : α → α → Ordering} {items : List α}

theorem mem_sortBy {item : α} :
    item ∈ sortBy cmp items ↔ item ∈ items := (sortBy_perm cmp items).mem_iff

theorem pairwise_sortBy [Std.TransCmp cmp] (items : List α) :
    (sortBy cmp items).Pairwise fun a b => (cmp a b).isLE = true := by
  have : Std.Total fun a b => (cmp a b).isLE = true := by
    refine ⟨fun a b => ?_⟩
    rw [@Std.OrientedCmp.eq_swap _ cmp _ b a]
    cases cmp a b <;> decide
  have : IsTrans α fun a b => (cmp a b).isLE = true := ⟨fun _ _ _ => Std.TransCmp.isLE_trans⟩
  exact pairwise_insertionSort _ items

theorem pairwise_sortBy_compare (nodes : List ℕ) : (sortBy compare nodes).Pairwise (· ≤ ·) :=
  (pairwise_sortBy nodes).imp Nat.isLE_compare.mp

theorem increasing_sortBy {nodes : List ℕ} (h : nodes.Nodup) :
    (sortBy compare nodes).Pairwise (· < ·) := by
  have hnd : (sortBy compare nodes).Nodup := (sortBy_perm _ _).nodup_iff.mpr h
  exact (pairwise_sortBy_compare nodes).imp₂ (fun a b hle hne => lt_of_le_of_ne hle hne) hnd

theorem mem_of_maxBy {item : α} (h : maxBy cmp items = some item) : item ∈ items := by
  refine foldlRecOn (motive := fun best => ∀ b, best = some b → b ∈ items) items _ ?_ ?_ item h
  · exact fun _ => nofun
  intro best hbest candidate hmem b hb
  cases best with
  | none =>
    cases hb
    exact hmem
  | some =>
    simp only at hb
    split at hb
    · exact hbest b hb
    · cases hb
      exact hmem

variable {node : ℕ} {eligibleNodes : List ℕ}

theorem eligibleSet_eq_dedup (eligibleNodes : List ℕ) :
    eligibleSet eligibleNodes = (sortBy compare (eligibleNodes.filter (· ≠ 0))).dedup :=
  (pairwise_sortBy_compare _).destutter_eq_dedup

theorem mem_eligibleSet : node ∈ eligibleSet eligibleNodes ↔ node ∈ eligibleNodes ∧ node ≠ 0 := by
  rw [eligibleSet_eq_dedup, mem_dedup, mem_sortBy, mem_filter, decide_eq_true_iff]

theorem increasing_eligibleSet (eligibleNodes : List ℕ) :
    (eligibleSet eligibleNodes).Pairwise (· < ·) := by
  rw [eligibleSet_eq_dedup]
  exact ((pairwise_sortBy_compare _).sublist (dedup_sublist _)).imp₂
    (fun _ _ => lt_of_le_of_ne) (nodup_dedup _)

/-! ### Charging a node -/

namespace NodeCapacity

theorem reserve_le {sample : NodeCapacity} (h : sample.usableFrames ≠ 0) :
    sample.reserve ≤ sample.usableFrames := by
  unfold reserve
  omega

theorem reserve_pos (sample : NodeCapacity) : 0 < sample.reserve := by
  unfold reserve
  omega

/-- `load` frames fit on the node next to its reserve. -/
def Fits (sample : NodeCapacity) (load : ℕ) : Prop :=
  load + sample.reserve ≤ min sample.freeFrames sample.usableFrames ∧
    sample.committedFrames + load ≤ sample.usableFrames - sample.reserve

end NodeCapacity

open NodeCapacity

variable {capacity : NodeCapacityView} {demand : ℕ}

/-- The saturating sums of the source say no less than the exact ones. -/
theorem fits_of_nodeCanHost {sample : NodeCapacity}
    (h : nodeCanHost capacity node demand = true) (hsam : capacity[node]? = some sample)
    (hus : sample.usableFrames ≠ 0) : sample.Fits demand := by
  have hlt := sample.usable_lt
  have hpos := sample.reserve_pos
  have hle := reserve_le hus
  rw [nodeCanHost, hsam] at h
  simp only [if_neg hus, Bool.and_eq_true] at h
  obtain ⟨hdyna, hstatic⟩ := h
  replace hdyna := of_decide_eq_true hdyna
  replace hstatic := of_decide_eq_true hstatic
  unfold saturatingAdd at hdyna hstatic
  unfold Fits
  omega

/-- The projected view is the reported one with `load` charged to every node. -/
structure Charged (capacity projected : NodeCapacityView) (load : ℕ → ℕ) (busy : ℕ → Prop) :
    Prop where
  unknown : ∀ node : ℕ, capacity[node]? = none → projected[node]? = none
  known : ∀ (node : ℕ) sample, capacity[node]? = some sample → ∃ charged, projected[node]? = some charged ∧
    charged.target = sample.target ∧ charged.usableFrames = sample.usableFrames ∧
    (sample.usableFrames ≠ 0 → charged.freeFrames = sample.freeFrames - load node ∧
      charged.committedFrames = sample.committedFrames + load node)
  fits : ∀ (node : ℕ) sample, capacity[node]? = some sample → sample.usableFrames ≠ 0 → busy node →
    sample.Fits (load node)
  idle : ∀ node, ¬ busy node → load node = 0

namespace Charged

variable {capacity projected projected' : NodeCapacityView} {load : ℕ → ℕ} {busy : ℕ → Prop}

theorem refl (capacity : NodeCapacityView) :
    Charged capacity capacity (fun _ => 0) (fun _ => False) where
  unknown _ h := h
  known _ sample h := ⟨sample, h, rfl, rfl, fun _ => ⟨rfl, rfl⟩⟩
  fits _ _ _ _ h := h.elim
  idle _ _ := rfl

theorem compatibleNode_eq (h : Charged capacity projected load busy)
    (descriptor : DeploymentDescriptor) (node : ℕ) :
    compatibleNode descriptor projected node = compatibleNode descriptor capacity node := by
  cases hsam : capacity[node]? with
  | none => simp [compatibleNode, hsam, h.unknown node hsam]
  | some sample =>
    obtain ⟨_, hchg, htgt, -⟩ := h.known node sample hsam
    simp [compatibleNode, hsam, hchg, htgt]

variable {demand : ℕ}

/-- What is placed on a node next still fits together with what is there. -/
theorem fits_add (h : Charged capacity projected load busy) {sample : NodeCapacity}
    (hhost : nodeCanHost projected node demand = true) (hsam : capacity[node]? = some sample)
    (hus : sample.usableFrames ≠ 0) : sample.Fits (load node + demand) := by
  obtain ⟨charged, hchg, -, hus', hcharge⟩ := h.known node sample hsam
  obtain ⟨hfree, hcom⟩ := hcharge hus
  have hfits := fits_of_nodeCanHost hhost hchg (hus' ▸ hus)
  have hpos := sample.reserve_pos
  have hle := reserve_le hus
  have hrsv : charged.reserve = sample.reserve := by
    rw [reserve, reserve, hus']
  unfold Fits at hfits ⊢
  omega

theorem charge (h : Charged capacity projected load busy)
    (hrsv : reserveNodeCapacity projected node demand = some projected') :
    Charged capacity projected' (fun other => load other + if other = node then demand else 0)
      (fun other => busy other ∨ other = node) := by
  unfold reserveNodeCapacity at hrsv
  split at hrsv
  · cases hrsv
  rename_i hhost
  simp only [Bool.not_eq_true, Bool.not_eq_false'] at hhost
  have hfits : ∀ (other : ℕ) sample, capacity[other]? = some sample → sample.usableFrames ≠ 0 →
      busy other ∨ other = node → sample.Fits (load other + if other = node then demand else 0) := by
    intro other sample hsam hus hbusy
    by_cases hoth : other = node
    · subst hoth
      rw [if_pos rfl]
      exact h.fits_add hhost hsam hus
    · rw [if_neg hoth, add_zero]
      exact h.fits other sample hsam hus (hbusy.resolve_right hoth)
  have hidle : ∀ other, ¬ (busy other ∨ other = node) →
      load other + (if other = node then demand else 0) = 0 := by
    intro other hoth
    rw [not_or] at hoth
    rw [if_neg hoth.2, h.idle other hoth.1]
  -- A node without a sensor is not charged, every other one is.
  have hview : ∀ other : ℕ, projected'[other]? =
      if other = node then (projected[node]?).map fun sample =>
        if sample.usableFrames = 0 then sample else sample.charge demand
      else projected[other]? := by
    intro other
    cases hnode : projected[node]? with
    | none =>
      simp only [hnode, Option.some.injEq] at hrsv
      subst hrsv
      split
      · rename_i hoth
        rw [hoth, hnode]
        rfl
      · rfl
    | some sample =>
      simp only [hnode] at hrsv
      split at hrsv
      · rename_i hzero
        cases hrsv
        split
        · rename_i hoth
          rw [hoth, hnode, Option.map_some, if_pos hzero]
        · rfl
      · rename_i hzero
        cases hrsv
        rw [ExtTreeMap.getElem?_insert]
        simp only [Nat.compare_eq_eq, Option.map_some, if_neg hzero, eq_comm (a := node)]
  refine ⟨?_, ?_, hfits, hidle⟩
  · intro other hoth
    rw [hview, h.unknown other hoth]
    split
    · rename_i heq
      rw [← heq, h.unknown other hoth]
      rfl
    · rfl
  · intro other sample hsam
    obtain ⟨charged, hchg, htgt, hus, hcharge⟩ := h.known other sample hsam
    by_cases hoth : other = node
    · subst hoth
      rw [hview, if_pos rfl, hchg, Option.map_some]
      refine ⟨_, rfl, ?_⟩
      by_cases hzero : charged.usableFrames = 0
      · rw [if_pos hzero]
        exact ⟨htgt, hus, fun hne => absurd (hus ▸ hzero) hne⟩
      · rw [if_neg hzero, if_pos rfl]
        refine ⟨htgt, hus, fun hne => ?_⟩
        obtain ⟨hfree, hcom⟩ := hcharge hne
        have hroom := (h.fits_add hhost hsam hne).2
        have hlt := sample.usable_lt
        have hpos := sample.reserve_pos
        simp only [charge, saturatingAdd, hfree, hcom]
        omega
    · rw [hview, if_neg hoth, if_neg hoth, add_zero]
      exact ⟨charged, hchg, htgt, hus, hcharge⟩

theorem chargeAll {nodes : List ℕ} (hnd : nodes.Nodup) (h : Charged capacity projected load busy)
    (hrsv : nodes.foldlM (fun view node => reserveNodeCapacity view node demand) projected =
      some projected') :
    Charged capacity projected' (fun other => load other + if other ∈ nodes then demand else 0)
      (fun other => busy other ∨ other ∈ nodes) := by
  induction nodes generalizing projected load busy with
  | nil =>
    cases hrsv
    simpa using h
  | cons node nodes ih =>
    obtain ⟨hfr, hnd⟩ := nodup_cons.mp hnd
    obtain ⟨_, hmid, hrest⟩ := Option.bind_eq_some_iff.mp hrsv
    have hchg := ih hnd (h.charge hmid) hrest
    have hload : (fun other => load other + (if other = node then demand else 0) +
        if other ∈ nodes then demand else 0) =
        fun other => load other + if other ∈ node :: nodes then demand else 0 := by
      funext other
      by_cases hoth : other = node
      · subst hoth
        simp [hfr]
      · simp [hoth]
    have hbusy : (fun other => (busy other ∨ other = node) ∨ other ∈ nodes) =
        fun other => busy other ∨ other ∈ node :: nodes := by
      funext other
      rw [mem_cons, or_assoc]
    rwa [hload, hbusy] at hchg

end Charged

/-! ### One component -/

/-- The nodes of one component meet its policy. -/
structure SetSound (eligible : List ℕ) (capacity : NodeCapacityView)
    (descriptor : DeploymentDescriptor) (nodes : List ℕ) : Prop where
  increasing : nodes.Pairwise (· < ·)
  eligible : ∀ node ∈ nodes, node ∈ eligible
  compatible : ∀ node ∈ nodes, compatibleNode descriptor capacity node = true
  pinned : descriptor.nodeKey ≠ 0 → nodes = [descriptor.nodeKey]
  replicas : descriptor.nodeKey = 0 → descriptor.placement.everyEligibleNode = false →
    nodes.length = descriptor.placement.replicas
  every : descriptor.nodeKey = 0 → descriptor.placement.everyEligibleNode = true → nodes ≠ []

/-- What planning one component does to the projection. -/
structure Placed (eligible : List ℕ) (projection : Projection) (descriptor : DeploymentDescriptor)
    (nodes : List ℕ) (projection' : Projection) : Prop where
  sound : SetSound eligible projection.capacity descriptor nodes
  reserved : nodes.foldlM (fun capacity node => reserveNodeCapacity capacity node
    (descriptorMemoryDemand descriptor)) projection.capacity = some projection'.capacity
  separate : descriptor.placement.antiAffinityGroup ≠ 0 →
    ∀ node ∈ nodes, node ∉ projection.used descriptor.placement.antiAffinityGroup
  used : ∀ group, group ≠ 0 → projection'.used group =
    if group = descriptor.placement.antiAffinityGroup then projection.used group ++ nodes
    else projection.used group

variable {eligible candidates : List ℕ} {automaticNode : ℕ} {projection projection' : Projection}
  {descriptor : DeploymentDescriptor} {nodes : List ℕ}

theorem map_reserveAll {f : Projection → List ℕ × Projection} {nodes' : List ℕ}
    (h : (projection.reserveAll nodes demand).map f = .ok (nodes', projection')) :
    ∃ capacity, nodes.foldlM (fun capacity node => reserveNodeCapacity capacity node demand)
        projection.capacity = some capacity ∧
      f { projection with capacity } = (nodes', projection') := by
  unfold reserveAll at h
  split at h
  · cases h
  · rename_i capacity hcap
    exact ⟨capacity, hcap, Except.ok.inj h⟩

theorem placed_placePinned (hkey : descriptor.nodeKey ≠ 0) (hplc : descriptor.placement = .singleton)
    (h : placePinned eligible projection descriptor = .ok (nodes, projection')) :
    Placed eligible projection descriptor nodes projection' := by
  unfold placePinned at h
  split at h
  · cases h
  rename_i helig
  split at h
  · cases h
  rename_i hcomp
  obtain ⟨_, hcap, hres⟩ := map_reserveAll h
  cases hres
  simp only [Bool.not_eq_true, Bool.not_eq_false'] at helig hcomp
  refine ⟨⟨pairwise_singleton _ _, ?_, ?_, fun _ => rfl, fun h => absurd h hkey,
    fun h => absurd h hkey⟩, hcap, ?_, ?_⟩
  · intro node hnode
    rw [mem_singleton.mp hnode]
    exact contains_iff_mem.mp helig
  · intro node hnode
    rw [mem_singleton.mp hnode]
    exact hcomp
  · intro hgrp
    rw [hplc] at hgrp
    exact absurd rfl hgrp
  · intro group hgrp
    rw [hplc]
    exact (if_neg hgrp).symm

theorem placed_placeSingleton (hkey : descriptor.nodeKey = 0) (hplc : descriptor.placement = .singleton)
    (hcands : ∀ node ∈ candidates, node ∈ eligible ∧
      compatibleNode descriptor projection.capacity node = true)
    (h : placeSingleton eligible candidates automaticNode projection descriptor =
      .ok (nodes, projection')) : Placed eligible projection descriptor nodes projection' := by
  unfold placeSingleton at h
  split at h
  · cases h
  rename_i selected hsele
  obtain ⟨_, hcap, hres⟩ := map_reserveAll h
  cases hres
  have hmem : selected ∈ candidates := by
    unfold selectSingleton at hsele
    split at hsele
    · rename_i hauto
      cases hsele
      exact contains_iff_mem.mp (Bool.and_eq_true_iff.mp hauto).2
    · exact mem_of_maxBy hsele
  obtain ⟨_, _⟩ := hcands selected hmem
  refine ⟨⟨pairwise_singleton _ _, ?_, ?_, fun h => absurd hkey h, fun _ _ => ?_, nofun⟩, hcap, ?_, ?_⟩
  · rwa [forall_mem_singleton]
  · rwa [forall_mem_singleton]
  · rw [hplc]
    rfl
  · intro hgrp
    rw [hplc] at hgrp
    exact absurd rfl hgrp
  · intro group hgrp
    rw [hplc]
    exact (if_neg hgrp).symm

theorem used_occupy (projection : Projection) (taken : ℕ) (nodes : List ℕ) {group : ℕ}
    (hgrp : group ≠ 0) : (projection.occupy taken nodes).used group =
      if group = taken then projection.used group ++ nodes else projection.used group := by
  unfold occupy
  split
  · rename_i htaken
    rw [if_neg (fun heq => hgrp (heq.trans htaken))]
  rw [used, ExtTreeMap.getD_insert]
  simp only [Nat.compare_eq_eq, eq_comm (a := taken)]
  split
  · rename_i heq
    rw [heq]
  · rfl

theorem capacity_occupy (projection : Projection) (group : ℕ) (nodes : List ℕ) :
    (projection.occupy group nodes).capacity = projection.capacity := by
  unfold occupy
  split <;> rfl

theorem mem_unoccupied_of_selectReplicas (h : node ∈ selectReplicas candidates projection descriptor) :
    node ∈ unoccupied candidates projection descriptor.placement :=
  mem_sortBy.mp (mem_of_mem_take (mem_sortBy.mp h))

theorem mem_unoccupied {policy : PlacementPolicy} :
    node ∈ unoccupied candidates projection policy ↔ node ∈ candidates ∧
      (policy.antiAffinityGroup ≠ 0 → node ∉ projection.used policy.antiAffinityGroup) := by
  unfold unoccupied
  simp [Decidable.imp_iff_not_or]

theorem increasing_selectReplicas (hnd : candidates.Nodup) :
    (selectReplicas candidates projection descriptor).Pairwise (· < ·) := by
  apply increasing_sortBy
  have hranked := (sortBy_perm (fun a b => compareNodes projection.capacity (rankingSeed descriptor) b a)
    (unoccupied candidates projection descriptor.placement)).nodup_iff
  exact (hranked.mpr (hnd.sublist filter_sublist)).sublist (take_sublist _ _)

theorem length_selectReplicas (h : wantedNodes candidates descriptor.placement ≤
      (unoccupied candidates projection descriptor.placement).length) :
    (selectReplicas candidates projection descriptor).length =
      wantedNodes candidates descriptor.placement := by
  unfold selectReplicas
  rw [(sortBy_perm _ _).length_eq, length_take, (sortBy_perm _ _).length_eq]
  exact min_eq_left h

theorem placed_placeReplicas (hkey : descriptor.nodeKey = 0) (hnd : candidates.Nodup)
    (hcands : ∀ node ∈ candidates, node ∈ eligible ∧
      compatibleNode descriptor projection.capacity node = true)
    (h : placeReplicas eligible candidates projection descriptor = .ok (nodes, projection')) :
    Placed eligible projection descriptor nodes projection' := by
  unfold placeReplicas at h
  simp only at h
  split at h
  · cases h
  split at h
  · cases h
  rename_i hwanted
  split at h
  · cases h
  split at h
  · cases h
  rename_i hroom
  obtain ⟨_, hcap, hres⟩ := map_reserveAll h
  obtain ⟨rfl, rfl⟩ := Prod.mk.inj hres
  have hlen := length_selectReplicas (not_lt.mp hroom)
  have hmem : ∀ node ∈ selectReplicas candidates projection descriptor, _ :=
    fun node hnode => mem_unoccupied.mp (mem_unoccupied_of_selectReplicas hnode)
  refine ⟨⟨increasing_selectReplicas hnd, ?_, ?_, fun h => absurd hkey h, ?_, ?_⟩, ?_, ?_, ?_⟩
  · intro node hnode
    exact (hcands node (hmem node hnode).1).1
  · intro node hnode
    exact (hcands node (hmem node hnode).1).2
  · intro _ hfixed
    rw [hlen, wantedNodes, if_neg (by rw [hfixed]; exact Bool.false_ne_true)]
  · intro _ _ hnil
    rw [hnil] at hlen
    exact hwanted (.inl hlen.symm)
  · rw [capacity_occupy]
    exact hcap
  · intro hgrp node hnode
    exact (hmem node hnode).2 hgrp
  · intro group hgrp
    exact used_occupy _ _ _ hgrp

theorem placed_placeComponent (hincr : eligible.Pairwise (· < ·))
    (hpin : descriptor.nodeKey ≠ 0 → descriptor.placement = .singleton)
    (h : placeComponent eligible automaticNode projection descriptor = .ok (nodes, projection')) :
    Placed eligible projection descriptor nodes projection' := by
  unfold placeComponent at h
  simp only at h
  split at h
  · rename_i hkey
    exact placed_placePinned hkey (hpin hkey) h
  rename_i hkey
  rw [not_not] at hkey
  split at h
  · cases h
  split at h
  · cases h
  set candidates := (eligible.filter (compatibleNode descriptor projection.capacity)).filter
    fun node => decide (0 < capacityBucket projection.capacity node) &&
      nodeCanHost projection.capacity node (descriptorMemoryDemand descriptor)
  have hcands : ∀ node ∈ candidates, node ∈ eligible ∧
      compatibleNode descriptor projection.capacity node = true :=
    fun node hnode => mem_filter.mp (mem_filter.mp hnode).1
  split at h
  · rename_i hsing
    exact placed_placeSingleton hkey hsing hcands h
  · have hnd : eligible.Nodup := hincr.imp fun hlt => ne_of_lt hlt
    exact placed_placeReplicas hkey ((hnd.sublist filter_sublist).sublist filter_sublist) hcands h

/-- A descriptor with a node key has the singleton policy. -/
theorem singleton_of_decode {bytes : Bytes} (h : decode bytes = some descriptor)
    (hkey : descriptor.nodeKey ≠ 0) : descriptor.placement = .singleton :=
  (decode_spec h).1.placement.2 hkey

/-! ### The whole plan -/

variable (placed : List (DeploymentDescriptor × List ℕ))

/-- What a plan places on a node. -/
def totalDemand (node : ℕ) : ℕ :=
  ((placed.filter fun component => decide (node ∈ component.2)).map
    fun component => descriptorMemoryDemand component.1).sum

theorem totalDemand_append (component : DeploymentDescriptor × List ℕ) (node : ℕ) :
    totalDemand (placed ++ [component]) node = totalDemand placed node +
      if node ∈ component.2 then descriptorMemoryDemand component.1 else 0 := by
  unfold totalDemand
  by_cases h : node ∈ component.2
  · simp [h]
  · simp [h]

theorem totalDemand_perm {placed placed' : List (DeploymentDescriptor × List ℕ)}
    (h : placed.Perm placed') (node : ℕ) : totalDemand placed node = totalDemand placed' node :=
  ((h.filter _).map _).sum_nat

/-- A component that is planned: its descriptor, its index and its nodes. -/
abbrev Step := (DeploymentDescriptor × ℕ) × List ℕ

def Step.component (step : Step) : DeploymentDescriptor × List ℕ := (step.1.1, step.2)

/-- Two components of one anti-affinity group share no node. -/
def Apart (x y : DeploymentDescriptor × List ℕ) : Prop :=
  x.1.placement.antiAffinityGroup ≠ 0 →
    x.1.placement.antiAffinityGroup = y.1.placement.antiAffinityGroup → x.2.Disjoint y.2

variable {x : DeploymentDescriptor × List ℕ}

theorem Apart.symm {y : DeploymentDescriptor × List ℕ} (h : Apart x y) : Apart y x :=
  fun hgrp heq => (h (heq ▸ hgrp) heq.symm).symm

/-- Write the sets of the planned components into the table. -/
def assign (assignments : List (Option (List ℕ))) (done : List Step) : List (Option (List ℕ)) :=
  done.foldl (fun assignments step => assignments.set step.1.2 (some step.2)) assignments

/-- A plan in which the components `done` are placed. -/
structure Progress (eligible : List ℕ) (capacity : NodeCapacityView) (count : ℕ) (done : List Step)
    (plan : Plan) : Prop where
  sound : ∀ step ∈ done, SetSound eligible capacity step.1.1 step.2
  charged : Charged capacity plan.projection.capacity (totalDemand (done.map Step.component))
    (fun node => ∃ step ∈ done, node ∈ step.2)
  apart : done.Pairwise fun x y => Apart x.component y.component
  used : ∀ step ∈ done, step.1.1.placement.antiAffinityGroup ≠ 0 →
    ∀ node ∈ step.2, node ∈ plan.projection.used step.1.1.placement.antiAffinityGroup
  assigned : plan.assignments = assign (List.replicate count none) done

namespace Progress

variable {capacity : NodeCapacityView} {count : ℕ} {done : List Step} {plan plan' : Plan}

theorem start (eligible : List ℕ) (capacity : NodeCapacityView) (count : ℕ) :
    Progress eligible capacity count [] ⟨⟨capacity, ∅⟩, replicate count none⟩ where
  sound _ h := nomatch h
  charged := by
    have hchg := Charged.refl capacity
    have hbusy : (fun _ : ℕ => False) = fun node => ∃ step ∈ ([] : List Step), node ∈ step.2 := by
      funext node
      simp
    rwa [hbusy] at hchg
  apart := .nil
  used _ h := nomatch h
  assigned := rfl

theorem place {component : DeploymentDescriptor × ℕ} (hincr : eligible.Pairwise (· < ·))
    (hpin : component.1.nodeKey ≠ 0 → component.1.placement = .singleton)
    (h : Progress eligible capacity count done plan)
    (hpl : plan.place eligible automaticNode component = .ok plan') :
    ∃ nodes, Progress eligible capacity count (done ++ [(component, nodes)]) plan' := by
  unfold Plan.place at hpl
  cases hcomp : placeComponent eligible automaticNode plan.projection component.1 with
  | error =>
    rw [hcomp] at hpl
    cases hpl
  | ok result =>
    obtain ⟨nodes, _⟩ := result
    rw [hcomp] at hpl
    cases hpl
    have hpld := placed_placeComponent hincr hpin hcomp
    refine ⟨nodes, ?_, ?_, ?_, ?_, ?_⟩
    · intro step hstep
      rcases mem_append.mp hstep with hstep | hstep
      · exact h.sound step hstep
      · cases mem_singleton.mp hstep
        have hsd := hpld.sound
        exact { hsd with
          compatible := fun node hnode =>
            (h.charged.compatibleNode_eq component.1 node).symm.trans (hsd.compatible node hnode) }
    · have hnd : nodes.Nodup := hpld.sound.increasing.imp fun hlt => ne_of_lt hlt
      have hchg := h.charged.chargeAll hnd hpld.reserved
      have hload : (fun node => totalDemand (done.map Step.component) node +
          if node ∈ nodes then descriptorMemoryDemand component.1 else 0) =
          totalDemand ((done ++ [(component, nodes)]).map Step.component) := by
        funext node
        rw [map_append]
        exact (totalDemand_append (done.map Step.component) (component.1, nodes) node).symm
      have hbusy : (fun node => (∃ step ∈ done, node ∈ step.2) ∨ node ∈ nodes) =
          fun node => ∃ step ∈ done ++ [(component, nodes)], node ∈ step.2 := by
        funext node
        simp [or_and_right, exists_or]
      rwa [hload, hbusy] at hchg
    · rw [pairwise_append]
      refine ⟨h.apart, pairwise_singleton _ _, ?_⟩
      intro step hstep other hoth
      cases mem_singleton.mp hoth
      intro hgrp heq node hnode hnode'
      exact hpld.separate (heq ▸ hgrp) node hnode' (heq ▸ h.used step hstep hgrp node hnode)
    · intro step hstep hgrp node hnode
      rw [hpld.used _ hgrp]
      rcases mem_append.mp hstep with hstep | hstep
      · have hused := h.used step hstep hgrp node hnode
        split
        · exact mem_append_left _ hused
        · exact hused
      · cases mem_singleton.mp hstep
        rw [if_pos rfl]
        exact mem_append_right _ hnode
    · rw [assign, foldl_append, h.assigned]
      rfl

end Progress

theorem length_assign (assignments : List (Option (List ℕ))) (done : List Step) :
    (assign assignments done).length = assignments.length := by
  induction done generalizing assignments with
  | nil => rfl
  | cons step done ih =>
    exact (ih _).trans length_set

variable {assignments : List (Option (List ℕ))} {done : List Step}

/-- An index that is not planned any more keeps its set. -/
theorem getElem?_assign_of_notMem {i : ℕ}
    (h : i ∉ done.map (·.1.2)) : (assign assignments done)[i]? = assignments[i]? := by
  induction done generalizing assignments with
  | nil => rfl
  | cons step done ih =>
    rw [map_cons, mem_cons, not_or] at h
    exact (ih h.2).trans (getElem?_set_ne (Ne.symm h.1))

theorem getElem?_assign (hnd : (done.map (·.1.2)).Nodup) {step : Step} (hstep : step ∈ done)
    (hi : step.1.2 < assignments.length) :
    (assign assignments done)[step.1.2]? = some (some step.2) := by
  induction done generalizing assignments with
  | nil => cases hstep
  | cons first done ih =>
    rw [map_cons, nodup_cons] at hnd
    rcases mem_cons.mp hstep with rfl | hstep
    · refine (getElem?_assign_of_notMem hnd.1).trans ?_
      rw [getElem?_set_self hi]
    · exact ih hnd.2 hstep (by rwa [length_set])

theorem mapM_eq_ite {β : Type} (f : α → Option β) (items : List α) : items.mapM f =
    if ∀ a ∈ items, (f a).isSome = true then some (items.filterMap f) else none := by
  induction items with
  | nil => rfl
  | cons a items ih =>
    rw [mapM_cons, ih]
    simp only [forall_mem_cons]
    cases hf : f a with
    | none => simp
    | some =>
      split <;> simp_all

theorem eq_map_of_mapM_id {items : List (Option α)} {values : List α}
    (h : items.mapM id = some values) : items = values.map some := by
  rw [mapM_eq_ite, Option.ite_none_right_eq_some] at h
  obtain ⟨hall, ⟨⟩⟩ := h
  rw [map_filterMap]
  refine (map_id items).symm.trans (filterMap_eq_map_iff_forall_eq_some.mpr fun item hmem => ?_).symm
  obtain ⟨_, rfl⟩ := Option.isSome_iff_exists.mp (hall item hmem)
  rfl

/-- The sets meet the policies of their components and fit on the nodes together. -/
structure Sound (descriptors : List DeploymentDescriptor) (eligibleNodes : List ℕ)
    (capacity : NodeCapacityView) (sets : List (List ℕ)) : Prop where
  length_eq : sets.length = descriptors.length
  nonzero : ∀ nodes ∈ sets, ∀ node ∈ nodes, node ≠ 0
  sound : ∀ (i : ℕ) descriptor nodes, descriptors[i]? = some descriptor → sets[i]? = some nodes →
    SetSound eligibleNodes capacity descriptor nodes
  apart : ∀ (i j : ℕ) x y, i ≠ j → (descriptors.zip sets)[i]? = some x →
    (descriptors.zip sets)[j]? = some y → Apart x y
  fits : ∀ (node : ℕ) sample, capacity[node]? = some sample → sample.usableFrames ≠ 0 →
    (∃ nodes ∈ sets, node ∈ nodes) → sample.Fits (totalDemand (descriptors.zip sets) node)

section Final

variable {descriptors : List DeploymentDescriptor} {capacity : NodeCapacityView} {done : List Step}
  {plan : Plan} {sets : List (List ℕ)}

theorem perm_planningOrder (descriptors : List DeploymentDescriptor) :
    (planningOrder descriptors).Perm descriptors.zipIdx := sortBy_perm _ _

theorem mem_planningOrder {component : DeploymentDescriptor × ℕ} :
    component ∈ planningOrder descriptors ↔ descriptors[component.2]? = some component.1 := by
  rw [(perm_planningOrder descriptors).mem_iff, mem_zipIdx_iff_getElem?]

theorem nodup_indices (hdone : done.map Prod.fst = planningOrder descriptors) :
    (done.map (·.1.2)).Nodup := by
  have hmap : done.map (·.1.2) = (planningOrder descriptors).map Prod.snd := by
    rw [← hdone, map_map]
    rfl
  rw [hmap, ((perm_planningOrder descriptors).map Prod.snd).nodup_iff, zipIdx_map_snd]
  exact nodup_range'

variable (h : Progress eligible capacity descriptors.length done plan)
  (hdone : done.map Prod.fst = planningOrder descriptors) (hsets : plan.assignments = sets.map some)
include h hdone hsets

theorem Progress.getElem?_sets {step : Step} (hstep : step ∈ done) :
    sets[step.1.2]? = some step.2 := by
  have hmem : step.1 ∈ planningOrder descriptors := hdone ▸ mem_map_of_mem hstep
  have hi : step.1.2 < (List.replicate descriptors.length (none : Option (List ℕ))).length := by
    rw [length_replicate]
    exact (List.getElem?_eq_some_iff.mp (mem_planningOrder.mp hmem)).1
  have hasg := getElem?_assign (nodup_indices hdone) hstep hi
  rw [← h.assigned, hsets, getElem?_map, Option.map_eq_some_iff] at hasg
  obtain ⟨_, hns, heq⟩ := hasg
  rw [hns, Option.some.inj heq]

/-- Every component of the release is planned, with the set that is returned for it. -/
theorem Progress.mem_done {i : ℕ} (hx : (descriptors.zip sets)[i]? = some x) : ((x.1, i), x.2) ∈ done := by
  obtain ⟨hdesc, hns⟩ := getElem?_zip_eq_some.mp hx
  have hmem : (x.1, i) ∈ done.map Prod.fst := hdone ▸ mem_planningOrder.mpr hdesc
  obtain ⟨⟨_, _⟩, hstep, rfl⟩ := mem_map.mp hmem
  have hsame := h.getElem?_sets hdone hsets hstep
  cases hsame.symm.trans hns
  exact hstep

theorem Progress.perm_zip (hlen : sets.length = descriptors.length) :
    (done.map Step.component).Perm (descriptors.zip sets) := by
  have hmap : done.map Step.component =
      (planningOrder descriptors).map fun component => (component.1, sets.getD component.2 []) := by
    rw [← hdone, map_map]
    refine map_congr_left fun step hstep => ?_
    simp [Step.component, getD_eq_getElem?_getD, h.getElem?_sets hdone hsets hstep]
  have hzip : descriptors.zipIdx.map (fun component => (component.1, sets.getD component.2 [])) =
      descriptors.zip sets := by
    apply ext_getElem
    · simp [hlen]
    · intro i hi hi'
      have hlt : i < sets.length := by
        rw [length_zip] at hi'
        omega
      simp [getD_eq_getElem?_getD, getElem?_eq_getElem hlt]
  rw [hmap, ← hzip]
  exact (perm_planningOrder descriptors).map _

theorem Progress.finish (hel : eligible = eligibleSet eligibleNodes) :
    Sound descriptors eligibleNodes capacity sets := by
  subst hel
  have hlen : sets.length = descriptors.length := by
    have hasg := congrArg List.length (hsets.symm.trans h.assigned)
    rwa [length_map, length_assign, length_replicate] at hasg
  have hperm := h.perm_zip hdone hsets hlen
  have hmem : ∀ nodes ∈ sets, ∃ step ∈ done, step.2 = nodes := by
    intro nodes hns
    obtain ⟨i, hi⟩ := mem_iff_getElem?.mp hns
    have hlt : i < descriptors.length := hlen ▸ (List.getElem?_eq_some_iff.mp hi).1
    have hzip : (descriptors.zip sets)[i]? = some (descriptors[i], nodes) :=
      getElem?_zip_eq_some.mpr ⟨getElem?_eq_getElem hlt, hi⟩
    exact ⟨_, h.mem_done hdone hsets hzip, rfl⟩
  refine ⟨hlen, ?_, ?_, ?_, ?_⟩
  · intro nodes hns node hnode
    obtain ⟨step, hstep, rfl⟩ := hmem nodes hns
    exact (mem_eligibleSet.mp ((h.sound step hstep).eligible node hnode)).2
  · intro i descriptor nodes hdesc hns
    have hzip : (descriptors.zip sets)[i]? = some (descriptor, nodes) :=
      getElem?_zip_eq_some.mpr ⟨hdesc, hns⟩
    have hsd := h.sound _ (h.mem_done hdone hsets hzip)
    exact { hsd with eligible := fun node hnode => (mem_eligibleSet.mp (hsd.eligible node hnode)).1 }
  · intro i j x y hij hx hy
    have : Std.Symm fun x y : Step => Apart x.component y.component := ⟨fun _ _ => Apart.symm⟩
    exact h.apart.forall (h.mem_done hdone hsets hx) (h.mem_done hdone hsets hy)
      fun heq => hij (congrArg (fun step : Step => step.1.2) heq)
  · rintro node sample hsam hus ⟨nodes, hns, hnode⟩
    obtain ⟨step, hstep, rfl⟩ := hmem nodes hns
    rw [← totalDemand_perm hperm]
    exact h.charged.fits node sample hsam hus ⟨step, hstep, hnode⟩

end Final

theorem decode_of_mapM {bytes : List Bytes} {descriptors : List DeploymentDescriptor}
    (h : bytes.mapM decode = some descriptors)
    (hmem : descriptor ∈ descriptors) : ∃ encoded, decode encoded = some descriptor := by
  rw [mapM_eq_ite, Option.ite_none_right_eq_some] at h
  obtain ⟨-, ⟨⟩⟩ := h
  obtain ⟨encoded, -, hdec⟩ := mem_filterMap.mp hmem
  exact ⟨encoded, hdec⟩

/-- The resolver returns only sets that meet every policy and fit together. -/
theorem resolved_sets_are_sound {descriptorBytes : List Bytes}
    {automaticNode : ℕ} {sets : List (List ℕ)}
    (h : resolveDescriptorAssignmentsWithCapacity descriptorBytes eligibleNodes automaticNode
      capacity = .ok sets) : ∃ descriptors, descriptorBytes.mapM Deployment.decode = some descriptors ∧
      Sound descriptors eligibleNodes capacity sets := by
  unfold resolveDescriptorAssignmentsWithCapacity at h
  split at h
  · cases h
  rename_i descriptors hdescs
  refine ⟨descriptors, hdescs, ?_⟩
  split at h
  · cases h
  rename_i plan hplan
  split at h
  · cases h
  rename_i hsets
  cases h
  have hstep : ∀ done plan component plan', component ∈ planningOrder descriptors →
      Progress (eligibleSet eligibleNodes) capacity descriptors.length done plan →
      plan.place (eligibleSet eligibleNodes) automaticNode component = .ok plan' →
      ∃ nodes, Progress (eligibleSet eligibleNodes) capacity descriptors.length
        (done ++ [(component, nodes)]) plan' := by
    intro done plan component plan' hcomp hprg hpl
    have hmem := mem_of_getElem? (mem_planningOrder.mp hcomp)
    obtain ⟨_, hdec⟩ := decode_of_mapM hdescs hmem
    exact hprg.place (increasing_eligibleSet eligibleNodes) (singleton_of_decode hdec) hpl
  obtain ⟨_, hdone, hprg⟩ := foldlM_history hstep (.start _ capacity _) hplan
  exact hprg.finish hdone (eq_map_of_mapM_id hsets) rfl

/-- A node of 1600 frames of which `free` are free. -/
def sampleNode (free : ℕ) (h : free < 2 ^ 64) : NodeCapacity :=
  ⟨some ⟨.x86_64, 3, 0⟩, free, 1600, 0, none, h, by decide, by decide⟩

/-- One component for any x86-64 node, with two replicas. -/
def pairDescriptor : Bytes :=
  layout 1 0 (text "web") ⟨2, 1, 2, 0, 0, 9⟩
    [⟨⟨.x86_64, 3, 0⟩, 0, List.replicate 32 0, text "web-1"⟩] (List.replicate 16 0)

def twoNodes : NodeCapacityView :=
  ExtTreeMap.ofList [(4, sampleNode 1000 (by decide)), (5, sampleNode 800 (by decide))]

theorem resolved_sets_are_sound_pair :
    resolveDescriptorAssignmentsWithCapacity [pairDescriptor] [5, 4, 5] 0 twoNodes = .ok [[4, 5]] ∧
      ∃ descriptors, [pairDescriptor].mapM Deployment.decode = some descriptors ∧
        Sound descriptors [5, 4, 5] twoNodes [[4, 5]] := by
  have h : resolveDescriptorAssignmentsWithCapacity [pairDescriptor] [5, 4, 5] 0 twoNodes =
      .ok [[4, 5]] := by
    decide +kernel
  exact ⟨h, resolved_sets_are_sound h⟩

/-- A node that nothing is placed on need not have its reserve free. -/
theorem reserve_missing_on_idle_node :
    ∃ (capacity : NodeCapacityView) (node : ℕ) (sample : NodeCapacity) (sets : List (List ℕ)),
      resolveDescriptorAssignmentsWithCapacity [] [node] 0 capacity = .ok sets ∧
        capacity[node]? = some sample ∧ sample.usableFrames ≠ 0 ∧
        ¬ sample.Fits (totalDemand (([] : List DeploymentDescriptor).zip sets) node) := by
  refine ⟨ExtTreeMap.ofList [(4, sampleNode 0 (by decide))], 4, sampleNode 0 (by decide), [],
    by decide, by simp, by decide, ?_⟩
  unfold Fits
  decide

end Charlotte.Placement
