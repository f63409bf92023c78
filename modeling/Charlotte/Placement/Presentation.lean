import Charlotte.Placement.Soundness

/-!
# Placement and presentation

The plan depends on the descriptors and the eligible nodes, not on the order in which they are
given: the loop meets the components by their names, and what it writes into the table is a
function of the name.
-/

namespace Charlotte.Placement

open Lib Launch List Deployment

variable {eligibleNodes eligibleNodes' eligible : List ℕ} {automaticNode : ℕ}
  {descriptors descriptors' : List DeploymentDescriptor} {names : List Bytes}

theorem eligibleSet_congr (h : ∀ node ≠ 0, node ∈ eligibleNodes' ↔ node ∈ eligibleNodes) :
    eligibleSet eligibleNodes' = eligibleSet eligibleNodes := by
  refine (increasing_eligibleSet _).eq_of_mem_iff (increasing_eligibleSet _) fun node => ?_
  rw [mem_eligibleSet, mem_eligibleSet]
  exact and_congr_left (h node)

/-- The descriptors in the order in which they are planned. -/
abbrev planned (descriptors : List DeploymentDescriptor) : List DeploymentDescriptor :=
  (planningOrder descriptors).map Prod.fst

theorem planned_perm (descriptors : List DeploymentDescriptor) : planned descriptors ~ descriptors := by
  have h := (perm_planningOrder descriptors).map Prod.fst
  rwa [zipIdx_map_fst] at h

theorem pairwise_planned (descriptors : List DeploymentDescriptor) :
    (planned descriptors).Pairwise fun a b => (compare a.artifactName b.artifactName).isLE = true := by
  have hcmp : Std.TransCmp fun a b : DeploymentDescriptor × ℕ =>
      (compare a.1.artifactName b.1.artifactName).then (compare a.2 b.2) :=
    inferInstanceAs (Std.TransCmp (compareLex (compareOn fun a : DeploymentDescriptor × ℕ =>
      a.1.artifactName) (compareOn Prod.snd)))
  refine pairwise_map.mpr ((pairwise_sortBy _).imp fun {a b} h => ?_)
  cases hab : compare a.1.artifactName b.1.artifactName <;> simp_all

/-- Descriptors with different names are planned in one order. -/
theorem planned_congr (hperm : descriptors' ~ descriptors)
    (hnd : (descriptors.map (·.artifactName)).Nodup) : planned descriptors' = planned descriptors := by
  have hplan := planned_perm descriptors
  have hplan' := (planned_perm descriptors').trans hperm
  refine Perm.eq_of_pairwise ?_ (pairwise_planned _) (pairwise_planned _) (hplan'.trans hplan.symm)
  intro a b ha hb hab hba
  refine inj_on_of_nodup_map hnd (hplan'.subset ha) (hplan.subset hb) ?_
  exact Std.LawfulEqCmp.eq_of_compare (Std.OrientedCmp.isLE_antisymm hab hba)

/-- The plan with the nodes of each component by its name. -/
structure NamedPlan where
  projection : Projection
  chosen : Bytes → Option (List ℕ)

/-- The table of the plan for components of these names. -/
def NamedPlan.plan (names : List Bytes) (plan : NamedPlan) : Plan :=
  ⟨plan.projection, names.map plan.chosen⟩

/-- `Plan.place`, by the name of the component. -/
def NamedPlan.place (eligible : List ℕ) (automaticNode : ℕ) (plan : NamedPlan)
    (descriptor : DeploymentDescriptor) : Except AdmissionError NamedPlan :=
  (placeComponent eligible automaticNode plan.projection descriptor).map fun (nodes, projection) =>
    ⟨projection, Function.update plan.chosen descriptor.artifactName (some nodes)⟩

theorem map_update_of_getElem? {α β : Type} [DecidableEq α] {items : List α} (hnd : items.Nodup)
    (f : α → β) {i : ℕ} {item : α} (h : items[i]? = some item) (value : β) :
    items.map (Function.update f item value) = (items.map f).set i value := by
  obtain ⟨hi, rfl⟩ := List.getElem?_eq_some_iff.mp h
  rw [hnd.map_update, if_pos (getElem_mem hi), hnd.idxOf_getElem]

theorem place_plan (hnd : names.Nodup) {component : DeploymentDescriptor × ℕ}
    (hname : names[component.2]? = some component.1.artifactName) (plan : NamedPlan) :
    (plan.plan names).place eligible automaticNode component =
      (plan.place eligible automaticNode component.1).map (·.plan names) := by
  unfold Plan.place NamedPlan.place NamedPlan.plan
  cases placeComponent eligible automaticNode plan.projection component.1 with
  | error => rfl
  | ok => simp only [Except.map, map_update_of_getElem? hnd _ hname]

/-- The loop on the table is the loop by name. -/
theorem foldlM_place (hnd : names.Nodup) {components : List (DeploymentDescriptor × ℕ)}
    (h : ∀ component ∈ components, names[component.2]? = some component.1.artifactName)
    (plan : NamedPlan) : components.foldlM (Plan.place eligible automaticNode) (plan.plan names) =
      ((components.map Prod.fst).foldlM (NamedPlan.place eligible automaticNode) plan).map
        (·.plan names) := by
  induction components generalizing plan with
  | nil => rfl
  | cons component components ih =>
    rw [forall_mem_cons] at h
    rw [foldlM_cons, map_cons, foldlM_cons, place_plan hnd h.1]
    cases plan.place eligible automaticNode component.1 with
    | error => rfl
    | ok next => exact ih h.2 next

/-- The descriptors that the bytes encode. -/
abbrev decoded (descriptorBytes : List Bytes) : List DeploymentDescriptor :=
  descriptorBytes.filterMap decode

/-- The nodes of each component, by its encoded descriptor. -/
def outcome (eligible : List ℕ) (automaticNode : ℕ) (capacity : NodeCapacityView)
    (descriptorBytes : List Bytes) : Except AdmissionError (Bytes → List ℕ) :=
  if ∀ bytes ∈ descriptorBytes, (decode bytes).isSome = true then do
    let plan ← (planned (decoded descriptorBytes)).foldlM (NamedPlan.place eligible automaticNode)
      ⟨⟨capacity, ∅⟩, fun _ => none⟩
    if ∀ descriptor ∈ decoded descriptorBytes, (plan.chosen descriptor.artifactName).isSome = true then
      .ok fun bytes => ((decode bytes).bind (plan.chosen ·.artifactName)).getD []
    else .error .invalid
  else .error .invalid

variable {capacity : NodeCapacityView} {descriptorBytes : List Bytes}

theorem resolve_eq_outcome (hnd : ((decoded descriptorBytes).map (·.artifactName)).Nodup) :
    resolveDescriptorAssignmentsWithCapacity descriptorBytes eligibleNodes automaticNode capacity =
      (outcome (eligibleSet eligibleNodes) automaticNode capacity descriptorBytes).map
        fun nodes => descriptorBytes.map nodes := by
  have hrun := @foldlM_place (eligibleSet eligibleNodes) automaticNode _ hnd
    (planningOrder (decoded descriptorBytes))
    (fun component hmem => by rw [getElem?_map, mem_planningOrder.mp hmem]; rfl)
    ⟨⟨capacity, ∅⟩, fun _ => none⟩
  rw [NamedPlan.plan, map_const', length_map] at hrun
  unfold resolveDescriptorAssignmentsWithCapacity outcome
  rw [mapM_eq_ite]
  by_cases hall : ∀ bytes ∈ descriptorBytes, (decode bytes).isSome = true
  · rw [if_pos hall, if_pos hall]
    simp only [hrun]
    cases (planned (decoded descriptorBytes)).foldlM (NamedPlan.place (eligibleSet eligibleNodes)
      automaticNode) ⟨⟨capacity, ∅⟩, fun _ => none⟩ with
    | error => rfl
    | ok plan =>
      simp only [Except.map, Except.bind, bind, NamedPlan.plan, mapM_eq_ite, forall_mem_map, id,
        filterMap_map, filterMap_filterMap]
      by_cases hch : ∀ d ∈ decoded descriptorBytes, (plan.chosen d.artifactName).isSome = true
      · simp only [if_pos hch]
        refine congrArg _ (filterMap_eq_map_iff_forall_eq_some.mpr fun bytes hmem => ?_)
        obtain ⟨d, hd⟩ := Option.isSome_iff_exists.mp (hall bytes hmem)
        obtain ⟨nodes, hnodes⟩ := Option.isSome_iff_exists.mp
          (hch d (mem_filterMap.mpr ⟨bytes, hmem, hd⟩))
        simp [hd, hnodes]
      · simp only [if_neg hch]
  · rw [if_neg hall, if_neg hall]
    rfl

/-- One outcome for the descriptors and the eligible nodes, in whatever order and however often
the nodes are given. -/
theorem placement_of_presentation
    (hnd : ((descriptorBytes.filterMap Deployment.decode).map (·.artifactName)).Nodup) :
    ∃ outcome : Except AdmissionError (Bytes → List ℕ), ∀ descriptorBytes' eligibleNodes',
      descriptorBytes' ~ descriptorBytes →
      (∀ node ≠ 0, node ∈ eligibleNodes' ↔ node ∈ eligibleNodes) →
      resolveDescriptorAssignmentsWithCapacity descriptorBytes' eligibleNodes' automaticNode capacity =
        outcome.map fun nodes => descriptorBytes'.map nodes := by
  refine ⟨outcome (eligibleSet eligibleNodes) automaticNode capacity descriptorBytes, ?_⟩
  intro descriptorBytes' eligibleNodes' hperm hel
  have hdec : decoded descriptorBytes' ~ decoded descriptorBytes := hperm.filterMap _
  rw [resolve_eq_outcome ((hdec.map _).nodup_iff.mpr hnd), eligibleSet_congr hel]
  simp only [outcome, planned_congr hdec hnd, hperm.mem_iff, hdec.mem_iff]

/-- One component for any x86-64 node. -/
def soloDescriptor : Bytes :=
  layout 1 0 (text "db") ⟨1, 1, 1, 0, 0, 0⟩
    [⟨⟨.x86_64, 3, 0⟩, 0, List.replicate 32 0, text "db-1"⟩] (List.replicate 16 0)

theorem placement_of_presentation_pair :
    resolveDescriptorAssignmentsWithCapacity [soloDescriptor, pairDescriptor] [0, 4, 5, 4] 0 twoNodes =
      .ok [[4], [4, 5]] := by
  have h : resolveDescriptorAssignmentsWithCapacity [pairDescriptor, soloDescriptor] [5, 4, 5] 0
      twoNodes = .ok [[4, 5], [4]] := by
    decide +kernel
  obtain ⟨outcome, hout⟩ := @placement_of_presentation [5, 4, 5] 0 twoNodes
    [pairDescriptor, soloDescriptor] (by decide +kernel)
  rw [hout _ [5, 4, 5] (.refl _) (by simp)] at h
  rw [hout _ _ (.swap ..) (by simp; omega)]
  cases outcome with
  | error => cases h
  | ok nodes =>
    simp only [Except.map, Except.ok.injEq, map_cons, map_nil, cons.injEq] at h ⊢
    exact ⟨h.2.1, h.1, trivial⟩

end Charlotte.Placement
