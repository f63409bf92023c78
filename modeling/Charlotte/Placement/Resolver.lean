import Charlotte.Launch.Descriptor

/-!
# The placement resolver

`operations_admission.rs`: which nodes the components of a release run on. The
components are planned in the order of their artifact names against a view of the
nodes' memory that is charged as the plan grows.
-/

namespace Charlotte.Placement

open Lib Launch
open Std (ExtTreeMap)

inductive AdmissionError
  | invalid
  | unsatisfiablePlacement
  | insufficientCapacity
  | insufficientCompatibleCapacity
  deriving DecidableEq, Repr

def saturatingAdd (a b : ℕ) : ℕ := min (a + b) (2 ^ 64 - 1)

def saturatingMul (a b : ℕ) : ℕ := min (a * b) (2 ^ 64 - 1)

/-- What the resolver knows about a node. The frame counts are `u64`. -/
structure NodeCapacity where
  target : Option ExecutionTarget
  freeFrames : ℕ
  usableFrames : ℕ
  /-- What is promised to other deployments on the node. -/
  committedFrames : ℕ
  /-- `none` is `CPU_LOAD_UNKNOWN`. -/
  cpuLoadPermille : Option ℕ
  free_lt : freeFrames < 2 ^ 64
  usable_lt : usableFrames < 2 ^ 64
  committed_lt : committedFrames < 2 ^ 64

abbrev NodeCapacityView := ExtTreeMap ℕ NodeCapacity

namespace NodeCapacity

variable (sample : NodeCapacity)

/-- The frames that stay free on a node. -/
def reserve : ℕ := max (sample.usableFrames / 16) 1

def memoryBucketOf : ℕ :=
  let free := min sample.freeFrames sample.usableFrames
  if sample.usableFrames = 0 then 2
  else if free < sample.reserve then 0
  else if free < sample.usableFrames / 8 then 1
  else if free < sample.usableFrames / 4 then 2
  else 3

def cpuBucketOf : ℕ :=
  match sample.cpuLoadPermille with
  | none => 2
  | some load => if 950 ≤ load then 0 else if 750 ≤ load then 1 else if 500 ≤ load then 2 else 3

/-- The sample with `demand` more frames promised. -/
def charge (demand : ℕ) : NodeCapacity :=
  { sample with
    freeFrames := sample.freeFrames - demand
    committedFrames := saturatingAdd sample.committedFrames demand
    free_lt := Nat.lt_of_le_of_lt (Nat.sub_le _ _) sample.free_lt
    committed_lt := Nat.lt_of_le_of_lt (Nat.min_le_right _ _) (by decide) }

end NodeCapacity

variable (capacity : NodeCapacityView)

def capacityBucket (node : ℕ) : ℕ :=
  (capacity[node]?).elim 2 NodeCapacity.memoryBucketOf

def cpuBucket (node : ℕ) : ℕ :=
  (capacity[node]?).elim 2 NodeCapacity.cpuBucketOf

def pressureBucket (node : ℕ) : ℕ :=
  min (capacityBucket capacity node) (cpuBucket capacity node)

def domainRuntimePages : ℕ := 8

variable (descriptor : DeploymentDescriptor)

def descriptorMemoryDemand : ℕ :=
  saturatingAdd (saturatingMul descriptor.maxThreads descriptor.stackPagesPerThread)
    domainRuntimePages

def nodeCanHost (node demandFrames : ℕ) : Bool :=
  match capacity[node]? with
  | none => true
  | some sample =>
    if sample.usableFrames = 0 then true
    else
      decide (saturatingAdd demandFrames sample.reserve ≤ min sample.freeFrames sample.usableFrames) &&
        decide (saturatingAdd sample.committedFrames demandFrames ≤
          sample.usableFrames - sample.reserve)

/-- `reserve_node_capacity`; `none` where the source returns false. -/
def reserveNodeCapacity (node demandFrames : ℕ) : Option NodeCapacityView :=
  if !nodeCanHost capacity node demandFrames then none
  else
    match capacity[node]? with
    | none => some capacity
    | some sample =>
      if sample.usableFrames = 0 then some capacity
      else some (capacity.insert node (sample.charge demandFrames))

/-- The last of the elements that nothing exceeds, as `Iterator::max_by` has it. -/
def maxBy {α : Type} (cmp : α → α → Ordering) (items : List α) : Option α :=
  items.foldl (fun best item =>
    match best with
    | none => some item
    | some best => if cmp best item = .gt then some best else some item) none

/-- The keys of the source never tie, so that every sort has the same result. -/
def sortBy {α : Type} (cmp : α → α → Ordering) (items : List α) : List α :=
  items.insertionSort fun a b => (cmp a b).isLE = true

def countOnes (value : ℕ) : ℕ := (List.range 64).countP value.testBit

/-- Highest priority, then most features, then first in the descriptor. -/
def compareVariants (a b : ArtifactVariant × ℕ) : Ordering :=
  (compare a.1.priority b.1.priority).then
    ((compare (countOnes a.1.target.features) (countOnes b.1.target.features)).then
      (compare b.2 a.2))

def selectVariant (node : ExecutionTarget) : Option ℕ :=
  (maxBy compareVariants
    (descriptor.variants.zipIdx.filter fun (variant, _) => node.supports variant.target)).bind
    fun (_, index) => if index < 2 ^ 16 then some index else none

def compatibleNode (capacity : NodeCapacityView) (node : ℕ) : Bool :=
  ((capacity[node]?.bind (·.target)).bind (selectVariant descriptor)).isSome

def fnv1a (bytes : Bytes) : UInt64 :=
  bytes.foldl (fun hash byte => (hash ^^^ byte.toUInt64) * 0x100000001b3) 0xcbf29ce484222325

/-- The stable hash rank of a node. -/
def score (seed : Bytes) (node : ℕ) : UInt64 := fnv1a (seed ++ leBytes 8 node)

/-- The less a node is under pressure the greater it is, then the greater its score. -/
def compareNodes (seed : Bytes) (a b : ℕ) : Ordering :=
  (compare (pressureBucket capacity a) (pressureBucket capacity b)).then
    ((compare (score seed a) (score seed b)).then (compare b a))

/-- What the plan has used up so far: the charged view of the nodes, and the nodes that each
anti-affinity group occupies. -/
structure Projection where
  capacity : NodeCapacityView
  antiAffinity : ExtTreeMap ℕ (List ℕ)

namespace Projection

variable (projection : Projection)

def used (group : ℕ) : List ℕ := projection.antiAffinity.getD group []

/-- Charge a set of nodes, one after the other. -/
def reserveAll (nodes : List ℕ) (demand : ℕ) : Except AdmissionError Projection :=
  match nodes.foldlM (fun capacity node => reserveNodeCapacity capacity node demand)
      projection.capacity with
  | none => .error .insufficientCapacity
  | some capacity => .ok { projection with capacity }

def occupy (group : ℕ) (nodes : List ℕ) : Projection :=
  if group = 0 then projection
  else
    { projection with
      antiAffinity := projection.antiAffinity.insert group (projection.used group ++ nodes) }

end Projection

variable (eligible : List ℕ)

/-- A component with a node key. -/
def placePinned (projection : Projection) (descriptor : DeploymentDescriptor) :
    Except AdmissionError (List ℕ × Projection) :=
  if !eligible.contains descriptor.nodeKey then .error .unsatisfiablePlacement
  else if !compatibleNode descriptor projection.capacity descriptor.nodeKey then
    .error .insufficientCompatibleCapacity
  else
    (projection.reserveAll [descriptor.nodeKey] (descriptorMemoryDemand descriptor)).map
      fun projection => ([descriptor.nodeKey], projection)

/-- What is short when no candidate is left. -/
def shortage : AdmissionError :=
  if eligible.isEmpty then .unsatisfiablePlacement else .insufficientCapacity

variable (candidates : List ℕ)

variable (automaticNode : ℕ)

/-- The node of a component with the singleton policy. -/
def selectSingleton (projection : Projection) (descriptor : DeploymentDescriptor) : Option ℕ :=
  if automaticNode != 0 && candidates.contains automaticNode then some automaticNode
  else maxBy (compareNodes projection.capacity descriptor.artifactName) candidates

def placeSingleton (eligible candidates : List ℕ) (automaticNode : ℕ) (projection : Projection)
    (descriptor : DeploymentDescriptor) : Except AdmissionError (List ℕ × Projection) :=
  match selectSingleton candidates automaticNode projection descriptor with
  | none => .error (shortage eligible)
  | some selected =>
    (projection.reserveAll [selected] (descriptorMemoryDemand descriptor)).map
      fun projection => ([selected], projection)

/-- The seed that ranks the nodes of a component. -/
def rankingSeed : Bytes :=
  if descriptor.placement.colocateAffinityGroup then leBytes 8 descriptor.placement.affinityGroup
  else descriptor.artifactName

def wantedNodes (policy : PlacementPolicy) : ℕ :=
  if policy.everyEligibleNode then candidates.length else policy.replicas

/-- The candidates that the anti-affinity group of a component does not occupy yet. -/
def unoccupied (projection : Projection) (policy : PlacementPolicy) : List ℕ :=
  candidates.filter fun node =>
    policy.antiAffinityGroup == 0 || !(projection.used policy.antiAffinityGroup).contains node

/-- The best ranked candidates, in increasing order. -/
def selectReplicas (projection : Projection) (descriptor : DeploymentDescriptor) : List ℕ :=
  let ranked := sortBy (fun a b => compareNodes projection.capacity (rankingSeed descriptor) b a)
    (unoccupied candidates projection descriptor.placement)
  sortBy compare (ranked.take (wantedNodes candidates descriptor.placement))

def placeReplicas (eligible candidates : List ℕ) (projection : Projection)
    (descriptor : DeploymentDescriptor) : Except AdmissionError (List ℕ × Projection) :=
  let policy := descriptor.placement
  let wanted := wantedNodes candidates policy
  let selected := selectReplicas candidates projection descriptor
  if policy.everyEligibleNode && candidates.isEmpty then .error (shortage eligible)
  else if wanted = 0 ∨ eligible.length < wanted then .error .unsatisfiablePlacement
  else if candidates.length < wanted then .error .insufficientCapacity
  else if (unoccupied candidates projection policy).length < wanted then
    .error .unsatisfiablePlacement
  else
    (projection.reserveAll selected (descriptorMemoryDemand descriptor)).map
      fun projection => (selected, projection.occupy policy.antiAffinityGroup selected)

/-- The body of the loop: the nodes of one component. -/
def placeComponent (projection : Projection)
    (descriptor : DeploymentDescriptor) : Except AdmissionError (List ℕ × Projection) :=
  let policy := descriptor.placement
  let compatible := eligible.filter (compatibleNode descriptor projection.capacity)
  let candidates := compatible.filter fun node =>
    decide (0 < capacityBucket projection.capacity node) &&
      nodeCanHost projection.capacity node (descriptorMemoryDemand descriptor)
  if descriptor.nodeKey ≠ 0 then placePinned eligible projection descriptor
  else if !policy.validShape then .error .invalid
  else if !eligible.isEmpty && (compatible.isEmpty ||
      (!policy.everyEligibleNode && decide (compatible.length < policy.replicas))) then
    .error .insufficientCompatibleCapacity
  else if policy = .singleton then
    placeSingleton eligible candidates automaticNode projection descriptor
  else placeReplicas eligible candidates projection descriptor

/-- The plan under construction. -/
structure Plan where
  projection : Projection
  /-- One entry for each descriptor. -/
  assignments : List (Option (List ℕ))

def Plan.place (plan : Plan) (component : DeploymentDescriptor × ℕ) : Except AdmissionError Plan :=
  (placeComponent eligible automaticNode plan.projection component.1).map fun (nodes, projection) =>
    ⟨projection, plan.assignments.set component.2 (some nodes)⟩

/-- The nodes that may be chosen at all, in increasing order and each of them once. -/
def eligibleSet (eligibleNodes : List ℕ) : List ℕ :=
  (sortBy compare (eligibleNodes.filter (· ≠ 0))).destutter (· ≠ ·)

/-- Components are planned in the order of their artifact names. -/
def planningOrder (descriptors : List DeploymentDescriptor) : List (DeploymentDescriptor × ℕ) :=
  sortBy (fun a b => (compare a.1.artifactName b.1.artifactName).then (compare a.2 b.2))
    descriptors.zipIdx

def resolveDescriptorAssignmentsWithCapacity (descriptorBytes : List Bytes)
    (eligibleNodes : List ℕ) (automaticNode : ℕ) (capacity : NodeCapacityView) :
    Except AdmissionError (List (List ℕ)) :=
  match descriptorBytes.mapM Deployment.decode with
  | none => .error .invalid
  | some descriptors =>
    match (planningOrder descriptors).foldlM (Plan.place (eligibleSet eligibleNodes) automaticNode)
        ⟨⟨capacity, ∅⟩, List.replicate descriptors.length none⟩ with
    | .error error => .error error
    | .ok plan =>
      match plan.assignments.mapM id with
      | none => .error .invalid
      | some sets => .ok sets

end Charlotte.Placement
