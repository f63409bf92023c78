import Charlotte.Catalog.State

/-!
# Commands of the name catalog

`NameCatalog::apply_command`, one definition per command. An early return of the
source leaves the catalog as it was: it is the `error` of `Outcome`, whose bytes
are the reply. The one early return that comes after a change is an `ok`.
-/

namespace Charlotte.Catalog

open Lib Launch Launch.ReleaseAdmission Deployment OperationsBundle
open Std (ExtTreeMap)

def maxEntries : ℕ := 4096
def maxDeployments : ℕ := 4096
def maxReleases : ℕ := 4096
def maxOperationalBindings : ℕ := 8192
def maxShutdownIntents : ℕ := 4096
def maxNodeCapacityEntries : ℕ := 256

/-- The reply for a code of `clusterctl`, `-code` as an `i64`. -/
def errorReply (code : ℕ) : Bytes := leBytes 8 (2 ^ 64 - code)

def errUntrustedDescriptor : Bytes := errorReply 13
def errStaleDescriptor : Bytes := errorReply 14
def errConflictingDescriptor : Bytes := errorReply 15
def errCapacity : Bytes := errorReply 20
def errIncompatibleTarget : Bytes := errorReply 23

/-- The result of a step of a command, or the reply of an early return. -/
abbrev Outcome (α : Type) := Except Bytes α

/-- The value, or an early return. -/
def orReply {α : Type} (reply : Bytes) : Option α → Outcome α
  | some a => .ok a
  | none => .error reply

/-- An early return if the condition holds. -/
def refuse (condition : Bool) (reply : Bytes) : Outcome Unit :=
  if condition then .error reply else .ok ()

/-- `checked_add(1)` on a `u64`. -/
def checkedSucc (value : ℕ) : Option ℕ := if value + 1 < 2 ^ 64 then some (value + 1) else none

/-- A generation that a reply can carry as an `i64`. -/
def bounded (generation : Option ℕ) : Option ℕ := generation.filter (· ≤ maxGeneration)

/-- The generation after a record's, or the first one. -/
def nextGeneration (current : Option ℕ) : Option ℕ := current.elim (some 1) checkedSucc

/-- Clear the active flag of every publication under a name. -/
def retireReplicas (replicas : ByteMap (ByteMap CatalogEntry)) (name : Bytes) :
    ByteMap (ByteMap CatalogEntry) :=
  replicas.modify name fun byNode => byNode.map fun _ entry => { entry with active := false }

/-- A node and the index of its variant. -/
def takePin (bytes : Bytes) : Option ((ℕ × ℕ) × Bytes) := do
  let (node, rest) ← takeLe 8 bytes
  let (variant, rest) ← takeLe 2 rest
  some ((node, variant), rest)

/-- The nodes of the replicas, and the index of the variant on each. -/
structure Assignment where
  nodes : List ℕ
  variants : List ℕ
  deriving DecidableEq, Repr

def Assignment.ofPins (pins : List (ℕ × ℕ)) : Assignment := ⟨pins.map Prod.fst, pins.map Prod.snd⟩

/-- `count` pins of non-zero nodes in strictly increasing order. -/
def takePins (count : ℕ) (bytes : Bytes) : Option (Assignment × Bytes) := do
  let (pins, rest) ← takeMany takePin count bytes
  let assignment := Assignment.ofPins pins
  reject (assignment.nodes.contains 0 || !decide (assignment.nodes.Pairwise (· < ·)))
  some (assignment, rest)

/-- One assignment of a `CMD_RELEASE`. -/
def takeSingle (bytes : Bytes) : Option (Assignment × Bytes) := takePins 1 bytes

/-- One assignment of a `CMD_RELEASE_REPLICAS`. -/
def takeReplicaSet (bytes : Bytes) : Option (Assignment × Bytes) := do
  let (replicaCount, rest) ← takeLe 2 bytes
  reject (replicaCount == 0)
  takePins replicaCount rest

/-- A binding as a release command carries it. -/
structure CompactOperationalBinding where
  targetArtifact : Bytes
  profileName : Bytes
  objectKey : Bytes
  envelopeDigest : Bytes
  profileKind : ℕ
  sequence : ℕ
  expiresUnixSeconds : ℕ
  recipientKeyId : Bytes
  signingKeyId : Bytes
  authorizationSignature : Bytes
  deriving DecidableEq, Repr

/-- The operational tail of a release command. -/
structure CompactOperationalSet where
  bundleSequence : ℕ
  bundleDigest : Bytes
  bindings : List CompactOperationalBinding
  deriving DecidableEq, Repr

def allZero (bytes : Bytes) : Bool := bytes.all (· == 0)

def takeCompactBinding (bytes : Bytes) : Option (CompactOperationalBinding × Bytes) := do
  let (sequence, rest) ← takeLe 8 bytes
  let (expiresUnixSeconds, rest) ← takeLe 8 rest
  let (profileKind, rest) ← takeLe 2 rest
  let (targetLen, rest) ← takeLe 2 rest
  let (profileLen, rest) ← takeLe 2 rest
  let (objectLen, rest) ← takeLe 2 rest
  let (envelopeDigest, rest) ← takeBytes 32 rest
  let (recipientKeyId, rest) ← takeBytes Operations.keyIdLen rest
  let (signingKeyId, rest) ← takeBytes Operations.keyIdLen rest
  let (authorizationSignature, rest) ← takeBytes bindingSignatureLen rest
  let (targetArtifact, rest) ← takeBytes targetLen rest
  let (profileName, rest) ← takeBytes profileLen rest
  let (objectKey, rest) ← takeBytes objectLen rest
  some ({ targetArtifact, profileName, objectKey, envelopeDigest, profileKind, sequence,
          expiresUnixSeconds, recipientKeyId, signingKeyId, authorizationSignature }, rest)

/-- The checks `parse_operational_tail` makes of one binding. -/
def CompactOperationalBinding.wellFormed (release : ReleaseEnvelope)
    (binding : CompactOperationalBinding) : Bool :=
  binding.sequence != 0 && binding.expiresUnixSeconds != 0 &&
    Operations.validProfileKind binding.profileKind &&
    validArtifactName binding.targetArtifact &&
    release.containsArtifact binding.targetArtifact &&
    Operations.validProfileName binding.profileName &&
    validObjectKey binding.objectKey &&
    !allZero binding.envelopeDigest && !allZero binding.recipientKeyId &&
    !allZero binding.signingKeyId && !allZero binding.authorizationSignature

/-- The bundle after the assignments of a release, `some none` where there is none. -/
def parseOperationalTail (release : ReleaseEnvelope) (bytes : Bytes) :
    Option (Option CompactOperationalSet) := do
  if bytes.isEmpty then some none
  else
    let (bundleSequence, rest) ← takeLe 8 bytes
    let (bundleDigest, rest) ← takeBytes 32 rest
    let (bindingCount, rest) ← takeLe 2 rest
    reject (bundleSequence == 0 || allZero bundleDigest || bindingCount == 0 ||
        maxBindings < bindingCount)
    let (bindings, rest) ← takeMany takeCompactBinding bindingCount rest
    reject (bindings.any fun binding => !binding.wellFormed release)
    reject (!decide (bindings.map (·.targetArtifact)).Nodup ||
        !decide (bindings.map (·.profileName)).Nodup ||
        !decide (bindings.map (·.objectKey)).Nodup)
    reject (!rest.isEmpty)
    some (some ⟨bundleSequence, bundleDigest, bindings⟩)

/-- `release_receipt`. -/
def releaseReceipt (crypto : Crypto) (envelope : Bytes) (generation : ℕ) (components : List ℕ) :
    Option Bytes :=
  (Receipt.new crypto envelope generation components).map Receipt.encode

/-- `decode_node_capacity`, after the command byte. -/
def decodeNodeCapacity (bytes : Bytes) : Option NodeCapacityEntry := do
  reject (bytes.length != 58)
  let (nodeKey, rest) ← takeLe 8 bytes
  let (bootNonce, rest) ← takeLe 8 rest
  let (epoch, rest) ← takeLe 8 rest
  let (freeFrames, rest) ← takeLe 8 rest
  let (usableFrames, rest) ← takeLe 8 rest
  let (cpuLoadPermille, rest) ← takeLe 2 rest
  let target ← ExecutionTarget.decode rest
  reject (nodeKey == 0 || bootNonce == 0 || epoch == 0 || usableFrames == 0 ||
      usableFrames < freeFrames || 1000 < cpuLoadPermille)
  some { target, nodeKey, bootNonce, epoch, freeFrames, usableFrames, cpuLoadPermille }

namespace NameCatalog

variable (trust : Trust) (catalog : NameCatalog)

/-- A view may follow the stored one: terms and epochs do not go back, and a term has
one leader. The stored view itself is answered with its generation. -/
def checkView (view : Availability.View) (current : Option Availability.Entry) : Outcome Unit :=
  match current with
  | none => pure ()
  | some previous => do
      refuse (decide (view.term < previous.view.term) ||
        decide (view.membershipEpoch < previous.view.membershipEpoch) ||
        (view.term == previous.view.term && view.leaderNode != previous.view.leaderNode)) []
      refuse (view == previous.view) (leBytes 8 previous.generation)

/-- The availability that the leader reports. -/
def applyAvailability (term : ℕ) (command : Bytes) : Outcome (NameCatalog × Bytes) := do
  let view ← orReply [] (Availability.View.decode command)
  refuse (view.term != term) []
  checkView view catalog.ingressAvailability
  let generation ← orReply []
    (bounded (nextGeneration (catalog.ingressAvailability.map (·.generation))))
  pure ({ catalog with ingressAvailability := some ⟨generation, view⟩ }, leBytes 8 generation)

/-- A publication of a deployed application. The name's map is created before the
generation is known, so a refusal may leave an empty one behind. -/
def registerReplica (name node : Bytes) (deploymentGeneration : ℕ) :
    Outcome (NameCatalog × Bytes) := do
  let nodeKey ← orReply [] (keyFromName node)
  refuse (!(catalog.deployments[name]?).any fun deployment =>
    deployment.generation == deploymentGeneration && deployment.replicaNodes.contains nodeKey)
    (leBytes 8 0)
  let ordinaryGeneration := (catalog.entries[name]?).elim 0 (·.generation)
  let byNode := (catalog.deploymentReplicas[name]?).getD ∅
  let latest := (byNode.toList.map Prod.snd).foldl (fun latest entry => max latest entry.generation)
    ordinaryGeneration
  match bounded (checkedSucc latest) with
  | none =>
    pure ({ catalog with deploymentReplicas := catalog.deploymentReplicas.insert name byNode },
      leBytes 8 0)
  | some generation =>
    let entry : CatalogEntry := ⟨node, generation, false, deploymentGeneration⟩
    pure ({ catalog with
      deploymentReplicas := catalog.deploymentReplicas.insert name (byNode.insert node entry) },
      leBytes 8 generation)

def registerOrdinary (name node : Bytes) : Outcome (NameCatalog × Bytes) := do
  refuse (!catalog.entries.contains name && decide (maxEntries ≤ catalog.entries.size)) (leBytes 8 0)
  let generation ← orReply (leBytes 8 0)
    (match catalog.entries[name]? with
      | some entry => bounded (checkedSucc entry.generation)
      | none => some 1)
  let entry : CatalogEntry := ⟨node, generation, false, 0⟩
  pure ({ catalog with entries := catalog.entries.insert name entry }, leBytes 8 generation)

/-- `CMD_REGISTER`. -/
def applyRegister (bytes : Bytes) : Outcome (NameCatalog × Bytes) := do
  let (name, rest) ← orReply [] (takeLenBytes bytes)
  let (node, rest) ← orReply [] (takeLenBytes rest)
  let (deploymentGeneration, rest) ← orReply [] (takeLe 8 rest)
  refuse (!rest.isEmpty) []
  if deploymentGeneration != 0 then catalog.registerReplica name node deploymentGeneration
  else catalog.registerOrdinary name node

/-- Bytes after the name are not looked at. -/
def applyUnregister (bytes : Bytes) : Outcome (NameCatalog × Bytes) := do
  let (name, _) ← orReply [] (takeLenBytes bytes)
  pure ({ catalog with
    entries := catalog.entries.modify name fun entry => { entry with node := [], active := false }
    deploymentReplicas := retireReplicas catalog.deploymentReplicas name }, [])

/-- Whether `CMD_ACTIVATE` finds its registration among the ordinary ones. -/
def activatesOrdinary (name : Bytes) (generation : ℕ) : Bool :=
  (catalog.entries[name]?).any fun entry => entry.generation == generation && !entry.node.isEmpty

/-- An ordinary registration goes first, then the first replica of that generation. -/
def applyActivate (bytes : Bytes) : Outcome (NameCatalog × Bytes) := do
  let (name, rest) ← orReply [] (takeLenBytes bytes)
  let (generation, _) ← orReply [] (takeLe 8 rest)
  if catalog.activatesOrdinary name generation then
    pure ({ catalog with
      entries := catalog.entries.modify name fun entry => { entry with active := true } },
      leBytes 8 generation)
  else
    let byNode ← orReply [] catalog.deploymentReplicas[name]?
    let (key, entry) ← orReply [] (byNode.toList.find? fun (_, entry) => entry.generation == generation)
    refuse entry.node.isEmpty []
    pure ({ catalog with
      deploymentReplicas := catalog.deploymentReplicas.insert name
        (byNode.insert key { entry with active := true }) }, leBytes 8 generation)

/-- `CMD_UNREGISTER_GENERATION`. -/
def applyUnregisterGeneration (bytes : Bytes) : Outcome (NameCatalog × Bytes) := do
  let (name, rest) ← orReply [] (takeLenBytes bytes)
  let (node, rest) ← orReply [] (takeLenBytes rest)
  let (generation, _) ← orReply [] (takeLe 8 rest)
  if (catalog.entries[name]?).any fun entry =>
      entry.active && entry.node == node && entry.generation == generation then
    pure ({ catalog with
      entries := catalog.entries.modify name fun entry => { entry with node := [], active := false } },
      leBytes 8 generation)
  else
    let byNode ← orReply [] catalog.deploymentReplicas[name]?
    let entry ← orReply [] byNode[node]?
    refuse (!entry.active || entry.generation != generation) []
    pure ({ catalog with
      deploymentReplicas := catalog.deploymentReplicas.insert name
        (byNode.insert node { entry with active := false }) }, leBytes 8 generation)

/-- Every assigned node has reported a target that runs its variant. -/
def assignmentsCompatible (descriptor : DeploymentDescriptor) (assignment : Assignment) : Bool :=
  assignment.nodes.length == assignment.variants.length &&
    (assignment.nodes.zip assignment.variants).all fun (node, index) =>
      match catalog.nodeCapacity[node]?, descriptor.variant index with
      | some profile, some variant => profile.target.supports variant.target
      | _, _ => false

/-- A descriptor may follow the stored one: it is newer, or it is the same one. -/
def checkSequence (sequence : ℕ) (descriptor : Bytes) (current : Option DeploymentEntry) :
    Outcome Unit :=
  match current with
  | none => pure ()
  | some existing => do
      let previous ← orReply [] (decode existing.descriptor)
      refuse (decide (sequence < previous.sequence)) errStaleDescriptor
      refuse (sequence == previous.sequence && existing.descriptor != descriptor)
        errConflictingDescriptor

/-- Exact desired state is answered with its generation, so that a retry changes nothing. -/
def refuseInPlace (nodeKey variant : ℕ) (descriptor : Bytes) (current : Option DeploymentEntry) :
    Outcome Unit :=
  match current with
  | none => pure ()
  | some existing =>
    refuse (existing.replicaNodes == [nodeKey] && existing.descriptor == descriptor &&
      existing.replicaVariants == [variant]) (leBytes 8 existing.generation)

/-- `CMD_DEPLOY`. -/
def applyDeploy (bytes : Bytes) : Outcome (NameCatalog × Bytes) := do
  let (nodeKey, rest) ← orReply [] (takeLe 8 bytes)
  let (variant, rest) ← orReply [] (takeLe 2 rest)
  let (descriptor, rest) ← orReply [] (takeLenBytes rest)
  refuse (!rest.isEmpty || decide (maxDescriptorLen < descriptor.length)) []
  let signed ← orReply errUntrustedDescriptor (decode descriptor)
  let artifact := signed.artifactName
  refuse (verify trust.crypto descriptor (catalog.deploymentKey trust) != .valid ||
    (signed.nodeKey != 0 && signed.nodeKey != nodeKey) ||
    signed.placement != PlacementPolicy.singleton) errUntrustedDescriptor
  refuse (!catalog.assignmentsCompatible signed ⟨[nodeKey], [variant]⟩) errIncompatibleTarget
  let current := catalog.deployments[artifact]?
  refuseInPlace nodeKey variant descriptor current
  checkSequence signed.sequence descriptor current
  let generation ← orReply (leBytes 8 0) (nextGeneration (current.map (·.generation)))
  refuse (!catalog.deployments.contains artifact &&
    decide (maxDeployments ≤ catalog.deployments.size)) errCapacity
  pure ({ catalog with
    deployments := catalog.deployments.insert artifact ⟨[nodeKey], [variant], generation, descriptor⟩
    deploymentReplicas := retireReplicas catalog.deploymentReplicas artifact },
    leBytes 8 generation)

/-- `CMD_REASSIGN`. -/
def applyReassign (bytes : Bytes) : Outcome (NameCatalog × Bytes) := do
  let (artifact, rest) ← orReply [] (takeLenBytes bytes)
  let (expectedGeneration, rest) ← orReply [] (takeLe 8 rest)
  let (nodeCount, rest) ← orReply [] (takeLe 2 rest)
  refuse (nodeCount == 0) []
  let (assignment, rest) ← orReply [] (takePins nodeCount rest)
  refuse (!rest.isEmpty) []
  let current ← orReply [] catalog.deployments[artifact]?
  refuse (current.generation != expectedGeneration || current.descriptor.isEmpty) (leBytes 8 0)
  let descriptor ← orReply [] (decode current.descriptor)
  refuse (descriptor.nodeKey != 0 || (!descriptor.placement.everyEligibleNode &&
    assignment.nodes.length != descriptor.placement.replicas)) []
  refuse (!catalog.assignmentsCompatible descriptor assignment) errIncompatibleTarget
  refuse (current.replicaNodes == assignment.nodes && current.replicaVariants == assignment.variants)
    (leBytes 8 current.generation)
  let generation ← orReply (leBytes 8 0) (bounded (checkedSucc current.generation))
  pure ({ catalog with
    deployments := catalog.deployments.insert artifact
      { current with replicaNodes := assignment.nodes
                     replicaVariants := assignment.variants
                     generation }
    deploymentReplicas := retireReplicas catalog.deploymentReplicas artifact },
    leBytes 8 generation)

/-- `CMD_SET_CLUSTER_KEY`. -/
def applySetClusterKey (bytes : Bytes) : Outcome (NameCatalog × Bytes) := do
  let (key, _) ← orReply [] (takeBytes 32 bytes)
  match catalog.clusterKey with
  | some existing =>
    refuse (existing != key) []
    pure (catalog, leBytes 8 catalog.clusterKeyGeneration)
  | none => pure ({ catalog with clusterKey := some key, clusterKeyGeneration := 1 }, leBytes 8 1)

/-- A signed envelope replaces the stored one only with a higher sequence. The stored
envelope itself is answered with its generation. -/
def checkNewer (sequenceOf : Bytes → Option ℕ) (sequence : ℕ) (envelope : Bytes)
    (current : Option (ℕ × Bytes)) : Outcome Unit :=
  match current with
  | none => pure ()
  | some (generation, stored) => do
      let previous ← orReply [] (sequenceOf stored)
      refuse (decide (sequence < previous)) errStaleDescriptor
      refuse (sequence == previous)
        (if stored == envelope then leBytes 8 generation else errConflictingDescriptor)

/-- `CMD_SHUTDOWN`. -/
def applyShutdown (bytes : Bytes) : Outcome (NameCatalog × Bytes) := do
  let (envelope, rest) ← orReply [] (takeLenBytes bytes)
  refuse (!rest.isEmpty) []
  refuse (Shutdown.verify trust.crypto envelope (catalog.deploymentKey trust) != .valid)
    errUntrustedDescriptor
  let fields ← orReply [] (Shutdown.decode envelope)
  let current := catalog.shutdownIntents[fields.targetNode]?
  checkNewer (fun stored => (Shutdown.decode stored).map (·.sequence)) fields.sequence envelope
    (current.map fun existing => (existing.generation, existing.envelope))
  let generation ← orReply [] (bounded (nextGeneration (current.map (·.generation))))
  refuse (!catalog.shutdownIntents.contains fields.targetNode &&
    decide (maxShutdownIntents ≤ catalog.shutdownIntents.size)) errCapacity
  pure ({ catalog with
    shutdownIntents := catalog.shutdownIntents.insert fields.targetNode ⟨generation, envelope⟩ },
    leBytes 8 generation)

/-- `CMD_INGRESS_POLICY`. -/
def applyIngressPolicy (bytes : Bytes) : Outcome (NameCatalog × Bytes) := do
  let (envelope, rest) ← orReply [] (takeLenBytes bytes)
  refuse (!rest.isEmpty || IngressPolicy.verify trust.crypto envelope trust.clusterId
    trust.bootstrapOperationsKey != .valid) errUntrustedDescriptor
  let policy ← orReply [] (IngressPolicy.decode envelope)
  let current := catalog.ingressPolicy
  checkNewer (fun stored => (IngressPolicy.decode stored).map (·.sequence)) policy.sequence envelope
    (current.map fun existing => (existing.generation, existing.envelope))
  let generation ← orReply [] (bounded (nextGeneration (current.map (·.generation))))
  pure ({ catalog with ingressPolicy := some ⟨generation, envelope⟩ }, leBytes 8 generation)

/-- Samples of one boot are ordered by their epoch; a new boot supersedes the old one. -/
def checkSample (entry : NodeCapacityEntry) : Outcome Unit :=
  match catalog.nodeCapacity[entry.nodeKey]? with
  | some existing =>
    refuse (existing.bootNonce == entry.bootNonce &&
      (decide (entry.epoch ≤ existing.epoch) || entry.target != existing.target)) []
  | none => refuse (decide (maxNodeCapacityEntries ≤ catalog.nodeCapacity.size)) errCapacity

/-- `CMD_NODE_CAPACITY`. -/
def applyNodeCapacity (bytes : Bytes) : Outcome (NameCatalog × Bytes) := do
  let entry ← orReply [] (decodeNodeCapacity bytes)
  catalog.checkSample entry
  pure ({ catalog with nodeCapacity := catalog.nodeCapacity.insert entry.nodeKey entry }, [])

end NameCatalog

end Charlotte.Catalog
