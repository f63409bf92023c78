import Charlotte.Catalog.Apply

/-!
# Release admission and the command dispatch

`CMD_RELEASE` and `CMD_RELEASE_REPLICAS`: a release is checked and planned as a
whole, its deployments, operational bindings and retirements are collected, and
only then written. `applyCommand` dispatches on the command byte.
-/

namespace Charlotte.Catalog

open Lib Launch Launch.ReleaseAdmission Deployment
open Std (ExtTreeMap)

namespace NameCatalog

variable (trust : Trust) (catalog : NameCatalog)

variable (envelope : ReleaseEnvelope)

/-- `repeated_release_receipt`: the receipt of a release that is in place as it stands. -/
def repeatedReleaseReceipt (generation : ℕ) : Option Bytes := do
  let generations ← envelope.descriptors.mapM fun bytes => do
    let descriptor ← decode bytes
    let current ← catalog.deployments[descriptor.artifactName]?
    reject (current.descriptor != bytes)
    some current.generation
  releaseReceipt trust.crypto envelope.bytes generation generations

/-- The first check of the assignments, before anything is compared with the catalog. -/
def checkAssignments (pairs : List (Bytes × Assignment)) : Outcome Unit :=
  pairs.forM fun (bytes, assignment) => do
    let descriptor ← orReply [] (decode bytes)
    refuse (!catalog.assignmentsCompatible descriptor assignment) errIncompatibleTarget

/-- The release's generation before its bound is checked, and whether the envelope is the
one already stored. -/
def releaseGeneration : Option ReleaseEntry → Outcome (Option ℕ × Bool)
  | none => pure (some 1, false)
  | some existing => do
      let previous ← orReply [] (Release.decode existing.envelope)
      refuse (decide (envelope.sequence < previous.sequence)) errStaleDescriptor
      if envelope.sequence == previous.sequence then do
        refuse (existing.envelope != envelope.bytes) errConflictingDescriptor
        pure (some existing.generation, true)
      else pure (checkedSucc existing.generation, false)

def nextRelease (existing : Option ReleaseEntry) : Outcome (ℕ × Bool) := do
  let (generation, exact) ← releaseGeneration envelope existing
  let generation ← orReply [] (bounded generation)
  pure (generation, exact)

/-- The reply to a release that changes nothing: it is stored already, with this
bundle or without one. -/
def refuseRepeated (existing : Option ReleaseEntry)
    (generation : ℕ) (exact : Bool) (tail : Option CompactOperationalSet) : Outcome Unit :=
  let again := (catalog.repeatedReleaseReceipt trust envelope generation).getD
    errConflictingDescriptor
  match tail, existing with
  | some operations, some existing => do
      refuse (decide (operations.bundleSequence < existing.operationsSequence)) errStaleDescriptor
      refuse (operations.bundleSequence == existing.operationsSequence)
        (if exact && operations.bundleDigest == existing.operationsBundleDigest then again
         else errConflictingDescriptor)
  | _, _ => refuse exact again

/-- The record a descriptor of the release leads to. A descriptor that is stored
already keeps its record, nodes included. -/
def planDeployment (bytes : Bytes) (assignment : Assignment) : Outcome (Bytes × DeploymentEntry) := do
  let descriptor ← orReply [] (decode bytes)
  refuse (!catalog.assignmentsCompatible descriptor assignment) errIncompatibleTarget
  refuse ((descriptor.nodeKey != 0 && assignment.nodes != [descriptor.nodeKey]) ||
    (descriptor.nodeKey == 0 && !descriptor.placement.everyEligibleNode &&
      assignment.nodes.length != descriptor.placement.replicas)) []
  match catalog.deployments[descriptor.artifactName]? with
  | none => pure (descriptor.artifactName, ⟨assignment.nodes, assignment.variants, 1, bytes⟩)
  | some current => do
      checkSequence descriptor.sequence bytes (some current)
      let previous ← orReply [] (decode current.descriptor)
      if descriptor.sequence == previous.sequence then
        pure (descriptor.artifactName,
          ⟨current.replicaNodes, current.replicaVariants, current.generation, bytes⟩)
      else
        let generation ← orReply [] (bounded (checkedSucc current.generation))
        pure (descriptor.artifactName, ⟨assignment.nodes, assignment.variants, generation, bytes⟩)

def planDeployments (pairs : List (Bytes × Assignment)) : Outcome (List (Bytes × DeploymentEntry)) :=
  pairs.mapM fun (bytes, assignment) => catalog.planDeployment bytes assignment

end NameCatalog

/-- Whether the stored binding is the admitted one, its bundle and its active flag apart. -/
def OperationalBindingEntry.repeats (entry : OperationalBindingEntry) (releaseName releaseDigest : Bytes)
    (binding : CompactOperationalBinding) : Bool :=
  entry.releaseName == releaseName && entry.releaseDigest == releaseDigest &&
    entry.targetArtifact == binding.targetArtifact && entry.objectKey == binding.objectKey &&
    entry.envelopeDigest == binding.envelopeDigest && entry.profileKind == binding.profileKind &&
    entry.sequence == binding.sequence && entry.expiresUnixSeconds == binding.expiresUnixSeconds &&
    entry.recipientKeyId == binding.recipientKeyId && entry.signingKeyId == binding.signingKeyId &&
    entry.authorizationSignature == binding.authorizationSignature

/-- The record of an admitted binding. -/
def CompactOperationalBinding.entry (binding : CompactOperationalBinding) (generation : ℕ)
    (releaseName releaseDigest : Bytes) (operations : CompactOperationalSet) :
    OperationalBindingEntry :=
  { generation
    active := true
    releaseName
    releaseDigest
    bundleSequence := operations.bundleSequence
    bundleDigest := operations.bundleDigest
    targetArtifact := binding.targetArtifact
    objectKey := binding.objectKey
    envelopeDigest := binding.envelopeDigest
    profileKind := binding.profileKind
    sequence := binding.sequence
    expiresUnixSeconds := binding.expiresUnixSeconds
    recipientKeyId := binding.recipientKeyId
    signingKeyId := binding.signingKeyId
    authorizationSignature := binding.authorizationSignature }

namespace NameCatalog

variable (trust : Trust) (catalog : NameCatalog)

def planBinding (releaseName releaseDigest : Bytes) (operations : CompactOperationalSet)
    (binding : CompactOperationalBinding) : Outcome (Bytes × OperationalBindingEntry) := do
  let current := catalog.operationalBindings[binding.profileName]?
  refuse (current.any fun entry => entry.active && entry.releaseName != releaseName)
    errConflictingDescriptor
  let exact := current.any (·.repeats releaseName releaseDigest binding)
  refuse (current.any fun entry => decide (binding.sequence < entry.sequence)) errStaleDescriptor
  refuse ((current.any fun entry => binding.sequence == entry.sequence) && !exact)
    errConflictingDescriptor
  let generation ← orReply [] (bounded
    (if exact then current.map (·.generation) else nextGeneration (current.map (·.generation))))
  pure (binding.profileName, binding.entry generation releaseName releaseDigest operations)

def planBindings (releaseName releaseDigest : Bytes) :
    Option CompactOperationalSet → Outcome (List (Bytes × OperationalBindingEntry))
  | none => pure []
  | some operations =>
    operations.bindings.mapM (catalog.planBinding releaseName releaseDigest operations)

/-- The tombstone of a binding keeps its sequence. -/
def planRetirement (record : Bytes × OperationalBindingEntry) :
    Outcome (Bytes × OperationalBindingEntry) := do
  let generation ← orReply [] (checkedSucc record.2.generation)
  pure (record.1, { record.2 with generation, active := false })

/-- Retire the active bindings of the release that the bundle does not keep. A release that
is stored already and comes without a bundle retires none. -/
def planRetirements (releaseName : Bytes) (retained : List Bytes) (replaces : Bool) :
    Outcome (List (Bytes × OperationalBindingEntry)) :=
  if replaces then
    (catalog.operationalBindings.toList.filter fun (name, entry) =>
      entry.active && entry.releaseName == releaseName && !retained.contains name).mapM planRetirement
  else pure []

/-- Everything a release writes. -/
structure Plan where
  deployments : List (Bytes × DeploymentEntry)
  bindings : List (Bytes × OperationalBindingEntry)
  retirements : List (Bytes × OperationalBindingEntry)
  releaseName : Bytes
  release : ReleaseEntry

/-- The artifacts whose deployment generation the plan changes. -/
def changedArtifacts (deployments : List (Bytes × DeploymentEntry)) : List Bytes :=
  (deployments.filter fun (artifact, entry) =>
    (catalog.deployments[artifact]?).all fun current => current.generation != entry.generation).map
    Prod.fst

/-- The write phase. -/
def commit (plan : Plan) : NameCatalog :=
  { catalog with
    deployments := insertAll catalog.deployments plan.deployments
    deploymentReplicas :=
      (catalog.changedArtifacts plan.deployments).foldl retireReplicas catalog.deploymentReplicas
    operationalBindings :=
      insertAll catalog.operationalBindings (plan.bindings ++ plan.retirements)
    releases := catalog.releases.insert plan.releaseName plan.release }

def checkCapacity (plan : Plan) : Outcome Unit := do
  let newDeployments := plan.deployments.countP fun (artifact, _) =>
    !catalog.deployments.contains artifact
  refuse (decide (maxDeployments < catalog.deployments.size + newDeployments)) errCapacity
  let newBindings := (plan.bindings ++ plan.retirements).countP fun (profile, _) =>
    !catalog.operationalBindings.contains profile
  refuse (decide (maxOperationalBindings < catalog.operationalBindings.size + newBindings))
    errCapacity
  refuse (!catalog.releases.contains plan.releaseName &&
    decide (maxReleases ≤ catalog.releases.size)) errCapacity

/-- From the decoded command to the plan. -/
def planRelease (envelope : ReleaseEnvelope) (assignments : List Assignment)
    (tail : Option CompactOperationalSet) : Outcome Plan := do
  let existing := catalog.releases[envelope.releaseName]?
  let (generation, exact) ← nextRelease envelope existing
  catalog.refuseRepeated trust envelope existing generation exact tail
  let deployments ← catalog.planDeployments (envelope.descriptors.zip assignments)
  let bindings ← catalog.planBindings envelope.releaseName (trust.crypto.digest envelope.bytes) tail
  let retirements ← catalog.planRetirements envelope.releaseName (bindings.map Prod.fst)
    (!exact || tail.isSome)
  let release : ReleaseEntry :=
    { generation
      envelope := envelope.bytes
      operationsSequence := match tail with
        | some operations => operations.bundleSequence
        | none => existing.elim 0 (·.operationsSequence)
      operationsBundleDigest := match tail with
        | some operations => operations.bundleDigest
        | none => existing.elim (List.replicate 32 0) (·.operationsBundleDigest) }
  pure ⟨deployments, bindings, retirements, envelope.releaseName, release⟩

/-- What the command says, once the envelope is verified and the assignments fit. -/
def readRelease (replicated : Bool) (bytes : Bytes) :
    Outcome (ReleaseEnvelope × List Assignment × Option CompactOperationalSet) := do
  let (envelopeBytes, rest) ← orReply [] (takeLenBytes bytes)
  let (descriptorCount, rest) ← orReply [] (takeLe 2 rest)
  let (assignments, rest) ← orReply []
    (takeMany (if replicated then takeReplicaSet else takeSingle) descriptorCount rest)
  refuse (Release.verify trust.crypto envelopeBytes (catalog.deploymentKey trust) != .valid)
    errUntrustedDescriptor
  let envelope ← orReply errUntrustedDescriptor (Release.decode envelopeBytes)
  refuse (descriptorCount != envelope.descriptors.length) []
  catalog.checkAssignments (envelope.descriptors.zip assignments)
  let tail ← orReply [] (parseOperationalTail envelope rest)
  pure (envelope, assignments, tail)

def applyRelease (replicated : Bool) (bytes : Bytes) : Outcome (NameCatalog × Bytes) := do
  let (envelope, assignments, tail) ← catalog.readRelease trust replicated bytes
  let plan ← catalog.planRelease trust envelope assignments tail
  catalog.checkCapacity plan
  let receipt ← orReply errCapacity (releaseReceipt trust.crypto envelope.bytes
    plan.release.generation (plan.deployments.map (·.2.generation)))
  pure (catalog.commit plan, receipt)

/-- The command that a command byte stands for. -/
inductive Opcode
  | register
  | unregister
  | activate
  | unregisterGeneration
  | deploy
  | setClusterKey
  | release (replicated : Bool)
  | shutdown
  | reassign
  | ingressPolicy
  | nodeCapacity
  | availability
  deriving DecidableEq, Repr

def Opcode.ofByte (byte : UInt8) : Option Opcode :=
  match byte.toNat with
  | 0x01 => some .register
  | 0x02 => some .unregister
  | 0x03 => some .activate
  | 0x04 => some .unregisterGeneration
  | 0x0e => some .deploy
  | 0x07 => some .setClusterKey
  | 0x08 => some (.release false)
  | 0x0a => some (.release true)
  | 0x09 => some .shutdown
  | 0x0b => some .reassign
  | 0x0c => some .ingressPolicy
  | 0x0d => some .nodeCapacity
  | 0x0f => some .availability
  | _ => none

/-- One command, after its command byte. -/
def applyOpcode (term : ℕ) (opcode : Opcode) (bytes : Bytes) : Outcome (NameCatalog × Bytes) :=
  match opcode with
  | .register => catalog.applyRegister bytes
  | .unregister => catalog.applyUnregister bytes
  | .activate => catalog.applyActivate bytes
  | .unregisterGeneration => catalog.applyUnregisterGeneration bytes
  | .deploy => catalog.applyDeploy trust bytes
  | .setClusterKey => catalog.applySetClusterKey bytes
  | .release replicated => catalog.applyRelease trust replicated bytes
  | .shutdown => catalog.applyShutdown trust bytes
  | .reassign => catalog.applyReassign bytes
  | .ingressPolicy => catalog.applyIngressPolicy trust bytes
  | .nodeCapacity => catalog.applyNodeCapacity bytes
  | .availability => catalog.applyAvailability term (Availability.command :: bytes)

/-- `apply_command`: the catalog afterwards and the reply. -/
def applyCommand (term : ℕ) (command : Bytes) : NameCatalog × Bytes :=
  match command with
  | [] => (catalog, [])
  | byte :: bytes =>
    match Opcode.ofByte byte with
    | none => (catalog, [])
    | some opcode =>
      match catalog.applyOpcode trust term opcode bytes with
      | .ok result => result
      | .error reply => (catalog, reply)

end NameCatalog

end Charlotte.Catalog
