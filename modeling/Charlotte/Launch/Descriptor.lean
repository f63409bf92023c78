import Charlotte.Lib.ByteCodec

/-!
# Signed deployment descriptors

`charlotte-launch`: execution targets, placement policies, and the decoder and
verifier of `deployment.rs`. Ed25519 verification and SHA-256 are the fields of
`Crypto`. Machine integers are natural numbers below the width they are read
with; an offset into a record that the source advances is the list of bytes
from there on.
-/

namespace Charlotte.Launch

open Lib

abbrev Bytes := List UInt8

/-- The bytes of an ASCII literal. -/
def text (s : String) : Bytes := s.toList.map fun c => UInt8.ofNat c.toNat

/-- SHA-256 and Ed25519 as the source calls them. `verify key message signature`
is false for a key or a signature that does not parse. -/
structure Crypto where
  digest : Bytes → Bytes
  length_digest : ∀ bytes, (digest bytes).length = 32
  verify : Bytes → Bytes → Bytes → Bool

namespace Crypto

/-- The digest with `count` bytes from `start` on treated as zeros. -/
def digestSkipping (crypto : Crypto) (bytes : Bytes) (start count : ℕ) : Bytes :=
  crypto.digest (bytes.take start ++ List.replicate count 0 ++ bytes.drop (start + count))

end Crypto

inductive VerifyOutcome
  | valid
  | invalid
  | wrongKey
  deriving DecidableEq, Repr

/-- Whether an envelope is signed by `key`, whose identifier it carries. -/
def signedBy (crypto : Crypto) (bytes key : Bytes) (keyIdOffset signatureOffset : ℕ) :
    VerifyOutcome :=
  if slice bytes keyIdOffset (keyIdOffset + 16) != some ((crypto.digest key).take 16) then
    .wrongKey
  else if crypto.verify key (crypto.digestSkipping bytes signatureOffset 64)
      ((bytes.drop signatureOffset).take 64) then .valid
  else .invalid

inductive Architecture
  | x86_64
  | aarch64
  deriving DecidableEq, Repr

def Architecture.fromMachine : ℕ → Option Architecture
  | 62 => some .x86_64
  | 183 => some .aarch64
  | _ => none

def Architecture.machine : Architecture → ℕ
  | .x86_64 => 62
  | .aarch64 => 183

structure ExecutionTarget where
  architecture : Architecture
  runtimeAbi : ℕ
  features : ℕ
  deriving DecidableEq, Repr

namespace ExecutionTarget

/-- The two feature bits that are known. -/
def knownFeatures : ℕ := 3

def valid (target : ExecutionTarget) : Bool :=
  target.runtimeAbi != 0 && decide (target.features ≤ knownFeatures)

def supports (node required : ExecutionTarget) : Bool :=
  node.valid && required.valid && node.architecture == required.architecture &&
    node.runtimeAbi == required.runtimeAbi &&
    (node.features &&& required.features) == required.features

def encodedLen : ℕ := 16

def encode (target : ExecutionTarget) : Option Bytes :=
  if target.valid then
    some (leBytes 2 target.architecture.machine ++ [0, 0] ++ leBytes 4 target.runtimeAbi ++
      leBytes 8 target.features)
  else none

def decode (bytes : Bytes) : Option ExecutionTarget := do
  if bytes.length != encodedLen || slice bytes 2 4 != some [0, 0] then none
  else
    let target : ExecutionTarget :=
      { architecture := ← Architecture.fromMachine (← readLe 2 bytes 0)
        runtimeAbi := ← readLe 4 bytes 4
        features := ← readLe 8 bytes 8 }
    if target.valid then some target else none

end ExecutionTarget

structure PlacementPolicy where
  replicas : ℕ
  maxInstancesPerNode : ℕ
  minDistinctNodes : ℕ
  flags : ℕ
  affinityGroup : ℕ
  antiAffinityGroup : ℕ
  deriving DecidableEq, Repr

namespace PlacementPolicy

def singleton : PlacementPolicy := ⟨1, 1, 1, 0, 0, 0⟩

variable (policy : PlacementPolicy)

def colocateAffinityGroup : Bool := policy.flags.testBit 0

def everyEligibleNode : Bool := policy.flags.testBit 2

/-- `validate_shape().is_ok()`. -/
def validShape : Bool :=
  !(policy.everyEligibleNode && policy.replicas != 0) &&
  !(!policy.everyEligibleNode && policy.replicas == 0) &&
  policy.maxInstancesPerNode != 0 &&
  (policy.everyEligibleNode ||
    policy.minDistinctNodes != 0 && decide (policy.minDistinctNodes ≤ policy.replicas) &&
      decide (policy.replicas ≤ policy.minDistinctNodes * policy.maxInstancesPerNode)) &&
  !(policy.colocateAffinityGroup && policy.affinityGroup == 0)

end PlacementPolicy

structure CapabilityGrant where
  service : Bytes
  rights : ℕ
  deriving DecidableEq, Repr

structure ArtifactVariant where
  target : ExecutionTarget
  priority : ℕ
  artifactDigest : Bytes
  objectKey : Bytes
  deriving DecidableEq, Repr

structure DeploymentDescriptor where
  bytes : Bytes
  sequence : ℕ
  nodeKey : ℕ
  artifactName : Bytes
  stackPagesPerThread : ℕ
  maxThreads : ℕ
  shutdownGraceMs : ℕ
  placement : PlacementPolicy
  variants : List ArtifactVariant
  grants : List CapabilityGrant
  deriving DecidableEq, Repr

namespace Deployment

def magic : Bytes := text "CDEPLOY6"
def version : ℕ := 6
def headerLen : ℕ := 152
def keyIdOffset : ℕ := 72
def signatureOffset : ℕ := 88
def maxDescriptorLen : ℕ := 3584
def maxArtifactNameLen : ℕ := 48
def maxObjectKeyLen : ℕ := 1024
def maxServiceNameLen : ℕ := 128
def maxGrants : ℕ := 64
def maxVariants : ℕ := 8
def maxUserStackPages : ℕ := 64
def maxUserThreads : ℕ := 64
def maxShutdownGraceMs : ℕ := 300000
def allGrantRights : ℕ := 7

def validName (value : Bytes) (maximum : ℕ) : Bool :=
  !value.isEmpty && decide (value.length ≤ maximum) &&
    value.all fun byte => decide (0x21 ≤ byte.toNat) && decide (byte.toNat ≤ 0x7e)

def validArtifactName (value : Bytes) : Bool := validName value maxArtifactNameLen

def validRights (rights : ℕ) : Bool := rights != 0 && decide (rights ≤ allGrantRights)

/-- `ArtifactVariants::next`. -/
def takeVariant (bytes : Bytes) : Option (ArtifactVariant × Bytes) := do
  let (target, rest) ← takeBytes ExecutionTarget.encodedLen bytes
  let target ← ExecutionTarget.decode target
  let (priority, rest) ← takeLe 2 rest
  let (keyLen, rest) ← takeLe 2 rest
  let (artifactDigest, rest) ← takeBytes 32 rest
  let (objectKey, rest) ← takeBytes keyLen rest
  if validName objectKey maxObjectKeyLen then
    some (⟨target, priority, artifactDigest, objectKey⟩, rest)
  else none

/-- `CapabilityGrants::next`. -/
def takeGrant (bytes : Bytes) : Option (CapabilityGrant × Bytes) := do
  let (rights, rest) ← takeLe 2 bytes
  let (nameLen, rest) ← takeLe 2 rest
  let (service, rest) ← takeBytes nameLen rest
  some (⟨service, rights⟩, rest)

def decode (bytes : Bytes) : Option DeploymentDescriptor := do
  reject (bytes.length < headerLen || slice bytes 0 8 != some magic ||
      readLe 2 bytes 8 != some version || readLe 2 bytes 10 != some headerLen)
  let stackPagesPerThread ← readLe 2 bytes 38
  reject (stackPagesPerThread < 1 || maxUserStackPages < stackPagesPerThread)
  let maxThreads ← readLe 2 bytes 40
  reject (maxThreads < 1 || maxUserThreads < maxThreads)
  let shutdownGraceMs ← readLe 4 bytes 44
  reject (maxShutdownGraceMs < shutdownGraceMs)
  let placement : PlacementPolicy :=
    { replicas := ← readLe 2 bytes 48
      maxInstancesPerNode := ← readLe 2 bytes 50
      minDistinctNodes := ← readLe 2 bytes 52
      flags := ← readLe 2 bytes 54
      affinityGroup := ← readLe 8 bytes 56
      antiAffinityGroup := ← readLe 8 bytes 64 }
  reject (!placement.validShape)
  let totalLen ← readLe 4 bytes 12
  reject (totalLen != bytes.length || maxDescriptorLen < totalLen)
  let sequence ← readLe 8 bytes 16
  reject (sequence == 0)
  let nodeKey ← readLe 8 bytes 24
  reject (nodeKey != 0 && placement != .singleton)
  reject (readLe 2 bytes 42 != some 0)
  let nameLen ← readLe 2 bytes 32
  let variantCount ← readLe 2 bytes 34
  let grantCount ← readLe 2 bytes 36
  reject (maxGrants < grantCount || variantCount == 0 || maxVariants < variantCount)
  let (artifactName, rest) ← takeBytes nameLen (bytes.drop headerLen)
  reject (!validArtifactName artifactName)
  let (variants, rest) ← takeMany takeVariant variantCount rest
  reject (!decide (variants.map (·.target)).Nodup)
  let (grants, rest) ← takeMany takeGrant grantCount rest
  reject (grants.any fun grant =>
      !validName grant.service maxServiceNameLen || !validRights grant.rights)
  reject (!rest.isEmpty)
  some { bytes, sequence, nodeKey, artifactName, stackPagesPerThread, maxThreads,
         shutdownGraceMs, placement, variants, grants }

/-- The layout `encode_unsigned` gives a descriptor, with an all-zero signature. -/
def layout (sequence nodeKey : ℕ) (artifactName : Bytes) (placement : PlacementPolicy)
    (variants : List ArtifactVariant) (keyId : Bytes) : Bytes :=
  let body := artifactName ++ variants.flatMap fun variant =>
    (variant.target.encode.getD []) ++ leBytes 2 variant.priority ++
      leBytes 2 variant.objectKey.length ++ variant.artifactDigest ++ variant.objectKey
  magic ++ leBytes 2 version ++ leBytes 2 headerLen ++ leBytes 4 (headerLen + body.length) ++
    leBytes 8 sequence ++ leBytes 8 nodeKey ++ leBytes 2 artifactName.length ++
    leBytes 2 variants.length ++ leBytes 2 0 ++ leBytes 2 1 ++ leBytes 2 1 ++ [0, 0] ++ leBytes 4 0 ++
    leBytes 2 placement.replicas ++ leBytes 2 placement.maxInstancesPerNode ++
    leBytes 2 placement.minDistinctNodes ++ leBytes 2 placement.flags ++
    leBytes 8 placement.affinityGroup ++ leBytes 8 placement.antiAffinityGroup ++ keyId ++
    List.replicate 64 0 ++ body

def verify (crypto : Crypto) (bytes key : Bytes) : VerifyOutcome :=
  match decode bytes with
  | none => .invalid
  | some _ => signedBy crypto bytes key keyIdOffset signatureOffset

end Deployment

namespace DeploymentDescriptor

def variant (descriptor : DeploymentDescriptor) (index : ℕ) : Option ArtifactVariant :=
  descriptor.variants[index]?

end DeploymentDescriptor

end Charlotte.Launch
