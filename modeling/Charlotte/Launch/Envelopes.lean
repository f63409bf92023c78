import Charlotte.Launch.Descriptor

/-!
# Signed envelopes over descriptors and nodes

`release.rs`, `release_admission.rs`, `shutdown.rs`, `ingress.rs` and
`ingress_policy.rs` of `charlotte-launch`, and the name checks of
`operations.rs` and `operations_bundle.rs`.
-/

namespace Charlotte.Launch

open Lib Option Deployment

/-- A release as it was signed. -/
structure ReleaseEnvelope where
  bytes : Bytes
  sequence : ℕ
  releaseName : Bytes
  descriptors : List Bytes
  deriving DecidableEq, Repr

namespace Release

def magic : Bytes := text "CRELEASE"
def version : ℕ := 1
def headerLen : ℕ := 112
def keyIdOffset : ℕ := 32
def signatureOffset : ℕ := 48
def maxReleaseLen : ℕ := 3584
def maxReleaseNameLen : ℕ := 48
def maxDescriptors : ℕ := 16

def validReleaseName (value : Bytes) : Bool := validName value maxReleaseNameLen

/-- `Descriptors::next`. -/
def takeDescriptor (bytes : Bytes) : Option (Bytes × Bytes) :=
  (takeLe 2 bytes).bind fun (length, rest) => takeBytes length rest

/-- The artifact names of descriptors that all decode. -/
def artifactNames (descriptors : List Bytes) : Option (List Bytes) :=
  descriptors.mapM fun bytes => (decode bytes).map (·.artifactName)

def decode (bytes : Bytes) : Option ReleaseEnvelope := do
  reject (bytes.length < headerLen || slice bytes 0 8 != some magic ||
      readLe 2 bytes 8 != some version || readLe 2 bytes 10 != some headerLen)
  let totalLen ← readLe 4 bytes 12
  reject (totalLen != bytes.length || maxReleaseLen < totalLen || readLe 4 bytes 28 != some 0)
  let sequence ← readLe 8 bytes 16
  let nameLen ← readLe 2 bytes 24
  let descriptorCount ← readLe 2 bytes 26
  reject (sequence == 0 || descriptorCount == 0 || maxDescriptors < descriptorCount)
  let (releaseName, rest) ← takeBytes nameLen (bytes.drop headerLen)
  reject (!validReleaseName releaseName)
  let (descriptors, rest) ← takeMany takeDescriptor descriptorCount rest
  let names ← artifactNames descriptors
  reject (!decide names.Nodup)
  reject (!rest.isEmpty)
  some { bytes, sequence, releaseName, descriptors }

theorem forall₂_of_artifactNames {descriptors names : List Bytes}
    (h : artifactNames descriptors = some names) :
    List.Forall₂ (fun bytes name => ∃ descriptor, Deployment.decode bytes = some descriptor ∧
      descriptor.artifactName = name) descriptors names := by
  induction descriptors generalizing names with
  | nil =>
    cases h
    exact .nil
  | cons bytes rest ih =>
    simp only [artifactNames, List.mapM_cons, bind_eq_bind, bind_eq_some_iff,
      map_eq_some_iff, pure_def, some.injEq] at h
    obtain ⟨_, hname, _, hoths, rfl⟩ := h
    exact .cons hname (ih hoths)

/-- The descriptors of an envelope that decodes decode themselves, to different artifacts. -/
theorem decode_spec {bytes : Bytes} {envelope : ReleaseEnvelope} (h : decode bytes = some envelope) :
    envelope.bytes = bytes ∧ envelope.descriptors ≠ [] ∧
      ∃ names, names.Nodup ∧ List.Forall₂ (fun bytes name => ∃ descriptor,
        Deployment.decode bytes = some descriptor ∧ descriptor.artifactName = name)
        envelope.descriptors names := by
  simp only [decode, bind_eq_bind, bind_eq_some_iff, reject_eq_some] at h
  obtain ⟨-, -, _, -, -, -, _, -, _, -, count, -, -, hcnt, ⟨_, _⟩, -, -, -,
    ⟨descriptors, left⟩, hdescs, names, hnms, -, hnd, -, -, h⟩ := h
  cases h
  refine ⟨rfl, ?_, names, by simpa using hnd, forall₂_of_artifactNames hnms⟩
  have hlen := length_of_takeMany hdescs
  have hpos : count ≠ 0 := by
    simp only [Bool.or_eq_false_iff, beq_eq_false_iff_ne] at hcnt
    exact hcnt.1.2
  rintro (rfl : descriptors = [])
  exact hpos hlen.symm

/-- The layout `encode_unsigned` gives a release, with an all-zero signature. -/
def layout (sequence : ℕ) (releaseName : Bytes) (descriptors : List Bytes) (keyId : Bytes) : Bytes :=
  let body := releaseName ++ descriptors.flatMap fun bytes => leBytes 2 bytes.length ++ bytes
  magic ++ leBytes 2 version ++ leBytes 2 headerLen ++ leBytes 4 (headerLen + body.length) ++
    leBytes 8 sequence ++ leBytes 2 releaseName.length ++ leBytes 2 descriptors.length ++
    leBytes 4 0 ++ keyId ++ List.replicate 64 0 ++ body

/-- The first descriptor that is not valid decides. -/
def verifyDescriptors (crypto : Crypto) (key : Bytes) : List Bytes → VerifyOutcome
  | [] => .valid
  | descriptor :: rest =>
    match verify crypto descriptor key with
    | .valid => verifyDescriptors crypto key rest
    | outcome => outcome

def verify (crypto : Crypto) (bytes key : Bytes) : VerifyOutcome :=
  match decode bytes with
  | none => .invalid
  | some envelope =>
    match signedBy crypto bytes key keyIdOffset signatureOffset with
    | .valid => verifyDescriptors crypto key envelope.descriptors
    | outcome => outcome

end Release

namespace ReleaseEnvelope

/-- `release_contains_artifact`. -/
def containsArtifact (release : ReleaseEnvelope) (target : Bytes) : Bool :=
  release.descriptors.any fun bytes =>
    (decode bytes).any fun descriptor => descriptor.artifactName == target

end ReleaseEnvelope

namespace ReleaseAdmission

def magic : Bytes := text "CRLADM01"

def maxGeneration : ℕ := 2 ^ 63 - 1

def validGeneration (value : ℕ) : Bool := decide (0 < value) && decide (value ≤ maxGeneration)

/-- The answer to an admitted release. -/
structure Receipt where
  releaseDigest : Bytes
  generation : ℕ
  components : List ℕ
  deriving DecidableEq, Repr

def Receipt.new (crypto : Crypto) (envelope : Bytes) (generation : ℕ) (components : List ℕ) :
    Option Receipt := do
  let release ← Release.decode envelope
  reject (release.descriptors.length != components.length || !validGeneration generation ||
      components.isEmpty || Release.maxDescriptors < components.length ||
      components.any (fun value => !validGeneration value))
  some ⟨crypto.digest envelope, generation, components⟩

/-- The last six bytes of the header are reserved. -/
def Receipt.encode (receipt : Receipt) : Bytes :=
  magic ++ receipt.releaseDigest ++ leBytes 8 receipt.generation ++
    leBytes 2 receipt.components.length ++ List.replicate 6 0 ++
    receipt.components.flatMap (leBytes 8)

end ReleaseAdmission

namespace Operations

def keyIdLen : ℕ := 16
def maxProfileNameLen : ℕ := 256

def validProfileName (value : Bytes) : Bool := validName value maxProfileNameLen

def validProfileKind (value : ℕ) : Bool := value == 1 || value == 2

end Operations

namespace OperationsBundle

def maxBindings : ℕ := 8
def bindingSignatureLen : ℕ := 64

def validObjectKey (value : Bytes) : Bool := validName value maxObjectKeyLen

end OperationsBundle

/-- A signed order to shut down. -/
structure ShutdownFields where
  sequence : ℕ
  targetNode : ℕ
  notBeforeUnixSeconds : ℕ
  expiresUnixSeconds : ℕ
  nodeGraceMs : ℕ
  phaseGraceMs : ℕ
  reason : ℕ
  deriving DecidableEq, Repr

namespace Shutdown

def magic : Bytes := text "CSHUTDN1"
def version : ℕ := 1
def encodedLen : ℕ := 144
def keyIdOffset : ℕ := 64
def signatureOffset : ℕ := 80
def reasonPowerOff : ℕ := 1
def maxValiditySeconds : ℕ := 24 * 60 * 60
def maxNodeGraceMs : ℕ := 15 * 60 * 1000
def maxPhaseGraceMs : ℕ := 60 * 1000

def valid (fields : ShutdownFields) : Bool :=
  fields.sequence != 0 && fields.targetNode != 0 && fields.notBeforeUnixSeconds != 0 &&
    decide (fields.notBeforeUnixSeconds ≤ fields.expiresUnixSeconds) &&
    decide (fields.expiresUnixSeconds - fields.notBeforeUnixSeconds ≤ maxValiditySeconds) &&
    fields.nodeGraceMs != 0 && decide (fields.nodeGraceMs ≤ maxNodeGraceMs) &&
    fields.phaseGraceMs != 0 && decide (fields.phaseGraceMs ≤ maxPhaseGraceMs) &&
    decide (fields.phaseGraceMs ≤ fields.nodeGraceMs) && fields.reason == reasonPowerOff

def decode (bytes : Bytes) : Option ShutdownFields := do
  reject (bytes.length != encodedLen || slice bytes 0 8 != some magic ||
      readLe 2 bytes 8 != some version || readLe 2 bytes 10 != some encodedLen ||
      readLe 4 bytes 12 != some encodedLen || readLe 4 bytes 60 != some 0)
  let fields : ShutdownFields :=
    { sequence := ← readLe 8 bytes 16
      targetNode := ← readLe 8 bytes 24
      notBeforeUnixSeconds := ← readLe 8 bytes 32
      expiresUnixSeconds := ← readLe 8 bytes 40
      nodeGraceMs := ← readLe 4 bytes 48
      phaseGraceMs := ← readLe 4 bytes 52
      reason := ← readLe 4 bytes 56 }
  if valid fields then some fields else none

def verify (crypto : Crypto) (bytes key : Bytes) : VerifyOutcome :=
  match decode bytes with
  | none => .invalid
  | some _ => signedBy crypto bytes key keyIdOffset signatureOffset

end Shutdown

/-- A service that takes traffic from outside. -/
structure ServiceBinding where
  address : Bytes
  protocol : ℕ
  port : ℕ
  backendName : Option Bytes
  deriving DecidableEq, Repr

namespace Ingress

def magic : Bytes := text "CINGCFG1"
def version : ℕ := 1
def headerLen : ℕ := 16
def recordHeaderLen : ℕ := 12
def maxEncodedLen : ℕ := 1024
def maxServices : ℕ := 16
def protocolTcp : ℕ := 6

/-- `ServiceBinding::is_valid`. -/
def isValid (binding : ServiceBinding) : Bool :=
  binding.address != [0, 0, 0, 0] && decide ((leValue (binding.address.take 1)) < 224) &&
    binding.protocol == protocolTcp && binding.port != 0 &&
    binding.backendName.all validArtifactName

/-- `ServiceBindings::next`. -/
def takeBinding (bytes : Bytes) : Option (ServiceBinding × Bytes) := do
  let recordLen ← readLe 2 bytes 10
  let nameLen ← readLe 2 bytes 8
  reject (recordLen != recordHeaderLen + nameLen)
  let name ← slice bytes recordHeaderLen (recordHeaderLen + nameLen)
  let binding : ServiceBinding :=
    { address := ← slice bytes 0 4
      protocol := ← readLe 1 bytes 4
      port := ← readLe 2 bytes 6
      backendName := if name.isEmpty then none else some name }
  some (binding, bytes.drop recordLen)

def decode (bytes : Bytes) : Option (List ServiceBinding) := do
  reject (bytes.length < headerLen || maxEncodedLen < bytes.length ||
      slice bytes 0 8 != some magic || readLe 2 bytes 8 != some version ||
      readLe 2 bytes 10 != some headerLen || slice bytes 14 16 != some [0, 0])
  let count ← readLe 2 bytes 12
  reject (maxServices < count)
  let (bindings, rest) ← takeMany takeBinding count (bytes.drop headerLen)
  reject (bindings.any fun binding => !isValid binding)
  reject (!decide (bindings.map fun b => (b.address, b.protocol, b.port)).Nodup)
  reject (!rest.isEmpty)
  some bindings

end Ingress

/-- A signed list of such services. -/
structure Policy where
  sequence : ℕ
  notBeforeUnixSeconds : ℕ
  expiresUnixSeconds : ℕ
  clusterId : Bytes
  assignments : Bytes
  deriving DecidableEq, Repr

namespace IngressPolicy

inductive VerifyOutcome
  | valid
  | invalid
  | wrongCluster
  | wrongKey
  deriving DecidableEq, Repr

def magic : Bytes := text "CINGPOL1"
def version : ℕ := 1
def headerLen : ℕ := 160
def keyIdOffset : ℕ := 72
def signatureOffset : ℕ := 96
def maxEncodedLen : ℕ := headerLen + Ingress.maxEncodedLen
def maxValiditySeconds : ℕ := Shutdown.maxValiditySeconds

def decode (bytes : Bytes) : Option Policy := do
  reject (bytes.length < headerLen || maxEncodedLen < bytes.length ||
      slice bytes 0 8 != some magic || readLe 2 bytes 8 != some version ||
      readLe 2 bytes 10 != some headerLen || readLe 4 bytes 12 != some bytes.length ||
      slice bytes 92 96 != some [0, 0, 0, 0])
  let sequence ← readLe 8 bytes 16
  let notBeforeUnixSeconds ← readLe 8 bytes 24
  let expiresUnixSeconds ← readLe 8 bytes 32
  let clusterId ← slice bytes 40 72
  let assignmentLen ← readLe 4 bytes 88
  reject (sequence == 0 || notBeforeUnixSeconds == 0 || expiresUnixSeconds < notBeforeUnixSeconds ||
      maxValiditySeconds < expiresUnixSeconds - notBeforeUnixSeconds ||
      clusterId.all (· == 0) || headerLen + assignmentLen != bytes.length)
  let assignments := bytes.drop headerLen
  let _ ← Ingress.decode assignments
  some { sequence, notBeforeUnixSeconds, expiresUnixSeconds, clusterId, assignments }

def verify (crypto : Crypto) (bytes clusterId key : Bytes) : VerifyOutcome :=
  match decode bytes with
  | none => .invalid
  | some policy =>
    if policy.clusterId != clusterId then .wrongCluster
    else
      match signedBy crypto bytes key keyIdOffset signatureOffset with
      | .valid => .valid
      | .wrongKey => .wrongKey
      | .invalid => .invalid

end IngressPolicy

end Charlotte.Launch
