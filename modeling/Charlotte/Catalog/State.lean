import Charlotte.Launch.Envelopes

/-!
# State of the replicated name catalog

The records and collections of `name_catalog.rs` and the availability view of
`ingress_availability.rs`. A `BTreeMap` is an `ExtTreeMap`, whose keys come in
the order the source iterates them in. The result of the last apply, which only
the node that proposed the command reads, is left out.
-/

namespace Charlotte.Catalog

open Lib Launch List
open Std (ExtTreeMap)

/-- `BTreeMap<Vec<u8>, α>`. -/
abbrev ByteMap (α : Type) := ExtTreeMap Bytes α

structure CatalogEntry where
  node : Bytes
  generation : ℕ
  active : Bool
  /-- Zero denotes an ordinary system service. -/
  deploymentGeneration : ℕ
  deriving DecidableEq, Repr

structure DeploymentEntry where
  replicaNodes : List ℕ
  replicaVariants : List ℕ
  generation : ℕ
  descriptor : Bytes
  deriving DecidableEq, Repr

structure ReleaseEntry where
  generation : ℕ
  envelope : Bytes
  /-- Zero for a release admitted without an operational bundle. -/
  operationsSequence : ℕ
  operationsBundleDigest : Bytes
  deriving DecidableEq, Repr

structure OperationalBindingEntry where
  generation : ℕ
  active : Bool
  releaseName : Bytes
  releaseDigest : Bytes
  bundleSequence : ℕ
  bundleDigest : Bytes
  targetArtifact : Bytes
  objectKey : Bytes
  envelopeDigest : Bytes
  profileKind : ℕ
  sequence : ℕ
  expiresUnixSeconds : ℕ
  recipientKeyId : Bytes
  signingKeyId : Bytes
  authorizationSignature : Bytes
  deriving DecidableEq, Repr

structure ShutdownIntentEntry where
  generation : ℕ
  envelope : Bytes
  deriving DecidableEq, Repr

structure IngressPolicyEntry where
  generation : ℕ
  envelope : Bytes
  deriving DecidableEq, Repr

structure NodeCapacityEntry where
  target : ExecutionTarget
  nodeKey : ℕ
  bootNonce : ℕ
  epoch : ℕ
  freeFrames : ℕ
  usableFrames : ℕ
  cpuLoadPermille : ℕ
  deriving DecidableEq, Repr

namespace Availability

def command : UInt8 := 0x0f
def headerBytes : ℕ := 27
def maxBackends : ℕ := 64

structure View where
  term : ℕ
  membershipEpoch : ℕ
  leaderNode : ℕ
  eligibleNodes : List ℕ
  deriving DecidableEq, Repr

def View.valid (view : View) : Bool :=
  view.term != 0 && view.leaderNode != 0 && !view.eligibleNodes.isEmpty &&
    decide (view.eligibleNodes.length ≤ maxBackends) && view.eligibleNodes.head? != some 0 &&
    decide (view.eligibleNodes.Pairwise (· < ·)) && view.eligibleNodes.contains view.leaderNode

def View.decode (bytes : Bytes) : Option View := do
  reject (bytes.length < headerBytes || bytes.head? != some command)
  let count ← readLe 2 bytes 25
  reject (maxBackends < count || bytes.length != headerBytes + count * 8)
  let (eligibleNodes, _) ← takeMany (takeLe 8) count (bytes.drop headerBytes)
  let view : View :=
    { term := ← readLe 8 bytes 1
      membershipEpoch := ← readLe 8 bytes 9
      leaderNode := ← readLe 8 bytes 17
      eligibleNodes }
  if view.valid then some view else none

structure Entry where
  generation : ℕ
  view : View
  deriving DecidableEq, Repr

end Availability

/-- The keys a catalog is created with. -/
structure Trust where
  crypto : Crypto
  bootstrapDeploymentKey : Bytes
  bootstrapOperationsKey : Bytes
  clusterId : Bytes

@[ext]
structure NameCatalog where
  entries : ByteMap CatalogEntry
  /-- Publications of deployed applications, by name and node. -/
  deploymentReplicas : ByteMap (ByteMap CatalogEntry)
  deployments : ByteMap DeploymentEntry
  releases : ByteMap ReleaseEntry
  operationalBindings : ByteMap OperationalBindingEntry
  shutdownIntents : ExtTreeMap ℕ ShutdownIntentEntry
  nodeCapacity : ExtTreeMap ℕ NodeCapacityEntry
  ingressPolicy : Option IngressPolicyEntry
  ingressAvailability : Option Availability.Entry
  clusterKey : Option Bytes
  clusterKeyGeneration : ℕ

namespace NameCatalog

/-- `NameCatalog::new`. -/
def empty : NameCatalog := ⟨∅, ∅, ∅, ∅, ∅, ∅, ∅, none, none, none, 0⟩

/-- The key that signs deployments: the committed one, before that the one of the launch. -/
def deploymentKey (catalog : NameCatalog) (trust : Trust) : Bytes :=
  catalog.clusterKey.getD trust.bootstrapDeploymentKey

end NameCatalog

/-- The value of a hexadecimal digit of either case. -/
def hexDigit (byte : UInt8) : Option ℕ :=
  let n := byte.toNat
  if 48 ≤ n ∧ n ≤ 57 then some (n - 48)
  else if 97 ≤ n ∧ n ≤ 102 then some (n - 97 + 10)
  else if 65 ≤ n ∧ n ≤ 70 then some (n - 65 + 10)
  else none

/-- `node_identity::key_from_name`: the eight hexadecimal digits after the last colon. -/
def keyFromName (name : Bytes) : Option ℕ :=
  let token := (name.reverse.takeWhile (· != 58)).reverse
  if name.contains 58 && token.length == 8 then
    token.foldlM (fun value byte => (hexDigit byte).map (value * 16 + ·)) 0
  else none

section Maps

variable {α : Type} {m : ByteMap α} {k a : Bytes} {v : α}

@[simp] theorem getElem?_insert_byteMap : (m.insert k v)[a]? = if k = a then some v else m[a]? := by
  rw [ExtTreeMap.getElem?_insert]
  simp only [Std.compare_eq_iff_eq]

@[simp] theorem getElem?_modify_byteMap {f : α → α} :
    (m.modify k f)[a]? = if k = a then m[k]?.map f else m[a]? := by
  rw [ExtTreeMap.getElem?_modify]
  simp only [Std.compare_eq_iff_eq]

theorem nodup_keys_toList (m : ByteMap α) : (m.toList.map Prod.fst).Nodup := by
  rw [nodup_iff_pairwise_ne, pairwise_map]
  refine ExtTreeMap.distinct_keys_toList.imp fun {a b} h heq => h ?_
  rw [heq]
  exact Std.ReflCmp.compare_self

/-- Insert records one after the other. -/
def insertAll (m : ByteMap α) (records : List (Bytes × α)) : ByteMap α :=
  records.foldl (fun m (k, v) => m.insert k v) m

/-- After the insertion of records with different keys, a key has its record,
or what it had. -/
theorem getElem?_insertAll {records : List (Bytes × α)} (hkeys : (records.map Prod.fst).Nodup) :
    (insertAll m records)[a]? = some v ↔
      (a, v) ∈ records ∨ (a ∉ records.map Prod.fst ∧ m[a]? = some v) := by
  induction records generalizing m with
  | nil => simp [insertAll]
  | cons record rest ih =>
    obtain ⟨key, value⟩ := record
    rw [map_cons, nodup_cons] at hkeys
    change (insertAll (m.insert key value) rest)[a]? = some v ↔ _
    rw [ih hkeys.2]
    simp only [getElem?_insert_byteMap, mem_cons, Prod.mk.injEq, map_cons]
    by_cases hkey : key = a
    · subst hkey
      have hnot : (key, v) ∉ rest := fun h => hkeys.1 (mem_map.mpr ⟨_, h, rfl⟩)
      simp [hkeys.1, hnot, eq_comm]
    · simp [hkey, Ne.symm hkey]

theorem getElem?_insertAll_of_notMem {records : List (Bytes × α)}
    (hkeys : (records.map Prod.fst).Nodup) (ha : a ∉ records.map Prod.fst) :
    (insertAll m records)[a]? = m[a]? := by
  apply Option.ext
  intro v
  rw [getElem?_insertAll hkeys]
  constructor
  · rintro (hrec | ⟨-, hold⟩)
    · exact absurd (mem_map.mpr ⟨(a, v), hrec, rfl⟩) ha
    · exact hold
  · intro hold
    exact .inr ⟨ha, hold⟩

end Maps

end Charlotte.Catalog
