import Charlotte.Catalog.Release
import Charlotte.Lib.Checks

/-!
# What a command can change

`Change` lists the changes a command can make to the catalog, each with the
checks that precede it. Every fact about runs of commands is proved change by
change from it.
-/

namespace Charlotte.Catalog

open Lib Launch Launch.ReleaseAdmission List Option
open Std (ExtTreeMap)

section Outcome

variable {α β : Type} {a : α} {reply : Bytes} {o : Option α}

@[simp] theorem orReply_eq_ok : orReply reply o = .ok a ↔ o = some a := by
  cases o <;> simp [orReply]

variable {condition : Bool}

@[simp] theorem refuse_eq_ok {u : Unit} : refuse condition reply = .ok u ↔ condition = false := by
  cases condition <;> simp [refuse]

variable {e : Bytes}

theorem orReply_eq_error (h : orReply reply o = .error e) : e = reply := by
  cases o with
  | none => exact (Except.error.inj h).symm
  | some => cases h

theorem refuse_eq_error (h : refuse condition reply = .error e) : e = reply := by
  cases condition with
  | true => exact (Except.error.inj h).symm
  | false => cases h

variable {f : α → Outcome β} {x : Outcome α}

theorem outcome_bind_eq_error
    (h : (x >>= f) = .error e) : x = .error e ∨ ∃ a, x = .ok a ∧ f a = .error e := by
  cases x with
  | ok a => exact .inr ⟨a, rfl, h⟩
  | error => exact .inl (congrArg Except.error (Except.error.inj h))

theorem outcome_pure_ok {a' : α} : (pure a : Outcome α) = .ok a' ↔ a = a' := by
  simp [pure, Except.pure]

variable {ys : List β}

theorem outcome_mapM_cons {x : α} {rest : List α} : mapM f (x :: rest) = .ok ys ↔
      ∃ y others, f x = .ok y ∧ mapM f rest = .ok others ∧ ys = y :: others := by
  rw [mapM_cons, bind_eq_ok]
  constructor
  · rintro ⟨y, hy, h⟩
    obtain ⟨others, hoths, hys⟩ := bind_eq_ok.mp h
    exact ⟨y, others, hy, hoths, (outcome_pure_ok.mp hys).symm⟩
  · rintro ⟨y, others, hy, hoths, rfl⟩
    exact ⟨y, hy, bind_eq_ok.mpr ⟨others, hoths, rfl⟩⟩

variable {xs : List α}

/-- Every result of a successful `mapM` comes from an element, in order. -/
theorem forall₂_of_mapM (h : mapM f xs = .ok ys) : List.Forall₂ (fun x y => f x = .ok y) xs ys := by
  induction xs generalizing ys with
  | nil =>
    cases Except.ok.inj h
    exact .nil
  | cons x rest ih =>
    obtain ⟨_, _, hy, hoths, rfl⟩ := outcome_mapM_cons.mp h
    exact .cons hy (ih hoths)

variable {R : α → β → Prop}

variable (h : List.Forall₂ R xs ys)
include h

theorem exists_of_mem_right {y : β} (hy : y ∈ ys) : ∃ x ∈ xs, R x y := by
  induction h with
  | nil => exact absurd hy (by simp)
  | cons hfst _ ih =>
    rcases mem_cons.mp hy with rfl | hy
    · exact ⟨_, mem_cons_self, hfst⟩
    · obtain ⟨x, hx, hr⟩ := ih hy
      exact ⟨x, mem_cons_of_mem _ hx, hr⟩

theorem map_eq_of_forall₂ {γ : Type} {f : α → γ} {g : β → γ}
    (hR : ∀ {x y}, R x y → g y = f x) : ys.map g = xs.map f := by
  induction h with
  | nil => rfl
  | cons hfst _ ih => rw [map_cons, map_cons, hR hfst, ih]

theorem exists_of_mem_left {x : α} (hx : x ∈ xs) : ∃ y ∈ ys, R x y :=
  exists_of_mem_right (R := fun y x => R x y) h.flip hx

end Outcome

variable {value next : ℕ}

theorem lt_of_checkedSucc (h : checkedSucc value = some next) : next = value + 1 := by
  unfold checkedSucc at h
  split at h <;> simp_all

theorem bounded_eq_some {generation : Option ℕ} :
    bounded generation = some value ↔ generation = some value ∧ value ≤ maxGeneration := by
  simp [bounded, filter_eq_some_iff]

theorem nextGeneration_eq_some {current : Option ℕ} (h : nextGeneration current = some next) :
    next = current.elim 1 (· + 1) := by
  cases current with
  | none => simpa [nextGeneration] using h.symm
  | some => exact lt_of_checkedSucc h

/-- The record of a name and a node. -/
def replicaOf (replicas : ByteMap (ByteMap CatalogEntry)) (name node : Bytes) :
    Option CatalogEntry :=
  (replicas[name]?).bind fun byNode => byNode[node]?

section Replicas

variable {replicas : ByteMap (ByteMap CatalogEntry)} {name other node : Bytes}

theorem replicaOf_insert {byNode : ByteMap CatalogEntry} :
    replicaOf (replicas.insert name byNode) other node =
      if name = other then byNode[node]? else replicaOf replicas other node := by
  unfold replicaOf
  rw [getElem?_insert_byteMap]
  split <;> rfl

theorem getD_getElem? : ((replicas[name]?).getD ∅)[node]? = replicaOf replicas name node := by
  unfold replicaOf
  cases replicas[name]? with
  | none => simp
  | some => rfl

theorem replicaOf_retireReplicas : replicaOf (retireReplicas replicas name) other node =
      (replicaOf replicas other node).map fun entry =>
        if name = other then { entry with active := false } else entry := by
  unfold replicaOf retireReplicas
  rw [getElem?_modify_byteMap]
  by_cases hname : name = other
  · subst hname
    cases replicas[name]? with
    | none => simp
    | some => simp [ExtTreeMap.getElem?_map]
  · simp [hname]

theorem replicaOf_foldl_retireReplicas {names : List Bytes} :
    replicaOf (names.foldl retireReplicas replicas) other node =
      (replicaOf replicas other node).map fun entry =>
        if other ∈ names then { entry with active := false } else entry := by
  induction names generalizing replicas with
  | nil => simp
  | cons first rest ih =>
    rw [foldl_cons, ih, replicaOf_retireReplicas]
    cases replicaOf replicas other node with
    | none => rfl
    | some =>
      by_cases hfst : first = other
      · simp [hfst]
      · simp [hfst, Ne.symm hfst]

end Replicas

/-- The registry a registration is kept in. -/
inductive Registry
  | ordinary
  | replica
  deriving DecidableEq, Repr

structure Registration where
  registry : Registry
  name : Bytes
  node : Bytes
  generation : ℕ
  deriving DecidableEq, Repr

namespace NameCatalog

/-- The publication of a deployed name on a node. -/
def replica? (catalog : NameCatalog) (name node : Bytes) : Option CatalogEntry :=
  replicaOf catalog.deploymentReplicas name node

/-- The registration that `CMD_ACTIVATE` makes active among the replicas. -/
def Activates (catalog : NameCatalog) (opcode : Opcode) (bytes : Bytes) (r : Registration) : Prop :=
  opcode = .activate ∧ r.registry = .replica ∧
    ∃ rest rest' byNode entry, takeLenBytes bytes = some (r.name, rest) ∧
      takeLe 8 rest = some (r.generation, rest') ∧
      catalog.activatesOrdinary r.name r.generation = false ∧
      catalog.deploymentReplicas[r.name]? = some byNode ∧
      (byNode.toList.find? fun (_, entry) => entry.generation == r.generation) = some (r.node, entry)

/-- One change of the catalog, with the checks made before it. -/
inductive Change (trust : Trust) (c : NameCatalog) (opcode : Opcode) (bytes : Bytes) :
    NameCatalog → Prop
  | availability {entry : Availability.Entry} :
      Change trust c opcode bytes { c with ingressAvailability := some entry }
  | reserve {name : Bytes} (hopcode : opcode = .register) :
      Change trust c opcode bytes { c with
        deploymentReplicas :=
          c.deploymentReplicas.insert name ((c.deploymentReplicas[name]?).getD ∅) }
  | registerReplica {name node : Bytes} {key generation : ℕ} {deployment : DeploymentEntry}
      (hopcode : opcode = .register) (hkey : keyFromName node = some key) (hdeployment : c.deployments[name]? = some deployment)
      (hnode : key ∈ deployment.replicaNodes)
      (hordinary : ∀ entry, c.entries[name]? = some entry → entry.generation < generation)
      (hreplica : ∀ other entry, c.replica? name other = some entry → entry.generation < generation) :
      Change trust c opcode bytes { c with
        deploymentReplicas := c.deploymentReplicas.insert name
          (((c.deploymentReplicas[name]?).getD ∅).insert node
            ⟨node, generation, false, deployment.generation⟩) }
  | registerOrdinary {name node rest rest' : Bytes} {generation : ℕ} (hopcode : opcode = .register)
      (hname : takeLenBytes bytes = some (name, rest))
      (hnode : takeLenBytes rest = some (node, rest')) (hend : takeLe 8 rest' = some (0, []))
      (hgeneration : generation = (c.entries[name]?).elim 1 (·.generation + 1)) :
      Change trust c opcode bytes { c with
        entries := c.entries.insert name ⟨node, generation, false, 0⟩ }
  | unregister {name : Bytes} :
      Change trust c opcode bytes { c with
        entries := c.entries.modify name fun entry => { entry with node := [], active := false }
        deploymentReplicas := retireReplicas c.deploymentReplicas name }
  | activateOrdinary {name : Bytes} {entry : CatalogEntry} (hentry : c.entries[name]? = some entry)
      (hnode : entry.node ≠ []) :
      Change trust c opcode bytes { c with
        entries := c.entries.modify name fun entry => { entry with active := true } }
  | activateReplica {name node : Bytes} {byNode : ByteMap CatalogEntry} {entry : CatalogEntry}
      (hactivates : c.Activates opcode bytes ⟨.replica, name, node, entry.generation⟩)
      (hbyNode : c.deploymentReplicas[name]? = some byNode) (hentry : byNode[node]? = some entry) :
      Change trust c opcode bytes { c with
        deploymentReplicas := c.deploymentReplicas.insert name
          (byNode.insert node { entry with active := true }) }
  | unregisterOrdinary {name : Bytes} :
      Change trust c opcode bytes { c with
        entries := c.entries.modify name fun entry => { entry with node := [], active := false } }
  | unregisterReplica {name node : Bytes} {byNode : ByteMap CatalogEntry} {entry : CatalogEntry}
      (hbyNode : c.deploymentReplicas[name]? = some byNode) (hentry : byNode[node]? = some entry) :
      Change trust c opcode bytes { c with
        deploymentReplicas := c.deploymentReplicas.insert name
          (byNode.insert node { entry with active := false }) }
  | deploy {signed : DeploymentDescriptor} {entry : DeploymentEntry}
      (hsigned : Deployment.decode entry.descriptor = some signed)
      (hsequence : checkSequence signed.sequence entry.descriptor
        c.deployments[signed.artifactName]? = .ok ())
      (hgeneration : nextGeneration ((c.deployments[signed.artifactName]?).map (·.generation)) =
        some entry.generation)
      (hpins : entry.replicaNodes.length = entry.replicaVariants.length) :
      Change trust c opcode bytes { c with
        deployments := c.deployments.insert signed.artifactName entry
        deploymentReplicas := retireReplicas c.deploymentReplicas signed.artifactName }
  | reassign {artifact : Bytes} {current : DeploymentEntry} {assignment : Assignment}
      (hcurrent : c.deployments[artifact]? = some current) :
      Change trust c opcode bytes { c with
        deployments := c.deployments.insert artifact
          { current with replicaNodes := assignment.nodes
                         replicaVariants := assignment.variants
                         generation := current.generation + 1 }
        deploymentReplicas := retireReplicas c.deploymentReplicas artifact }
  | release {replicated : Bool} {envelope : ReleaseEnvelope} {assignments : List Assignment}
      {tail : Option CompactOperationalSet} {plan : Plan} (hopcode : opcode = .release replicated)
      (hread : c.readRelease trust replicated bytes = .ok (envelope, assignments, tail))
      (hplan : c.planRelease trust envelope assignments tail = .ok plan) :
      Change trust c opcode bytes (c.commit plan)
  | setClusterKey {key : Bytes} :
      Change trust c opcode bytes { c with clusterKey := some key, clusterKeyGeneration := 1 }
  | shutdown {fields : ShutdownFields} {entry : ShutdownIntentEntry}
      (hfields : Shutdown.decode entry.envelope = some fields)
      (hsequence : ∀ existing, c.shutdownIntents[fields.targetNode]? = some existing →
        ∃ previous, Shutdown.decode existing.envelope = some previous ∧
          previous.sequence < fields.sequence) :
      Change trust c opcode bytes { c with
        shutdownIntents := c.shutdownIntents.insert fields.targetNode entry }
  | ingressPolicy {policy : Policy} {entry : IngressPolicyEntry}
      (hpolicy : IngressPolicy.decode entry.envelope = some policy)
      (hsequence : ∀ existing, c.ingressPolicy = some existing →
        ∃ previous, IngressPolicy.decode existing.envelope = some previous ∧
          previous.sequence < policy.sequence) :
      Change trust c opcode bytes { c with ingressPolicy := some entry }
  | nodeCapacity {entry : NodeCapacityEntry} :
      Change trust c opcode bytes { c with
        nodeCapacity := c.nodeCapacity.insert entry.nodeKey entry }
  | keep : Change trust c opcode bytes c

variable {trust : Trust} {c c' : NameCatalog} {opcode : Opcode} {bytes reply : Bytes} {term : ℕ}
  {name node : Bytes}

theorem replica?_eq_some {entry : CatalogEntry} : c.replica? name node = some entry ↔
      ∃ byNode, c.deploymentReplicas[name]? = some byNode ∧ byNode[node]? = some entry :=
  bind_eq_some_iff

/-- The fold of `CMD_REGISTER` bounds what it starts from and every generation it sees. -/
theorem le_foldl_generation (entries : List CatalogEntry) (start : ℕ) :
    start ≤ entries.foldl (fun latest entry => max latest entry.generation) start ∧
      ∀ entry ∈ entries, entry.generation ≤
        entries.foldl (fun latest entry => max latest entry.generation) start := by
  induction entries generalizing start with
  | nil => simp
  | cons first rest ih =>
    obtain ⟨hsta, hrest⟩ := ih (max start first.generation)
    constructor
    · exact le_trans (le_max_left _ _) hsta
    · exact forall_mem_cons.mpr ⟨le_trans (le_max_right _ _) hsta, hrest⟩

theorem mem_values {α : Type} {m : ByteMap α} {k : Bytes} {v : α} (h : m[k]? = some v) :
    v ∈ m.toList.map Prod.snd :=
  mem_map.mpr ⟨(k, v), ExtTreeMap.mem_toList_iff_getElem?_eq_some.mpr h, rfl⟩

theorem registerReplica_ok {deploymentGeneration : ℕ}
    (h : c.registerReplica name node deploymentGeneration = .ok (c', reply)) : (c' = { c with
        deploymentReplicas :=
          c.deploymentReplicas.insert name ((c.deploymentReplicas[name]?).getD ∅) } ∧
      reply = leBytes 8 0) ∨
    ∃ key generation deployment, keyFromName node = some key ∧
      c.deployments[name]? = some deployment ∧ key ∈ deployment.replicaNodes ∧
      deployment.generation = deploymentGeneration ∧ generation ≤ maxGeneration ∧
      (∀ entry, c.entries[name]? = some entry → entry.generation < generation) ∧
      (∀ other entry, c.replica? name other = some entry → entry.generation < generation) ∧
      0 < generation ∧
      c' = { c with
        deploymentReplicas := c.deploymentReplicas.insert name
          (((c.deploymentReplicas[name]?).getD ∅).insert node
            ⟨node, generation, false, deployment.generation⟩) } ∧
      reply = leBytes 8 generation := by
  simp only [registerReplica, bind_eq_ok, orReply_eq_ok, refuse_eq_ok] at h
  obtain ⟨key, hkey, -, hdesi, h⟩ := h
  split at h
  · cases h
    exact .inl ⟨rfl, rfl⟩
  rename_i generation hgen
  cases h
  obtain ⟨hsucc, hbd⟩ := bounded_eq_some.mp hgen
  have hvl := lt_of_checkedSucc hsucc
  rw [Bool.not_eq_false', Option.any_eq_true] at hdesi
  obtain ⟨deployment, hdep, hmat⟩ := hdesi
  simp only [Bool.and_eq_true, beq_iff_eq, contains_iff_mem] at hmat
  obtain ⟨hsta, hall⟩ := le_foldl_generation
    (((c.deploymentReplicas[name]?).getD ∅).toList.map Prod.snd) ((c.entries[name]?).elim 0 (·.generation))
  refine .inr ⟨key, generation, deployment, hkey, hdep, hmat.2, hmat.1, hbd,
    ?_, ?_, by omega, by rw [hmat.1], rfl⟩
  · intro entry hent
    rw [hent] at hsta hvl
    exact hvl ▸ Nat.lt_succ_of_le hsta
  · intro other entry hent
    obtain ⟨_, hbyNode, hoth⟩ := replica?_eq_some.mp hent
    rw [hbyNode] at hall hvl
    exact hvl ▸ Nat.lt_succ_of_le (hall entry (mem_values hoth))

theorem registerOrdinary_ok (h : c.registerOrdinary name node = .ok (c', reply)) :
    ∃ generation, generation = (c.entries[name]?).elim 1 (·.generation + 1) ∧
      generation ≤ maxGeneration ∧
      c' = { c with entries := c.entries.insert name ⟨node, generation, false, 0⟩ } ∧
      reply = leBytes 8 generation := by
  simp only [registerOrdinary, bind_eq_ok, orReply_eq_ok, refuse_eq_ok] at h
  obtain ⟨-, -, generation, hgen, h⟩ := h
  cases h
  split at hgen
  · rename_i hent
    obtain ⟨hsucc, hbd⟩ := bounded_eq_some.mp hgen
    exact ⟨generation, by rw [hent]; exact lt_of_checkedSucc hsucc, hbd, rfl, rfl⟩
  · rename_i hnone
    cases hgen
    exact ⟨1, by rw [hnone]; rfl, by decide, rfl, rfl⟩

theorem applyRegister_ok (h : c.applyRegister bytes = .ok (c', reply)) :
    ∃ name node rest rest' deploymentGeneration, takeLenBytes bytes = some (name, rest) ∧
      takeLenBytes rest = some (node, rest') ∧ takeLe 8 rest' = some (deploymentGeneration, []) ∧
      (if deploymentGeneration != 0 then c.registerReplica name node deploymentGeneration
        else c.registerOrdinary name node) = .ok (c', reply) := by
  simp only [applyRegister, bind_eq_ok, orReply_eq_ok, refuse_eq_ok] at h
  obtain ⟨⟨name, rest⟩, hname, ⟨node, rest'⟩, hnode, ⟨deploymentGeneration, left⟩, hgen,
    -, hend, h⟩ := h
  have hleft : left = [] := by simpa using hend
  exact ⟨name, node, rest, rest', deploymentGeneration, hname, hnode, hleft ▸ hgen, h⟩

/-- A `CMD_REGISTER` that changes nothing replies with nothing or with generation zero. -/
theorem applyRegister_error (h : c.applyRegister bytes = .error reply) :
    reply = [] ∨ reply = leBytes 8 0 := by
  obtain h | ⟨⟨_, _⟩, -, h⟩ := outcome_bind_eq_error h
  · exact .inl (orReply_eq_error h)
  obtain h | ⟨⟨_, _⟩, -, h⟩ := outcome_bind_eq_error h
  · exact .inl (orReply_eq_error h)
  obtain h | ⟨⟨_, _⟩, -, h⟩ := outcome_bind_eq_error h
  · exact .inl (orReply_eq_error h)
  obtain h | ⟨-, -, h⟩ := outcome_bind_eq_error h
  · exact .inl (refuse_eq_error h)
  split at h
  · obtain h | ⟨_, -, h⟩ := outcome_bind_eq_error h
    · exact .inl (orReply_eq_error h)
    obtain h | ⟨-, -, h⟩ := outcome_bind_eq_error h
    · exact .inr (refuse_eq_error h)
    dsimp only at h
    split at h <;> cases h
  · obtain h | ⟨-, -, h⟩ := outcome_bind_eq_error h
    · exact .inr (refuse_eq_error h)
    obtain h | ⟨_, -, h⟩ := outcome_bind_eq_error h
    · exact .inr (orReply_eq_error h)
    cases h

theorem change_register (h : c.applyRegister bytes = .ok (c', reply)) :
    Change trust c .register bytes c' := by
  obtain ⟨_, _, _, _, deploymentGeneration, hname, hnode, hend, h⟩ := applyRegister_ok h
  split at h
  · obtain ⟨rfl, -⟩ | ⟨_, _, _, hkey, hdep, hnode, -, -, hord,
      hrep, -, rfl, -⟩ := registerReplica_ok h
    · exact .reserve rfl
    · exact .registerReplica rfl hkey hdep hnode hord hrep
  · rename_i hzero
    obtain ⟨_, hgen, -, rfl, -⟩ := registerOrdinary_ok h
    have hzero : deploymentGeneration = 0 := by simpa using hzero
    exact .registerOrdinary rfl hname hnode (hzero ▸ hend) hgen

theorem change_unregister (h : c.applyUnregister bytes = .ok (c', reply)) :
    Change trust c opcode bytes c' := by
  simp only [applyUnregister, bind_eq_ok, orReply_eq_ok] at h
  obtain ⟨⟨_, _⟩, -, h⟩ := h
  cases h
  exact .unregister

theorem change_activate (h : c.applyActivate bytes = .ok (c', reply)) :
    Change trust c .activate bytes c' := by
  simp only [applyActivate, bind_eq_ok, orReply_eq_ok] at h
  obtain ⟨⟨_, rest⟩, hname, ⟨generation, rest'⟩, hgen, h⟩ := h
  split at h
  · rename_i hord
    cases h
    obtain ⟨_, hent, hmat⟩ := (any_eq_true _ _).mp hord
    simp only [Bool.and_eq_true, Bool.not_eq_true', isEmpty_eq_false_iff] at hmat
    exact .activateOrdinary hent hmat.2
  · rename_i hord
    simp only [bind_eq_ok, orReply_eq_ok, refuse_eq_ok] at h
    obtain ⟨byNode, hbyNode, ⟨_, entry⟩, hfind, -, -, h⟩ := h
    cases h
    have hmem := ExtTreeMap.mem_toList_iff_getElem?_eq_some.mp (mem_of_find?_eq_some hfind)
    have hsame : entry.generation = generation := by
      simpa using find?_some hfind
    subst hsame
    exact .activateReplica ⟨rfl, rfl, rest, rest', byNode, entry, hname, hgen,
      by simpa using hord, hbyNode, hfind⟩ hbyNode hmem

theorem change_unregisterGeneration (h : c.applyUnregisterGeneration bytes = .ok (c', reply)) :
    Change trust c opcode bytes c' := by
  simp only [applyUnregisterGeneration, bind_eq_ok, orReply_eq_ok] at h
  obtain ⟨⟨_, _⟩, -, ⟨_, _⟩, -, ⟨_, _⟩, -, h⟩ := h
  split at h
  · cases h
    exact .unregisterOrdinary
  · simp only [bind_eq_ok, orReply_eq_ok, refuse_eq_ok] at h
    obtain ⟨_, hbyNode, _, hent, -, -, h⟩ := h
    cases h
    exact .unregisterReplica hbyNode hent

theorem change_deploy (h : c.applyDeploy trust bytes = .ok (c', reply)) :
    Change trust c opcode bytes c' := by
  simp only [applyDeploy, bind_eq_ok, orReply_eq_ok, refuse_eq_ok] at h
  obtain ⟨⟨_, _⟩, -, ⟨_, _⟩, -, ⟨_, _⟩, -, -, -, _, hsgn,
    -, -, -, -, -, -, ⟨⟩, hseq, generation, hgen, -, -, h⟩ := h
  cases h
  exact .deploy hsgn hseq hgen rfl

theorem change_reassign (h : c.applyReassign bytes = .ok (c', reply)) :
    Change trust c opcode bytes c' := by
  simp only [applyReassign, bind_eq_ok, orReply_eq_ok, refuse_eq_ok] at h
  obtain ⟨⟨_, _⟩, -, ⟨_, _⟩, -, ⟨_, _⟩, -, -, -, ⟨_, _⟩,
    -, -, -, current, hcur, -, -, descriptor, -, -, -, -, -, -, -, generation, hgen, h⟩ := h
  cases h
  have hnext := lt_of_checkedSucc (bounded_eq_some.mp hgen).1
  subst hnext
  exact .reassign hcur

theorem change_release {replicated : Bool}
    (h : c.applyRelease trust replicated bytes = .ok (c', reply)) :
    Change trust c (.release replicated) bytes c' := by
  simp only [applyRelease, bind_eq_ok, orReply_eq_ok] at h
  obtain ⟨⟨_, _, _⟩, hread, _, hplan, -, -, _, -, h⟩ := h
  cases h
  exact .release rfl hread hplan

theorem change_setClusterKey (h : c.applySetClusterKey bytes = .ok (c', reply)) :
    Change trust c opcode bytes c' := by
  simp only [applySetClusterKey, bind_eq_ok, orReply_eq_ok] at h
  obtain ⟨⟨_, _⟩, -, h⟩ := h
  split at h
  · simp only [bind_eq_ok, refuse_eq_ok] at h
    obtain ⟨-, -, h⟩ := h
    cases h
    exact .keep
  · cases h
    exact .setClusterKey

/-- An envelope that passes the check is newer than the stored one. -/
theorem checkNewer_ok {α : Type} {decode : Bytes → Option α} {sequenceOf : α → ℕ}
    {sequence generation : ℕ} {envelope stored : Bytes} (h : checkNewer
      (fun bytes => (decode bytes).map sequenceOf) sequence envelope (some (generation, stored)) = .ok ()) :
    ∃ previous, decode stored = some previous ∧ sequenceOf previous < sequence := by
  simp only [checkNewer, bind_eq_ok, orReply_eq_ok, refuse_eq_ok, decide_eq_false_iff_not,
    beq_eq_false_iff_ne] at h
  obtain ⟨_, hseq, -, _, _⟩ := h
  obtain ⟨previous, hprev, rfl⟩ := map_eq_some_iff.mp hseq
  exact ⟨previous, hprev, by omega⟩

theorem change_shutdown (h : c.applyShutdown trust bytes = .ok (c', reply)) :
    Change trust c opcode bytes c' := by
  simp only [applyShutdown, bind_eq_ok, orReply_eq_ok, refuse_eq_ok] at h
  obtain ⟨⟨_, _⟩, -, -, -, -, -, _, hfds, ⟨⟩, hnw, _, -, -, -, h⟩ := h
  cases h
  refine .shutdown hfds fun existing hexis => ?_
  rw [hexis] at hnw
  exact checkNewer_ok hnw

theorem change_ingressPolicy (h : c.applyIngressPolicy trust bytes = .ok (c', reply)) :
    Change trust c opcode bytes c' := by
  simp only [applyIngressPolicy, bind_eq_ok, orReply_eq_ok, refuse_eq_ok] at h
  obtain ⟨⟨_, _⟩, -, -, -, _, hpol, ⟨⟩, hnw, _, -, h⟩ := h
  cases h
  refine .ingressPolicy hpol fun existing hexis => ?_
  rw [hexis] at hnw
  exact checkNewer_ok hnw

theorem change_nodeCapacity (h : c.applyNodeCapacity bytes = .ok (c', reply)) :
    Change trust c opcode bytes c' := by
  simp only [applyNodeCapacity, bind_eq_ok, orReply_eq_ok] at h
  obtain ⟨_, -, -, -, h⟩ := h
  cases h
  exact .nodeCapacity

theorem change_availability (h : c.applyAvailability term bytes = .ok (c', reply)) {rest : Bytes} :
    Change trust c opcode rest c' := by
  simp only [applyAvailability, bind_eq_ok, orReply_eq_ok, refuse_eq_ok] at h
  obtain ⟨_, -, -, -, -, -, _, -, h⟩ := h
  cases h
  exact .availability

theorem change_of_applyOpcode (h : c.applyOpcode trust term opcode bytes = .ok (c', reply)) :
    Change trust c opcode bytes c' := by
  cases opcode with
  | register => exact change_register h
  | unregister => exact change_unregister h
  | activate => exact change_activate h
  | unregisterGeneration => exact change_unregisterGeneration h
  | deploy => exact change_deploy h
  | setClusterKey => exact change_setClusterKey h
  | release => exact change_release h
  | shutdown => exact change_shutdown h
  | reassign => exact change_reassign h
  | ingressPolicy => exact change_ingressPolicy h
  | nodeCapacity => exact change_nodeCapacity h
  | availability => exact change_availability h

variable {command : Bytes}

/-- What every change preserves is preserved by every command. -/
theorem applyCommand_induction (P : NameCatalog → Prop) (hkeep : P c)
    (hch : ∀ {byte opcode bytes c'}, command = byte :: bytes → Opcode.ofByte byte = some opcode →
      Change trust c opcode bytes c' → P c') : P (c.applyCommand trust term command).1 := by
  unfold applyCommand
  split
  · exact hkeep
  split
  · exact hkeep
  · rename_i hop
    split
    · rename_i hres
      exact hch rfl hop (change_of_applyOpcode hres)
    · exact hkeep

/-- The catalog after a sequence of log commands, each with its term. -/
def run (trust : Trust) (commands : List (ℕ × Bytes)) : NameCatalog :=
  commands.foldl (fun catalog (term, command) => (catalog.applyCommand trust term command).1) empty

variable {commands : List (ℕ × Bytes)} {k : ℕ}

theorem run_take_succ (h : commands[k]? = some (term, command)) : run trust (commands.take (k + 1)) =
      ((run trust (commands.take k)).applyCommand trust term command).1 := by
  rw [take_add_one, h, run, run, foldl_append]
  rfl

/-- What holds at first and is kept by every command of a run holds after each of them. -/
theorem run_induction (P : NameCatalog → Prop) {j : ℕ}
    (hjk : j ≤ k) (hsta : P (run trust (commands.take j)))
    (hstep : ∀ i term command, j ≤ i → i < k → commands[i]? = some (term, command) →
      P (run trust (commands.take i)) →
      P ((run trust (commands.take i)).applyCommand trust term command).1) :
    P (run trust (commands.take k)) := by
  induction k, hjk using Nat.le_induction with
  | base => exact hsta
  | succ k hjk ih =>
    have hk := ih fun i term command hji hik => hstep i term command hji (by omega)
    cases hcmd : commands[k]? with
    | none =>
      rw [take_add_one, hcmd]
      simpa using hk
    | some entry =>
      obtain ⟨term, command⟩ := entry
      rw [run_take_succ hcmd]
      exact hstep k term command hjk (by omega) hcmd hk

end NameCatalog

end Charlotte.Catalog
