import Charlotte.Catalog.Generation

/-!
# Retired registrations

A registration that is deactivated, or whose deployment moves to another generation, is
retired. Only `CMD_ACTIVATE` can make a retired publication active again; in a run whose
activations name no retired publication, every active publication belongs to the current
deployment of its artifact.
-/

namespace Charlotte.Catalog

open Lib Launch List Option
open Std (ExtTreeMap)

def encodeActivate (name : Bytes) (generation : ℕ) : Bytes :=
  0x03 :: (lenBytes name ++ leBytes 8 generation)

def encodeUnregister (name : Bytes) : Bytes := 0x02 :: lenBytes name

namespace NameCatalog

variable {trust : Trust} {c c' : NameCatalog} {opcode : Opcode} {bytes : Bytes} {term : ℕ}

/-- The record of a registration, if the catalog still has it. -/
def record? (c : NameCatalog) (r : Registration) : Option CatalogEntry :=
  match r.registry with
  | .ordinary => (c.entries[r.name]?).filter fun entry =>
    entry.node == r.node && entry.generation == r.generation
  | .replica => (c.replica? r.name r.node).filter fun entry => entry.generation == r.generation

def Active (c : NameCatalog) (r : Registration) : Prop :=
  ∃ entry, c.record? r = some entry ∧ entry.active = true

/-- The command takes `r` from active to not active, or it moves the deployment that the
publication `r` belongs to to another generation. -/
def Retires (trust : Trust) (c : NameCatalog) (term : ℕ) (command : Bytes) (r : Registration) : Prop :=
  let c' := (c.applyCommand trust term command).1
  (c.Active r ∧ ¬ c'.Active r) ∨
    (r.registry = .replica ∧ (∃ entry, c.record? r = some entry) ∧
      (c'.deployments[r.name]?).map (·.generation) ≠ (c.deployments[r.name]?).map (·.generation))

/-- The publication that the command would make active, if it is a `CMD_ACTIVATE`. -/
def activated? (c : NameCatalog) : Bytes → Option Registration
  | [] => none
  | byte :: bytes =>
    if byte = 0x03 then do
      let (name, rest) ← takeLenBytes bytes
      let (generation, _) ← takeLe 8 rest
      reject (c.activatesOrdinary name generation)
      let byNode ← c.deploymentReplicas[name]?
      let (node, _) ← byNode.toList.find? fun (_, entry) => entry.generation == generation
      some ⟨.replica, name, node, generation⟩
    else none

/-- Where an ordinary registration goes in one command. -/
inductive OrdinaryStep (entry : CatalogEntry) : CatalogEntry → Prop
  | keep : OrdinaryStep entry entry
  | activate (hnode : entry.node ≠ []) : OrdinaryStep entry { entry with active := true }
  | retire : OrdinaryStep entry { entry with node := [], active := false }
  | replace {next : CatalogEntry} (hlt : entry.generation < next.generation) : OrdinaryStep entry next

/-- The publication belongs to the current deployment of its artifact, on one of its nodes. -/
def Current (c : NameCatalog) (name node : Bytes) (entry : CatalogEntry) : Prop :=
  ∃ deployment key, c.deployments[name]? = some deployment ∧
    entry.deploymentGeneration = deployment.generation ∧ keyFromName node = some key ∧
    key ∈ deployment.replicaNodes

/-- Where the publication of a name on a node goes in one command. -/
inductive ReplicaStep (c : NameCatalog) (opcode : Opcode) (bytes name node : Bytes) :
    Option CatalogEntry → Option CatalogEntry → Prop
  | keep {entry : Option CatalogEntry} : ReplicaStep c opcode bytes name node entry entry
  | activate {entry : CatalogEntry}
      (h : c.Activates opcode bytes ⟨.replica, name, node, entry.generation⟩) :
      ReplicaStep c opcode bytes name node (some entry) (some { entry with active := true })
  | retire {entry : Option CatalogEntry} :
      ReplicaStep c opcode bytes name node entry
        (entry.map fun entry => { entry with active := false })
  | register {entry : Option CatalogEntry} {next : CatalogEntry}
      (hnew : ∀ old, entry = some old → old.generation < next.generation)
      (hcurrent : c.Current name node next) (hprepared : next.active = false) :
      ReplicaStep c opcode bytes name node entry (some next)

variable {name : Bytes} {entry : CatalogEntry}

theorem modify_step {f : CatalogEntry → CatalogEntry} {other : Bytes}
    (hf : other = name → OrdinaryStep entry (f entry)) (hent : c.entries[name]? = some entry) :
    ∃ next, (c.entries.modify other f)[name]? = some next ∧ OrdinaryStep entry next := by
  rw [getElem?_modify_byteMap]
  split
  · rename_i hname
    subst hname
    exact ⟨f entry, by rw [hent]; rfl, hf rfl⟩
  · exact ⟨entry, hent, .keep⟩

theorem Change.ordinary (h : Change trust c opcode bytes c') (hent : c.entries[name]? = some entry) :
    ∃ next, c'.entries[name]? = some next ∧ OrdinaryStep entry next := by
  cases h with
  | @registerOrdinary other node rest rest' generation _ _ _ _ hgen =>
    rw [getElem?_insert_byteMap]
    split
    · rename_i hname
      subst hname
      rw [hent] at hgen
      exact ⟨_, rfl, .replace (by rw [hgen]; exact Nat.lt_succ_self _)⟩
    · exact ⟨entry, hent, .keep⟩
  | unregister | unregisterOrdinary => exact modify_step (fun _ => .retire) hent
  | @activateOrdinary other found hfnd hnode =>
    refine modify_step (fun hname => .activate ?_) hent
    subst hname
    cases hfnd.symm.trans hent
    exact hnode
  | _ => exact ⟨entry, hent, .keep⟩

variable {node : Bytes}

/-- Writing the record of one publication is a step of that one and of no other. -/
theorem replicaStep_insert {other node' : Bytes} {byNode : ByteMap CatalogEntry}
    {next : CatalogEntry} (hbyNode : c.deploymentReplicas[other]? = some byNode)
    (hent : byNode[node']? = some entry) (hstep : other = name → node' = node →
      ReplicaStep c opcode bytes name node (some entry) (some next)) :
    ReplicaStep c opcode bytes name node (c.replica? name node)
      (replicaOf (c.deploymentReplicas.insert other (byNode.insert node' next)) name node) := by
  rw [replicaOf_insert, getElem?_insert_byteMap]
  split
  · rename_i hname
    subst hname
    have hold : c.replica? other node = byNode[node]? := by
      rw [replica?, replicaOf, hbyNode]
      rfl
    rw [hold]
    split
    · rename_i hnode
      subst hnode
      rw [hent]
      exact hstep rfl rfl
    · exact .keep
  · exact .keep

theorem replicaStep_retireReplicas {replicas : ByteMap (ByteMap CatalogEntry)} (names : List Bytes) :
    ReplicaStep c opcode bytes name node (replicaOf replicas name node)
      (replicaOf (names.foldl retireReplicas replicas) name node) := by
  rw [replicaOf_foldl_retireReplicas]
  by_cases hname : name ∈ names
  · simp only [if_pos hname]
    exact .retire
  · simp only [if_neg hname, Option.map_id']
    exact .keep

theorem Change.replica (h : Change trust c opcode bytes c') (name node : Bytes) :
    ReplicaStep c opcode bytes name node (c.replica? name node) (c'.replica? name node) := by
  cases h with
  | reserve _ =>
    change ReplicaStep _ _ _ _ _ _ (replicaOf (c.deploymentReplicas.insert _ _) name node)
    rw [replicaOf_insert, getD_getElem?]
    split
    · rename_i hname
      rw [hname]
      exact .keep
    · exact .keep
  | @registerReplica other node' key generation deployment _ hkey hdep hnode _ hnew =>
    change ReplicaStep _ _ _ _ _ _ (replicaOf (c.deploymentReplicas.insert _ _) name node)
    rw [replicaOf_insert, getElem?_insert_byteMap, getD_getElem?]
    split
    · rename_i hname
      subst hname
      split
      · rename_i hsame
        subst hsame
        exact .register (fun old hold => hnew _ old hold) ⟨deployment, key, hdep, rfl, hkey, hnode⟩
          rfl
      · exact .keep
    · exact .keep
  | unregister | deploy | reassign => exact replicaStep_retireReplicas [_]
  | release => exact replicaStep_retireReplicas _
  | activateReplica hactv hbyNode hent =>
    refine replicaStep_insert hbyNode hent fun hname hnode => .activate ?_
    subst hname hnode
    exact hactv
  | unregisterReplica hbyNode hent =>
    exact replicaStep_insert hbyNode hent fun _ _ => .retire
  | _ => exact .keep

/-- The registration is gone for good: its record is one of a later generation, or it is
not active, and an ordinary one has lost its node as well. -/
def Gone (c : NameCatalog) (r : Registration) : Prop :=
  match r.registry with
  | .ordinary => ∃ entry, c.entries[r.name]? = some entry ∧
      (r.generation < entry.generation ∨
        (entry.generation = r.generation ∧ entry.node = [] ∧ entry.active = false))
  | .replica => ∃ entry, c.replica? r.name r.node = some entry ∧
      (r.generation < entry.generation ∨ (entry.generation = r.generation ∧ entry.active = false))

variable {r : Registration} {command : Bytes} {byte : UInt8}

theorem Gone.not_active (h : c.Gone r) : ¬ c.Active r := by
  rintro ⟨_, hent, hact⟩
  obtain ⟨registry, _, _, _⟩ := r
  cases registry with
  | ordinary =>
    obtain ⟨hent, hsame⟩ := filter_eq_some_iff.mp hent
    obtain ⟨_, hent', hgone⟩ := h
    cases hent.symm.trans hent'
    simp only [Bool.and_eq_true, beq_iff_eq] at hsame
    rcases hgone with hlt | ⟨-, -, hinac⟩
    · exact absurd hsame.2 (ne_of_gt hlt)
    · exact absurd hact (by simp [hinac])
  | replica =>
    obtain ⟨hent, hsame⟩ := filter_eq_some_iff.mp hent
    obtain ⟨_, hent', hgone⟩ := h
    cases hent.symm.trans hent'
    rw [beq_iff_eq] at hsame
    rcases hgone with hlt | ⟨-, hinac⟩
    · exact absurd hsame (ne_of_gt hlt)
    · exact absurd hact (by simp [hinac])

theorem activated_of_activates
    (hop : Opcode.ofByte byte = some opcode) (h : c.Activates opcode bytes r) :
    c.activated? (byte :: bytes) = some r := by
  obtain ⟨rfl, hreg, _, _, _, _, hname, hgen, hord, hbyNode, hfind⟩ := h
  have hbyte : byte = 0x03 := by
    unfold Opcode.ofByte at hop
    split at hop
    case h_3 hvl => exact UInt8.toNat_inj.mp hvl
    all_goals exact absurd hop (by simp)
  obtain ⟨_, _, _, _⟩ := r
  simp only at hreg hname hgen hord hbyNode hfind
  simp [activated?, hbyte, hname, hgen, hord, hbyNode, hfind, hreg, reject]

theorem Change.gone (h : Change trust c opcode bytes c')
    (hop : Opcode.ofByte byte = some opcode) (hgone : c.Gone r)
    (hactd : c.activated? (byte :: bytes) ≠ some r) : c'.Gone r := by
  obtain ⟨registry, name, node, _⟩ := r
  cases registry with
  | ordinary =>
    obtain ⟨_, hent, hgone⟩ := hgone
    obtain ⟨next, hnext, hstep⟩ := h.ordinary hent
    refine ⟨next, hnext, ?_⟩
    cases hstep with
    | keep => exact hgone
    | activate hnode => exact hgone.imp_right fun hemp => absurd hemp.2.1 hnode
    | retire => exact hgone.imp_right fun hemp => ⟨hemp.1, rfl, rfl⟩
    | replace hlt =>
      rcases hgone with hbef | hemp
      · exact .inl (hbef.trans hlt)
      · exact .inl (hemp.1 ▸ hlt)
  | replica =>
    obtain ⟨entry, hent, hgone⟩ := hgone
    have hstep := h.replica name node
    change ∃ next, c'.replica? name node = some next ∧ _
    rw [hent] at hstep
    generalize c'.replica? name node = after at hstep
    cases hstep with
    | keep => exact ⟨entry, rfl, hgone⟩
    | activate hactv =>
      refine ⟨_, rfl, hgone.imp_right fun hsame => ?_⟩
      rw [hsame.1] at hactv
      exact absurd (activated_of_activates hop hactv) hactd
    | retire => exact ⟨_, rfl, hgone.imp_right fun hsame => ⟨hsame.1, rfl⟩⟩
    | register hnew =>
      refine ⟨_, rfl, .inl ?_⟩
      have hlt := hnew entry rfl
      rcases hgone with hbef | hsame
      · exact hbef.trans hlt
      · exact hsame.1 ▸ hlt

/-- The artifacts whose generation a plan changes are those it counts as changed. -/
theorem mem_changedArtifacts {deployments : List (Bytes × DeploymentEntry)}
    (hnd : (deployments.map Prod.fst).Nodup)
    (hmv : ((insertAll c.deployments deployments)[name]?).map (·.generation) ≠
      (c.deployments[name]?).map (·.generation)) : name ∈ c.changedArtifacts deployments := by
  by_cases hname : name ∈ deployments.map Prod.fst
  · obtain ⟨⟨artifact, next⟩, hrec, rfl⟩ := mem_map.mp hname
    rw [(getElem?_insertAll hnd).mpr (.inl hrec)] at hmv
    refine mem_map.mpr ⟨(artifact, next), mem_filter.mpr ⟨hrec, ?_⟩, rfl⟩
    cases hcur : c.deployments[artifact]? with
    | none => simp [hcur]
    | some =>
      simpa [hcur] using Ne.symm hmv
  · exact absurd (congrArg _ (getElem?_insertAll_of_notMem hnd hname)) hmv

/-- A change of a deployment's generation retires the publications of its artifact. -/
theorem Change.retires_replicas (h : Change trust c opcode bytes c') (node : Bytes)
    (hmv : (c'.deployments[name]?).map (·.generation) ≠ (c.deployments[name]?).map (·.generation)) :
    c'.replica? name node = (c.replica? name node).map fun entry => { entry with active := false } := by
  have hone : ∀ {key : Bytes} {entry : DeploymentEntry},
      ((c.deployments.insert key entry)[name]?).map (·.generation) ≠
        (c.deployments[name]?).map (·.generation) →
      replicaOf (retireReplicas c.deploymentReplicas key) name node =
        (c.replica? name node).map fun entry => { entry with active := false } := by
    intro key entry hmv
    have hkey : key = name := by
      by_contra hne
      exact hmv (by rw [getElem?_insert_byteMap, if_neg hne])
    rw [replicaOf_retireReplicas]
    simp only [hkey, if_true]
    rfl
  cases h with
  | deploy | reassign => exact hone hmv
  | @release replicated envelope assignments tail plan _ hread hplan =>
    have hnd := (planRelease_ok hread hplan).nodup_deployments hread
    have hch : name ∈ c.changedArtifacts plan.deployments := mem_changedArtifacts hnd hmv
    change replicaOf (foldl retireReplicas _ _) name node = _
    rw [replicaOf_foldl_retireReplicas]
    simp only [if_pos hch]
    rfl
  | _ => exact absurd rfl hmv

theorem Change.gone_of_deactivated (h : Change trust c opcode bytes c')
    (hact : c.Active r) (hnot : ¬ c'.Active r) : c'.Gone r := by
  obtain ⟨registry, name, node, _⟩ := r
  obtain ⟨entry, hent, hact⟩ := hact
  cases registry with
  | ordinary =>
    obtain ⟨hent, hsame⟩ := filter_eq_some_iff.mp hent
    obtain ⟨next, hnext, hstep⟩ := h.ordinary hent
    simp only [Bool.and_eq_true, beq_iff_eq] at hsame
    refine ⟨next, hnext, ?_⟩
    -- a record that stays active would contradict the deactivation
    have hstays : next.node = entry.node → next.generation = entry.generation →
        next.active = true → False := by
      intro hnode hgen hstill
      refine hnot ⟨next, filter_eq_some_iff.mpr ⟨hnext, ?_⟩, hstill⟩
      simp [hnode, hgen, hsame.1, hsame.2]
    cases hstep with
    | keep => exact (hstays rfl rfl hact).elim
    | activate => exact (hstays rfl rfl rfl).elim
    | retire => exact .inr ⟨hsame.2, rfl, rfl⟩
    | replace hlt => exact .inl (hsame.2 ▸ hlt)
  | replica =>
    obtain ⟨hent, hsame⟩ := filter_eq_some_iff.mp hent
    rw [beq_iff_eq] at hsame
    have hstays : ∀ next, c'.replica? name node = some next → next.generation = entry.generation →
        next.active = true → False := by
      intro next hnext hgen hstill
      refine hnot ⟨next, filter_eq_some_iff.mpr ⟨hnext, ?_⟩, hstill⟩
      simp [hgen, hsame]
    have hstep := h.replica name node
    rw [hent] at hstep
    change ∃ next, c'.replica? name node = some next ∧ _
    generalize c'.replica? name node = after at hstep hstays
    cases hstep with
    | keep => exact (hstays entry rfl rfl hact).elim
    | activate => exact (hstays _ rfl rfl rfl).elim
    | retire => exact ⟨_, rfl, .inr ⟨hsame, rfl⟩⟩
    | register hnew => exact ⟨_, rfl, .inl (hsame ▸ hnew entry rfl)⟩

theorem gone_of_retires
    (h : c.Retires trust term command r) : (c.applyCommand trust term command).1.Gone r := by
  rcases h with ⟨hact, hnot⟩ | ⟨hreg, ⟨entry, hent⟩, hmv⟩
  · revert hnot
    apply applyCommand_induction (fun c' => ¬ c'.Active r → c'.Gone r)
    · intro hnot
      exact absurd hact hnot
    · intro byte opcode bytes c' _ _ hch hnot
      exact hch.gone_of_deactivated hact hnot
  · revert hmv
    apply applyCommand_induction (fun c' => (c'.deployments[r.name]?).map (·.generation) ≠
      (c.deployments[r.name]?).map (·.generation) → c'.Gone r)
    · intro hmv
      exact absurd rfl hmv
    · intro byte opcode bytes c' _ _ hch hmv
      obtain ⟨_, _, node, _⟩ := r
      subst hreg
      obtain ⟨hent, hsame⟩ := filter_eq_some_iff.mp hent
      refine ⟨{ entry with active := false }, ?_, .inr ⟨by simpa using hsame, rfl⟩⟩
      rw [hch.retires_replicas node hmv, hent]
      rfl

variable {entry' : CatalogEntry}

/-- A publication of the current deployment stays one while the generation stays. -/
theorem Current.of_follows (h : c.Current name node entry) (hfol : c'.Follows c)
    (hsame : (c'.deployments[name]?).map (·.generation) = (c.deployments[name]?).map (·.generation))
    (hgen : entry'.deploymentGeneration = entry.deploymentGeneration) :
    c'.Current name node entry' := by
  obtain ⟨deployment, key, hdep, hent, hkey, hnode⟩ := h
  obtain ⟨next, hnext, hstep⟩ := hfol.deployments hdep
  rw [hnext, hdep] at hsame
  have hsame : next.generation = deployment.generation := some.inj hsame
  rcases hstep with rfl | ⟨_, -⟩
  · exact ⟨next, key, hnext, hgen.trans hent, hkey, hnode⟩
  · omega

/-- Where the publication `entry'` of `c'` comes from: its deployment has moved since `c`, it
is the publication that `c` has, or it is one of the current deployment. -/
def Origin (c c' : NameCatalog) (name node : Bytes) (entry' : CatalogEntry) : Prop :=
  (∃ entry, c.replica? name node = some entry ∧ entry.generation = entry'.generation ∧
    (c'.deployments[name]?).map (·.generation) ≠ (c.deployments[name]?).map (·.generation)) ∨
  (∃ entry, c.replica? name node = some entry ∧ entry.generation = entry'.generation ∧
    (c.Current name node entry → c'.Current name node entry')) ∨
  c'.Current name node entry'

theorem Change.origin (h : Change trust c opcode bytes c')
    (hent' : c'.replica? name node = some entry') : Origin c c' name node entry' := by
  by_cases hmv : (c'.deployments[name]?).map (·.generation) = (c.deployments[name]?).map (·.generation)
  · unfold Origin
    have hstep := h.replica name node
    generalize c.replica? name node = before at hstep ⊢
    generalize c'.replica? name node = after at hstep hent'
    have hkeep : ∀ {entry : CatalogEntry}, entry'.deploymentGeneration = entry.deploymentGeneration →
        c.Current name node entry → c'.Current name node entry' :=
      fun hgen hcur => hcur.of_follows h.follows hmv hgen
    cases hstep with
    | keep => exact .inr (.inl ⟨entry', hent', rfl, hkeep rfl⟩)
    | @activate entry _ =>
      cases hent'
      exact .inr (.inl ⟨entry, rfl, rfl, hkeep rfl⟩)
    | retire =>
      obtain ⟨entry, hent, rfl⟩ := map_eq_some_iff.mp hent'
      exact .inr (.inl ⟨entry, hent, rfl, hkeep rfl⟩)
    | register _ hcur =>
      cases hent'
      exact .inr (.inr (hkeep rfl hcur))
  · rw [h.retires_replicas node hmv] at hent'
    obtain ⟨entry, hent, rfl⟩ := map_eq_some_iff.mp hent'
    exact .inl ⟨entry, hent, rfl, hmv⟩

theorem origin_applyCommand
    (hent' : (c.applyCommand trust term command).1.replica? name node = some entry') :
    Origin c (c.applyCommand trust term command).1 name node entry' := by
  revert hent'
  apply applyCommand_induction fun c' =>
    c'.replica? name node = some entry' → Origin c c' name node entry'
  · intro hent'
    exact .inr (.inl ⟨entry', hent', rfl, id⟩)
  · intro byte opcode bytes c' _ _ hch hent'
    exact hch.origin hent'

/-- In every run whose activations name no retired publication, a retired registration never
becomes active again, and every active publication is of the current generation of its
deployment and on one of its nodes. -/
theorem retired_stays_retired (trust : Trust) (commands : List (ℕ × Bytes))
    (hactivated : ∀ i j term command term' command' r, i < j →
      commands[i]? = some (term, command) → commands[j]? = some (term', command') →
      (run trust (commands.take i)).Retires trust term command r →
      (run trust (commands.take j)).activated? command' ≠ some r) :
    (∀ i k term command r, i < k → commands[i]? = some (term, command) →
      (run trust (commands.take i)).Retires trust term command r →
      ¬ (run trust (commands.take k)).Active r) ∧
    ∀ k name node entry, (run trust (commands.take k)).replica? name node = some entry →
      entry.active = true → (run trust (commands.take k)).Current name node entry := by
  have hgone : ∀ i k term command r, i < k → commands[i]? = some (term, command) →
      (run trust (commands.take i)).Retires trust term command r →
      (run trust (commands.take k)).Gone r := by
    intro i k term command r hik hi hret
    apply run_induction (·.Gone r) (Nat.succ_le_of_lt hik)
    · rw [run_take_succ hi]
      exact gone_of_retires hret
    · intro j term' command' hij _ hj hgone
      apply applyCommand_induction (·.Gone r) hgone
      intro byte opcode bytes c' hcmd hop hch
      refine hch.gone hop hgone ?_
      rw [← hcmd]
      exact hactivated i j term command term' command' r (by omega) hi hj hret
  have hpubl : ∀ k name node entry, (run trust (commands.take k)).replica? name node = some entry →
      (∃ i term command, i < k ∧ commands[i]? = some (term, command) ∧
        (run trust (commands.take i)).Retires trust term command
          ⟨.replica, name, node, entry.generation⟩) ∨
      (run trust (commands.take k)).Current name node entry := by
    intro k
    induction k with
    | zero =>
      intro name node entry hent
      exact absurd hent (by simp [run, empty, replica?, replicaOf])
    | succ k ih =>
      have hlater : ∀ {P : ℕ → ℕ → Bytes → Prop}, (∃ i term command, i < k ∧ P i term command) →
          ∃ i term command, i < k + 1 ∧ P i term command := by
        rintro P ⟨i, term, command, hi, h⟩
        exact ⟨i, term, command, by omega, h⟩
      cases hk : commands[k]? with
      | none =>
        have hsame : commands.take (k + 1) = commands.take k := by
          rw [take_add_one, hk]
          simp
        rw [hsame]
        intro name node entry hent
        exact (ih name node entry hent).imp_left hlater
      | some pair =>
        obtain ⟨term, command⟩ := pair
        rw [run_take_succ hk]
        intro name node entry' hent'
        obtain ⟨entry, hent, hsame, hmv⟩ | ⟨entry, hent, hsame, hkeep⟩ | hcur :=
          origin_applyCommand hent'
        · refine .inl ⟨k, term, command, Nat.lt_succ_self k, hk, .inr ⟨rfl, ⟨entry, ?_⟩, hmv⟩⟩
          exact filter_eq_some_iff.mpr ⟨hent, by simpa using hsame⟩
        · rw [← hsame]
          exact (ih name node entry hent).imp hlater hkeep
        · exact .inr hcur
  refine ⟨fun i k term command r hik hi hret => (hgone i k term command r hik hi hret).not_active, ?_⟩
  intro k name node entry hent hact
  rcases hpubl k name node entry hent with ⟨i, term, command, hik, hi, hret⟩ | hcur
  · refine absurd ⟨entry, ?_, hact⟩ (hgone i k term command _ hik hi hret).not_active
    exact filter_eq_some_iff.mpr ⟨hent, by simp⟩
  · exact hcur

end NameCatalog

section Samples

open NameCatalog

/-- A publication of `web` becomes active, is unregistered, and is activated again. -/
def reactivation : List (ℕ × Bytes) :=
  [(1, webReport), (1, deployWeb 1), (1, encodeRegister (text "web") webNode 1),
    (1, encodeActivate (text "web") 1), (1, encodeUnregister (text "web")),
    (1, encodeActivate (text "web") 1)]

/-- The publication stays unregistered. -/
def unregistration : List (ℕ × Bytes) := reactivation.take 5

def webPublication : Registration := ⟨.replica, text "web", webNode, 1⟩

instance (c : NameCatalog) (r : Registration) : Decidable (c.Active r) :=
  decidable_of_iff ((c.record? r).any (·.active) = true) (by simp [Active, Option.any_eq_true])

/-- The last command retires what the one activation names; nothing retires it before. -/
theorem retired_stays_retired_unregistered :
    (run openTrust (unregistration.take 4)).Retires openTrust 1 (encodeUnregister (text "web"))
      webPublication ∧ ¬ (run openTrust (unregistration.take 5)).Active webPublication ∧
    ∀ k name node entry, (run openTrust (unregistration.take k)).replica? name node = some entry →
      entry.active = true → (run openTrust (unregistration.take k)).Current name node entry := by
  have hrun : (run openTrust (unregistration.take 4)).Active webPublication ∧
      ¬ ((run openTrust (unregistration.take 4)).applyCommand openTrust 1
        (encodeUnregister (text "web"))).1.Active webPublication ∧
      (∀ i < 3, (run openTrust (unregistration.take i)).record? webPublication = none) ∧
      ∀ j, (hj : j < unregistration.length) → (run openTrust (unregistration.take j)).activated?
        unregistration[j].2 = if j = 3 then some webPublication else none := by
    decide +kernel
  obtain ⟨hact, hoff, hrec, hactd⟩ := hrun
  have hret : (run openTrust (unregistration.take 4)).Retires openTrust 1
      (encodeUnregister (text "web")) webPublication := .inl ⟨hact, hoff⟩
  suffices h : _ from
    ⟨hret, (retired_stays_retired openTrust unregistration h).1 4 5 1 _ _ (by decide) rfl hret,
      (retired_stays_retired openTrust unregistration h).2⟩
  intro i j term command term' command' r hij _ hj hret hr
  obtain ⟨hlen, hcmd⟩ := List.getElem?_eq_some_iff.mp hj
  have hlast := hactd j hlen
  rw [hcmd, hr] at hlast
  split at hlast
  · cases hlast
    have hnone := hrec i (by omega)
    rcases hret with ⟨⟨_, hent, -⟩, -⟩ | ⟨-, ⟨_, hent⟩, -⟩
    · exact absurd (hnone.symm.trans hent) (by simp)
    · exact absurd (hnone.symm.trans hent) (by simp)
  · cases hlast

/-- `CMD_UNREGISTER` retires the publication, and the repeated `CMD_ACTIVATE` makes it active. -/
theorem reactivated_after_unregister :
    (run openTrust (reactivation.take 4)).Retires openTrust 1 (encodeUnregister (text "web"))
      webPublication ∧ (run openTrust reactivation).Active webPublication := by
  have hact : (run openTrust (reactivation.take 4)).Active webPublication ∧
      ¬ ((run openTrust (reactivation.take 4)).applyCommand openTrust 1
        (encodeUnregister (text "web"))).1.Active webPublication ∧
      (run openTrust reactivation).Active webPublication := by
    decide +kernel
  exact ⟨.inl ⟨hact.1, hact.2.1⟩, hact.2.2⟩

end Samples

end Charlotte.Catalog
