import Charlotte.Catalog.Changes

/-!
# Generations of registrations

Ordinary services and deployed applications register under one name space but in
two registries. A run in which no ordinary registration overtakes a newer
publication of its name gives every registration of a name a new generation.
-/

namespace Charlotte.Catalog

open Lib Launch Launch.ReleaseAdmission Option
open Std (ExtTreeMap)

def encodeRegister (name node : Bytes) (deploymentGeneration : ℕ) : Bytes :=
  0x01 :: (lenBytes name ++ lenBytes node ++ leBytes 8 deploymentGeneration)

theorem leBytes_injOn {width a b : ℕ} (ha : a < 256 ^ width) (hb : b < 256 ^ width)
    (h : leBytes width a = leBytes width b) : a = b := by
  rw [← leValue_leBytes ha, ← leValue_leBytes hb, h]

theorem lt_of_le_maxGeneration {generation : ℕ} (h : generation ≤ maxGeneration) :
    generation < 256 ^ 8 :=
  lt_of_le_of_lt h (by decide)

namespace NameCatalog

variable {trust : Trust} {c c' : NameCatalog} {opcode : Opcode} {bytes : Bytes} {term : ℕ}

/-- The command is a `CMD_REGISTER` of `name` that succeeds and returns `generation`. -/
def Registers (trust : Trust) (c : NameCatalog) (term : ℕ) (command name : Bytes)
    (generation : ℕ) : Prop :=
  (∃ bytes rest, command = 0x01 :: bytes ∧ takeLenBytes bytes = some (name, rest)) ∧
    0 < generation ∧ generation < 2 ^ 64 ∧
    (c.applyCommand trust term command).2 = leBytes 8 generation

/-- The name that an ordinary `CMD_REGISTER` registers. -/
def ordinaryName : Bytes → Option Bytes
  | [] => none
  | byte :: bytes =>
    if byte = 0x01 then do
      let (name, rest) ← takeLenBytes bytes
      let (_, rest) ← takeLenBytes rest
      let (deploymentGeneration, rest) ← takeLe 8 rest
      if deploymentGeneration = 0 ∧ rest = [] then some name else none
    else none

/-- An ordinary registration of a name comes when none of its publications is newer than
its last ordinary registration. -/
def OrdinaryNotOvertaken (c : NameCatalog) (command : Bytes) : Prop :=
  ∀ name ∈ ordinaryName command, ∀ byNode ∈ c.deploymentReplicas[name]?, ∀ record ∈ byNode.toList,
    record.2.generation ≤ (c.entries[name]?).elim 0 (·.generation)

instance (c : NameCatalog) (command : Bytes) : Decidable (c.OrdinaryNotOvertaken command) :=
  inferInstanceAs (Decidable (∀ name ∈ ordinaryName command,
    ∀ byNode ∈ c.deploymentReplicas[name]?, ∀ record ∈ byNode.toList,
      record.2.generation ≤ (c.entries[name]?).elim 0 (·.generation)))

variable {name node other : Bytes}

theorem OrdinaryNotOvertaken.le {rest rest' : Bytes} {entry : CatalogEntry}
    (h : c.OrdinaryNotOvertaken (0x01 :: bytes)) (hname : takeLenBytes bytes = some (name, rest))
    (hnode : takeLenBytes rest = some (node, rest')) (hend : takeLe 8 rest' = some (0, []))
    (hent : c.replica? name other = some entry) :
    entry.generation ≤ (c.entries[name]?).elim 0 (·.generation) := by
  obtain ⟨byNode, hbyNode, hoth⟩ := replica?_eq_some.mp hent
  have hord : ordinaryName (0x01 :: bytes) = some name := by
    simp [ordinaryName, hname, hnode, hend]
  exact h name hord byNode hbyNode (other, entry)
    (ExtTreeMap.mem_toList_iff_getElem?_eq_some.mpr hoth)

/-- Some registration of `name` is of a generation of at least `generation`. -/
def Reaches (c : NameCatalog) (name : Bytes) (generation : ℕ) : Prop :=
  (∃ entry, c.entries[name]? = some entry ∧ generation ≤ entry.generation) ∨
    ∃ node entry, c.replica? name node = some entry ∧ generation ≤ entry.generation

/-- No two registrations of `name` share a generation. -/
structure Distinct (c : NameCatalog) (name : Bytes) : Prop where
  ordinary : ∀ {entry node replica}, c.entries[name]? = some entry →
    c.replica? name node = some replica → entry.generation ≠ replica.generation
  replicas : ∀ {node node' replica replica'}, c.replica? name node = some replica →
    c.replica? name node' = some replica' → replica.generation = replica'.generation → node = node'

/-- What a change does to the generations registered under a name: nothing, a new one
above all others for a publication, or a new one above the last one for an ordinary
registration. -/
inductive Regenerates (c : NameCatalog) (opcode : Opcode) (bytes name : Bytes) (c' : NameCatalog) : Prop
  | same
      (hordinary : (c'.entries[name]?).map (·.generation) = (c.entries[name]?).map (·.generation))
      (hreplicas : ∀ node, (c'.replica? name node).map (·.generation) =
        (c.replica? name node).map (·.generation))
  | replica {node : Bytes} {entry : CatalogEntry}
      (hordinary : c'.entries[name]? = c.entries[name]?)
      (hreplicas : ∀ other, c'.replica? name other =
        if node = other then some entry else c.replica? name other)
      (habove : ∀ old, c.entries[name]? = some old → old.generation < entry.generation)
      (hnew : ∀ other old, c.replica? name other = some old → old.generation < entry.generation)
  | ordinary {node rest rest' : Bytes} {entry : CatalogEntry} (hopcode : opcode = .register)
      (hname : takeLenBytes bytes = some (name, rest))
      (hnode : takeLenBytes rest = some (node, rest')) (hend : takeLe 8 rest' = some (0, []))
      (hordinary : c'.entries[name]? = some entry)
      (hreplicas : ∀ node, c'.replica? name node = c.replica? name node)
      (habove : (c.entries[name]?).elim 0 (·.generation) < entry.generation)

theorem replica?_insert {entries : ByteMap CatalogEntry} :
    { c with deploymentReplicas := c.deploymentReplicas.insert name entries }.replica?
      other node = if name = other then entries[node]? else c.replica? other node :=
  replicaOf_insert

/-- A record of a publication that keeps its generation leaves the generations alone. -/
theorem regenerates_of_record {byNode : ByteMap CatalogEntry}
    {entry entry' : CatalogEntry} (hbyNode : c.deploymentReplicas[other]? = some byNode)
    (hent : byNode[node]? = some entry) (hsame : entry'.generation = entry.generation) :
    Regenerates c opcode bytes name { c with
      deploymentReplicas := c.deploymentReplicas.insert other (byNode.insert node entry') } := by
  refine .same rfl fun target => ?_
  rw [replica?_insert]
  split
  · rename_i hname
    subst hname
    have hold : c.replica? other target = byNode[target]? := by
      simp [replica?, replicaOf, hbyNode]
    rw [hold, getElem?_insert_byteMap]
    split
    · rename_i htgt
      simp [← htgt, hent, hsame]
    · rfl
  · rfl

theorem map_generation_modify {f : CatalogEntry → CatalogEntry}
    (hf : ∀ entry, (f entry).generation = entry.generation) :
    ((c.entries.modify other f)[name]?).map (·.generation) = (c.entries[name]?).map (·.generation) := by
  rw [getElem?_modify_byteMap]
  split
  · rename_i hname
    subst hname
    cases c.entries[other]? with
    | none => rfl
    | some => simp [hf]
  · rfl

variable {replicas : ByteMap (ByteMap CatalogEntry)}

theorem map_generation_foldl_retireReplicas (names : List Bytes) :
    (replicaOf (names.foldl retireReplicas replicas) name node).map (·.generation) =
      (replicaOf replicas name node).map (·.generation) := by
  rw [replicaOf_foldl_retireReplicas, map_map]
  congr 1
  funext entry
  split <;> rfl

theorem map_generation_retireReplicas :
    (replicaOf (retireReplicas replicas other) name node).map (·.generation) =
      (replicaOf replicas name node).map (·.generation) :=
  map_generation_foldl_retireReplicas [other]

theorem Change.regenerates (h : Change trust c opcode bytes c') (name : Bytes) :
    Regenerates c opcode bytes name c' := by
  cases h with
  | reserve _ =>
    refine .same rfl fun node => ?_
    rw [replica?_insert]
    split
    · rename_i hname
      rw [hname, getD_getElem?]
      rfl
    · rfl
  | @registerReplica other node key generation deployment _ _ _ _ hab hnew =>
    by_cases hname : other = name
    · subst hname
      refine .replica rfl (fun target => ?_ : ∀ target, _ = if node = target then
        some (⟨node, generation, false, deployment.generation⟩ : CatalogEntry) else _) hab hnew
      rw [replica?_insert, if_pos rfl, getElem?_insert_byteMap, getD_getElem?]
      rfl
    · refine .same rfl fun target => ?_
      rw [replica?_insert, if_neg hname]
  | @registerOrdinary other node rest rest' generation hop hname hnode hend hgen =>
    by_cases hoth : other = name
    · subst hoth
      have hent : (c.entries.insert other ⟨node, generation, false, 0⟩)[other]? =
          some ⟨node, generation, false, 0⟩ := getElem?_insert_byteMap.trans (if_pos rfl)
      refine .ordinary hop hname hnode hend hent (fun _ => rfl) ?_
      rw [hgen]
      cases c.entries[other]? with
      | none => exact Nat.one_pos
      | some => exact Nat.lt_succ_self _
    · refine .same ?_ fun _ => rfl
      rw [getElem?_insert_byteMap, if_neg hoth]
  | unregister =>
    exact .same (map_generation_modify fun _ => rfl) fun _ => map_generation_retireReplicas
  | activateOrdinary | unregisterOrdinary =>
    exact .same (map_generation_modify fun _ => rfl) fun _ => rfl
  | activateReplica _ hbyNode hent => exact regenerates_of_record hbyNode hent rfl
  | unregisterReplica hbyNode hent => exact regenerates_of_record hbyNode hent rfl
  | deploy | reassign => exact .same rfl fun _ => map_generation_retireReplicas
  | release => exact .same rfl fun _ => map_generation_foldl_retireReplicas _
  | _ => exact .same rfl fun _ => rfl

variable {generation : ℕ}

theorem Regenerates.reaches
    (h : Regenerates c opcode bytes name c') (hrch : c.Reaches name generation) :
    c'.Reaches name generation := by
  cases h with
  | same hord hreps =>
    obtain ⟨_, hent, hle⟩ | ⟨node, _, hent, hle⟩ := hrch
    · rw [hent] at hord
      obtain ⟨entry', hent', hsame⟩ := map_eq_some_iff.mp hord
      exact .inl ⟨entry', hent', hsame ▸ hle⟩
    · have hnode := hreps node
      rw [hent] at hnode
      obtain ⟨entry', hent', hsame⟩ := map_eq_some_iff.mp hnode
      exact .inr ⟨node, entry', hent', hsame ▸ hle⟩
  | @replica node entry hord hreps hab hnew =>
    refine .inr ⟨node, entry, by rw [hreps, if_pos rfl], ?_⟩
    obtain ⟨old, hold, hle⟩ | ⟨other, old, hold, hle⟩ := hrch
    · exact hle.trans (hab old hold).le
    · exact hle.trans (hnew other old hold).le
  | ordinary _ _ _ _ hord hreps hab =>
    obtain ⟨old, hold, hle⟩ | ⟨other, old, hold, hle⟩ := hrch
    · rw [hold] at hab
      exact .inl ⟨_, hord, hle.trans hab.le⟩
    · exact .inr ⟨other, old, by rw [hreps, hold], hle⟩

theorem Regenerates.distinct (h : Regenerates c opcode bytes name c')
    (hord : opcode = .register → c.OrdinaryNotOvertaken (0x01 :: bytes))
    (hdis : c.Distinct name) : c'.Distinct name := by
  cases h with
  | same hents hreps =>
    have hback : ∀ {node replica}, c'.replica? name node = some replica →
        ∃ old, c.replica? name node = some old ∧ old.generation = replica.generation := by
      intro node replica hrep
      have hnode := hreps node
      rw [hrep] at hnode
      exact map_eq_some_iff.mp hnode.symm
    constructor
    · intro entry node replica hent hrep
      rw [hent] at hents
      obtain ⟨_, hold, hsame⟩ := map_eq_some_iff.mp hents.symm
      obtain ⟨_, holdReplica, hsameReplica⟩ := hback hrep
      have hne := hdis.ordinary hold holdReplica
      rw [hsameReplica] at hne
      exact fun heq => hne (hsame.trans heq)
    · intro node node' replica replica' hrep hrep' heq
      obtain ⟨_, hold, hsame⟩ := hback hrep
      obtain ⟨_, hold', hsame'⟩ := hback hrep'
      exact hdis.replicas hold hold' (by rw [hsame, hsame', heq])
  | replica hents hreps hab hnew =>
    constructor
    · intro entry node replica hent hrep
      rw [hents] at hent
      rw [hreps] at hrep
      split at hrep
      · cases hrep
        exact (hab entry hent).ne
      · exact hdis.ordinary hent hrep
    · intro node node' replica replica' hrep hrep' heq
      rw [hreps] at hrep hrep'
      split at hrep <;> split at hrep'
      · rename_i hnode hnode'
        exact hnode.symm.trans hnode'
      · cases hrep
        exact absurd heq (hnew _ _ hrep').ne'
      · cases hrep'
        exact absurd heq (hnew _ _ hrep).ne
      · exact hdis.replicas hrep hrep' heq
  | @ordinary node rest rest' entry hop hname hnode hend hents hreps hab =>
    constructor
    · intro entry' other replica hent hrep
      rw [hents] at hent
      cases hent
      rw [hreps] at hrep
      exact (lt_of_le_of_lt ((hord hop).le hname hnode hend hrep) hab).ne'
    · intro node node' replica replica' hrep hrep' heq
      rw [hreps] at hrep hrep'
      exact hdis.replicas hrep hrep' heq

variable {command : Bytes}

theorem registers_cases (h : c.Registers trust term command name generation) :
    (c.applyCommand trust term command).1.Reaches name generation ∧
      (c.OrdinaryNotOvertaken command → ∀ bound, c.Reaches name bound → bound < generation) := by
  obtain ⟨⟨bytes, _, rfl, hname⟩, hpos, hlt, hrpl⟩ := h
  have hlt : generation < 256 ^ 8 := hlt
  have hop : c.applyOpcode trust term .register bytes = c.applyRegister bytes := rfl
  simp only [applyCommand, show Opcode.ofByte 1 = some .register from rfl, hop] at hrpl ⊢
  cases hap : c.applyRegister bytes with
  | error =>
    rw [hap] at hrpl
    obtain hemp | hzero := applyRegister_error hap
    · exact absurd (congrArg List.length (hemp.symm.trans hrpl)) (by simp)
    · exact absurd (leBytes_injOn (by decide) hlt (hzero.symm.trans hrpl)) hpos.ne
  | ok result =>
    obtain ⟨_, _⟩ := result
    rw [hap] at hrpl
    obtain ⟨_, node, _, _, deploymentGeneration, hname', hnode, hend, hregi⟩ := applyRegister_ok hap
    cases hname.symm.trans hname'
    split at hregi
    · obtain ⟨-, hzero⟩ | ⟨_, generation', deployment, -, -, -, -, hbd, hord, hrep, -,
        rfl, hvl⟩ := registerReplica_ok hregi
      · exact absurd (leBytes_injOn (by decide) hlt (hzero.symm.trans hrpl)) hpos.ne
      · have hsame := leBytes_injOn (lt_of_le_maxGeneration hbd) hlt (hvl.symm.trans hrpl)
        subst hsame
        refine ⟨.inr ⟨node, ⟨node, generation', false, deployment.generation⟩, ?_, le_refl _⟩, ?_⟩
        · rw [replica?_insert, if_pos rfl, getElem?_insert_byteMap, if_pos rfl]
        · rintro - _ (⟨old, hold, hle⟩ | ⟨other, old, hold, hle⟩)
          · exact lt_of_le_of_lt hle (hord old hold)
          · exact lt_of_le_of_lt hle (hrep other old hold)
    · rename_i hzero
      have hzero : deploymentGeneration = 0 := by simpa using hzero
      subst hzero
      obtain ⟨generation', hgen, hbd, rfl, hvl⟩ := registerOrdinary_ok hregi
      have hsame := leBytes_injOn (lt_of_le_maxGeneration hbd) hlt (hvl.symm.trans hrpl)
      subst hsame
      refine ⟨.inl ⟨⟨node, generation', false, 0⟩, ?_, le_refl _⟩, fun hlast bound hrch => ?_⟩
      · exact getElem?_insert_byteMap.trans (if_pos rfl)
      · have hab : (c.entries[name]?).elim 0 (·.generation) < generation' := by
          rw [hgen]
          cases c.entries[name]? with
          | none => exact Nat.one_pos
          | some => exact Nat.lt_succ_self _
        obtain ⟨_, hold, hle⟩ | ⟨_, _, hold, hle⟩ := hrch
        · rw [hold] at hab
          exact lt_of_le_of_lt hle hab
        · exact lt_of_le_of_lt (hle.trans (hlast.le hname hnode hend hold)) hab

theorem opcode_register {byte : UInt8} (h : Opcode.ofByte byte = some .register) : byte = 0x01 := by
  unfold Opcode.ofByte at h
  split at h
  · rename_i hbyte
    exact UInt8.toNat_inj.mp hbyte
  all_goals exact absurd h (by simp)

theorem reaches_applyCommand (h : c.Reaches name generation) :
    (c.applyCommand trust term command).1.Reaches name generation :=
  applyCommand_induction (·.Reaches name generation) h fun _ _ hch =>
    (hch.regenerates name).reaches h

theorem distinct_applyCommand (hlast : c.OrdinaryNotOvertaken command)
    (h : c.Distinct name) : (c.applyCommand trust term command).1.Distinct name := by
  refine applyCommand_induction (·.Distinct name) h fun hcmd hop hch => ?_
  refine (hch.regenerates name).distinct (fun hregi => ?_) h
  subst hregi
  rw [hcmd, opcode_register hop] at hlast
  exact hlast

/-- A run in which no ordinary registration comes while a publication of its name is newer
gives each registration of a name a generation above all earlier ones, and keeps the
generations of a name apart. -/
theorem generations_increase (trust : Trust) (commands : List (ℕ × Bytes))
    (hlast : ∀ k, (hk : k < commands.length) →
      (run trust (commands.take k)).OrdinaryNotOvertaken commands[k].2) :
    (∀ i j term term' command command' name generation generation', i < j →
      commands[i]? = some (term, command) → commands[j]? = some (term', command') →
      (run trust (commands.take i)).Registers trust term command name generation →
      (run trust (commands.take j)).Registers trust term' command' name generation' →
      generation < generation') ∧ ∀ k name, (run trust (commands.take k)).Distinct name := by
  have hlast : ∀ k term command, commands[k]? = some (term, command) →
      (run trust (commands.take k)).OrdinaryNotOvertaken command := by
    intro k term command hcmd
    obtain ⟨hk, hvl⟩ := List.getElem?_eq_some_iff.mp hcmd
    have hk := hlast k hk
    rwa [hvl] at hk
  constructor
  · intro i j term term' command command' name generation generation' hij hi hj hfst hsec
    have hrch : (run trust (commands.take j)).Reaches name generation := by
      refine run_induction (·.Reaches name generation) (Nat.succ_le_of_lt hij) ?_
        fun _ _ _ _ _ _ h => reaches_applyCommand h
      rw [run_take_succ hi]
      exact (registers_cases hfst).1
    exact (registers_cases hsec).2 (hlast j term' command' hj) generation hrch
  · intro k name
    refine run_induction (·.Distinct name) (Nat.zero_le k) ?_ fun i term command _ _ hcmd h =>
      distinct_applyCommand (hlast i term command hcmd) h
    exact ⟨fun h => by simp [run, empty] at h, fun h => by simp [run, empty, replica?, replicaOf] at h⟩

end NameCatalog

section Samples

/-- Keys and functions that accept every signature. -/
def openTrust : Trust :=
  { crypto := ⟨fun _ => List.replicate 32 0, fun _ => List.length_replicate, fun _ _ _ => true⟩
    bootstrapDeploymentKey := List.replicate 32 1
    bootstrapOperationsKey := List.replicate 32 1
    clusterId := List.replicate 32 1 }

def webTarget : ExecutionTarget := ⟨.x86_64, 3, 0⟩

/-- The report of node 1, which `assignments_compatible` asks for. -/
def webReport : Bytes :=
  0x0d :: (leBytes 8 1 ++ leBytes 8 1 ++ leBytes 8 1 ++ leBytes 8 10 ++ leBytes 8 10 ++ leBytes 2 0 ++
    webTarget.encode.getD [])

def webDescriptor (sequence : ℕ) : Bytes :=
  Deployment.layout sequence 0 (text "web") .singleton [⟨webTarget, 0, List.replicate 32 7, text "key"⟩]
    (List.replicate 16 0)

/-- Deploy the artifact `web` on node 1. -/
def deployWeb (sequence : ℕ) : Bytes :=
  0x0e :: (leBytes 8 1 ++ leBytes 2 0 ++ lenBytes (webDescriptor sequence))

def webNode : Bytes := text "n:00000001"

/-- An ordinary registration, then a publication of the deployed application. -/
def ordinaryFirst : List (ℕ × Bytes) :=
  [(1, webReport), (1, deployWeb 1), (1, encodeRegister (text "web") webNode 0),
    (1, encodeRegister (text "web") webNode 1)]

/-- The same two registrations the other way round. -/
def replicaFirst : List (ℕ × Bytes) :=
  [(1, webReport), (1, deployWeb 1), (1, encodeRegister (text "web") webNode 1),
    (1, encodeRegister (text "web") webNode 0)]

open NameCatalog

theorem generations_increase_ordinaryFirst : (∀ k, (hk : k < ordinaryFirst.length) →
      (run openTrust (ordinaryFirst.take k)).OrdinaryNotOvertaken ordinaryFirst[k].2) ∧
    ∀ k name, (run openTrust (ordinaryFirst.take k)).Distinct name := by
  have hlast : ∀ k, (hk : k < ordinaryFirst.length) →
      (run openTrust (ordinaryFirst.take k)).OrdinaryNotOvertaken ordinaryFirst[k].2 := by
    decide +kernel
  exact ⟨hlast, (generations_increase openTrust ordinaryFirst hlast).2⟩

/-- Both registrations return generation 1, and the catalog then holds two of that generation. -/
theorem generation_reused_replicaFirst : (run openTrust (replicaFirst.take 2)).Registers openTrust 1
      (encodeRegister (text "web") webNode 1) (text "web") 1 ∧
    (run openTrust (replicaFirst.take 3)).Registers openTrust 1
      (encodeRegister (text "web") webNode 0) (text "web") 1 ∧
    ¬ (run openTrust replicaFirst).Distinct (text "web") := by
  refine ⟨⟨⟨_, _, rfl, rfl⟩, by decide, by decide, by decide +kernel⟩,
    ⟨⟨_, _, rfl, rfl⟩, by decide, by decide, by decide +kernel⟩, fun h => ?_⟩
  have hord : ((run openTrust replicaFirst).entries[text "web"]?).map (·.generation) = some 1 := by
    decide +kernel
  have hrep : ((run openTrust replicaFirst).replica? (text "web") webNode).map (·.generation) =
      some 1 := by
    decide +kernel
  obtain ⟨_, hent, hgen⟩ := map_eq_some_iff.mp hord
  obtain ⟨_, hrep, hgen'⟩ := map_eq_some_iff.mp hrep
  exact h.ordinary hent hrep (hgen.trans hgen'.symm)

end Samples

end Charlotte.Catalog
