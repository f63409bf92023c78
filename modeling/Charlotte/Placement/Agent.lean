import Charlotte.Graft.Types
import Charlotte.Lib.SwapRemove

/-!
# The node agent

The loop of `agent.rs`, which starts and retires the workloads of a node. A call to the catalog that
fails is taken for an empty list, or for a deployment that is not there: the agent then stops what it
should keep, and may start beside a connector what the connector replaces. When a launch that failed
is tried again is left open here.
-/

namespace Charlotte.Placement

open Lib (swapRemove swapRemove_subset nodup_swapRemove)
open Graft (Bytes ascii)

structure DeploymentInfo where
  generation : ℕ
  replicaNodes : List ℕ

structure ActiveDeployment where
  name : Bytes
  generation : ℕ
  retiring : Bool := false
  deriving DecidableEq

structure OperationalBinding where
  generation : ℕ
  profileName : Bytes
  targetArtifact : Bytes
  deriving DecidableEq

structure ActiveOperational where
  binding : OperationalBinding
  deploymentGeneration : ℕ
  retiring : Bool := false

/-- The loops of a round: over the deployments and connectors that run, and over the bindings and
names that the catalog lists. -/
inductive Loop
  | active
  | operational
  | bindings
  | names

/-- What one round of `serve` meets. A call to the catalog that fails has no answer; what a loop
meets is given by its turns. -/
structure Round where
  /-- `shutdown_requested`. -/
  shutdown : Bool := false
  /-- `OP_DEPLOY_LIST`. -/
  names : Option (List Bytes)
  /-- `OP_OPERATIONAL_LIST`. -/
  bindings : Option (List OperationalBinding)
  /-- `OP_DEPLOY_QUERY_NAMED`. -/
  query : Loop → ℕ → Option DeploymentInfo
  /-- `poll_retire`. -/
  retired : Loop → ℕ → Bool := fun _ _ => false
  /-- A launch is due and succeeds. -/
  launches : Loop → ℕ → Bool := fun _ _ => true

structure Agent where
  active : List ActiveDeployment
  operational : List ActiveOperational

namespace Agent

variable (me : ℕ) (r : Round) (s : Agent)

/-- The deployment is there, on this node and with this generation. -/
def assigned (generation : ℕ) (answer : Option DeploymentInfo) : Bool :=
  answer.any fun entry => entry.replicaNodes.contains me && entry.generation == generation

def targets (name : Bytes) : Bool := (r.bindings.getD []).any (·.targetArtifact == name)

def markDeployment (turn : ℕ) (running : ActiveDeployment) : ActiveDeployment :=
  let stillDesired := assigned me running.generation (r.query .active turn) && !targets r running.name
  { running with retiring := running.retiring || !stillDesired }

def markOperational (turn : ℕ) (running : ActiveOperational) : ActiveOperational :=
  let bindingMatches := (r.bindings.getD []).contains running.binding
  let deploymentMatches := assigned me running.deploymentGeneration (r.query .operational turn)
  { running with retiring := running.retiring || (!bindingMatches || !deploymentMatches) }

/-- What has retired is taken out with `swap_remove`. -/
def reap {α : Type} (retiring : α → Bool) (retired : ℕ → Bool) : ℕ → ℕ → List α → List α
  | 0, _, items => items
  | turns + 1, index, items =>
    if items[index]?.any retiring && retired turns then
      reap retiring retired turns index (swapRemove items index)
    else reap retiring retired turns (index + 1) items

def launchOperational (s : Agent) (turn : OperationalBinding × ℕ) : Agent :=
  if s.operational.any (fun running =>
      running.binding.profileName == turn.1.profileName && !running.retiring) ||
    s.active.any (·.name == turn.1.targetArtifact) then s
  else
    match r.query .bindings turn.2 with
    | none => s
    | some entry =>
      if !entry.replicaNodes.contains me || !r.launches .bindings turn.2 then s
      else { s with operational := s.operational ++ [⟨turn.1, entry.generation, false⟩] }

def launchDeployment (s : Agent) (turn : Bytes × ℕ) : Agent :=
  if targets r turn.1 || s.active.any (·.name == turn.1) then s
  else
    match r.query .names turn.2 with
    | none => s
    | some entry =>
      if !entry.replicaNodes.contains me || !r.launches .names turn.2 then s
      else { s with active := s.active ++ [⟨turn.1, entry.generation, false⟩] }

/-- A round up to its launches. -/
def retire : Agent where
  active := reap (·.retiring) (r.retired .active) s.active.length 0 (s.active.mapIdx (markDeployment me r))
  operational := reap (·.retiring) (r.retired .operational) s.operational.length 0
    (s.operational.mapIdx (markOperational me r))

/-- A round up to the launches of plain deployments. -/
def connect : Agent := (r.bindings.getD []).zipIdx.foldl (launchOperational me r) (s.retire me r)

def round : Agent := (r.names.getD []).zipIdx.foldl (launchDeployment me r) (s.connect me r)

/-- A condition on the rounds that are reached: a shutdown ends the loop. -/
def Along (P : Agent → Round → Prop) : List Round → Agent → Prop
  | [], _ => True
  | r :: rounds, s => r.shutdown = true ∨ (P s r ∧ Along P rounds (s.round me r))

/-! ### Evidence -/

/-- The answered list of deployments does not have the name. -/
def Unlisted (name : Bytes) : Prop := ∃ names, r.names = some names ∧ name ∉ names

/-- An answer shows that the deployment is no longer assigned. -/
def Unassigned (name : Bytes) (generation : ℕ) (answer : Option DeploymentInfo) : Prop :=
  Unlisted r name ∨ (answer.isSome = true ∧ assigned me generation answer = false)

/-- What the agent does in a round is shown by the answers of that round. -/
structure Evidenced (s : Agent) (r : Round) : Prop where
  deployments : ∀ turn running, s.active[turn]? = some running → running.retiring = false →
    (markDeployment me r turn running).retiring = true →
      Unassigned me r running.name running.generation (r.query .active turn) ∨
      ∃ bindings, r.bindings = some bindings ∧ ∃ binding ∈ bindings, binding.targetArtifact = running.name
  connectors : ∀ turn running, s.operational[turn]? = some running → running.retiring = false →
    (markOperational me r turn running).retiring = true →
      Unassigned me r running.binding.targetArtifact running.deploymentGeneration
        (r.query .operational turn) ∨
      ∃ bindings, r.bindings = some bindings ∧ running.binding ∉ bindings
  launches : ∀ running ∈ (s.round me r).active, running ∈ (s.connect me r).active ∨
    ∃ bindings, r.bindings = some bindings ∧ ∀ binding ∈ bindings, binding.targetArtifact ≠ running.name

/-- The list of bindings is answered, and the query for everything that runs and is listed. -/
structure Answered (s : Agent) (r : Round) : Prop where
  bindings : r.bindings.isSome = true
  deployments : ∀ turn running, s.active[turn]? = some running → running.retiring = false →
    Unlisted r running.name ∨ (r.query .active turn).isSome = true
  connectors : ∀ turn running, s.operational[turn]? = some running → running.retiring = false →
    Unlisted r running.binding.targetArtifact ∨ (r.query .operational turn).isSome = true

variable {me r s}

theorem launched (turns : List (Bytes × ℕ)) {running : ActiveDeployment}
    (h : running ∈ (turns.foldl (launchDeployment me r) s).active) :
    running ∈ s.active ∨ targets r running.name = false := by
  induction turns generalizing s with
  | nil => exact .inl h
  | cons turn turns ih =>
    rcases ih h with h | h
    · unfold launchDeployment at h
      split at h
      · exact .inl h
      · rename_i hfree
        simp only [Bool.or_eq_true, not_or, Bool.not_eq_true] at hfree
        split at h
        · exact .inl h
        · split at h
          · exact .inl h
          · rcases List.mem_append.mp h with h | h
            · exact .inl h
            · cases List.mem_singleton.mp h
              exact .inr hfree.1
    · exact .inr h

theorem Answered.evidenced (h : s.Answered r) : s.Evidenced me r := by
  obtain ⟨bindings, hbs⟩ := Option.isSome_iff_exists.mp h.bindings
  constructor
  · intro turn running hrun hkept hmark
    simp only [markDeployment, hkept, Bool.false_or, Bool.not_and, Bool.not_not, Bool.or_eq_true,
      Bool.not_eq_true', targets, hbs, Option.getD_some, List.any_eq_true, beq_iff_eq] at hmark
    rcases hmark with hgone | hbound
    · exact .inl ((h.deployments turn running hrun hkept).imp_right fun hans => ⟨hans, hgone⟩)
    · exact .inr ⟨bindings, hbs, hbound⟩
  · intro turn running hrun hkept hmark
    simp only [markOperational, hkept, Bool.false_or, Bool.or_eq_true, Bool.not_eq_true', hbs,
      Option.getD_some, List.contains_eq_mem, decide_eq_false_iff_not] at hmark
    rcases hmark with hunbound | hgone
    · exact .inr ⟨bindings, hbs, hunbound⟩
    · exact .inl ((h.connectors turn running hrun hkept).imp_right fun hans => ⟨hans, hgone⟩)
  · intro running hmem
    refine (launched _ hmem).imp_right fun hfree => ⟨bindings, hbs, ?_⟩
    simpa only [targets, hbs, Option.getD_some, List.any_eq_false, beq_iff_eq] using hfree

/-- In every run whose rounds are answered, the agent stops and starts only what the answers show. -/
theorem decisions_evidenced (me : ℕ) (rounds : List Round) (s : Agent)
    (h : Along me Answered rounds s) : Along me (Evidenced me) rounds s := by
  induction rounds generalizing s with
  | nil => trivial
  | cons r rounds ih => exact h.imp_right fun h => ⟨h.1.evidenced, ih _ h.2⟩

/-- A deployment is listed, assigned to node 7 and launched. -/
def launching : Round where
  names := some [ascii "a"]
  bindings := some []
  query loop _ := match loop with
    | .names => some ⟨1, [7]⟩
    | _ => none

/-- The next generation is assigned to another node. -/
def moved : Round := { launching with query := fun _ _ => some ⟨2, [8]⟩ }

theorem decisions_evidenced_moved : Along 7 (Evidenced 7) [launching, moved] ⟨[], []⟩ := by
  refine decisions_evidenced 7 [launching, moved] ⟨[], []⟩ (.inr ⟨⟨rfl, nofun, nofun⟩, .inr ⟨?_, trivial⟩⟩)
  exact ⟨rfl, fun _ _ _ _ => .inr rfl, nofun⟩

/-- The query for it is lost once: it is stopped, although it is listed and nothing has changed. -/
theorem lost_query_retires :
    (round 7 launching (round 7 launching ⟨[], []⟩)).active = [⟨ascii "a", 1, true⟩] ∧
      ¬ Along 7 (Evidenced 7) [launching, launching] ⟨[], []⟩ := by
  refine ⟨by decide, fun h => ?_⟩
  obtain hstop | ⟨-, hstop | ⟨hev, -⟩⟩ := h
  · cases hstop
  · cases hstop
  · rcases hev.deployments 0 ⟨ascii "a", 1, false⟩ rfl rfl rfl with
      (⟨_, hnames, hnot⟩ | ⟨hans, -⟩) | ⟨_, hbs, _, hmem, -⟩
    · cases hnames
      exact hnot List.mem_cons_self
    · cases hans
    · cases hbs
      cases hmem

/-! ### One domain for an artifact and for a profile -/

/-- The domains that have not finished retirement have different artifacts, and the connectors among
them have different profiles. -/
structure Single (s : Agent) : Prop where
  deployments : (s.active.map (·.name)).Nodup
  connectors : (s.operational.map (·.binding.targetArtifact)).Nodup
  apart : ∀ running ∈ s.active, ∀ connector ∈ s.operational,
    connector.binding.targetArtifact ≠ running.name
  profiles : (s.operational.map (·.binding.profileName)).Nodup

/-- A condition on every state of a round: between its loops, and between two launches. -/
structure EveryMoment (me : ℕ) (P : Agent → Prop) (s : Agent) (r : Round) : Prop where
  start : P s
  bindings : ∀ k, P (((r.bindings.getD []).zipIdx.take k).foldl (launchOperational me r) (s.retire me r))
  names : ∀ k, P (((r.names.getD []).zipIdx.take k).foldl (launchDeployment me r) (s.connect me r))

/-- What the round lists is not of the artifact or the profile of the connector. -/
structure Unrelated (r : Round) (connector : ActiveOperational) : Prop where
  bindings : ∀ binding ∈ r.bindings.getD [],
    binding.targetArtifact ≠ connector.binding.targetArtifact ∧
      binding.profileName ≠ connector.binding.profileName
  names : connector.binding.targetArtifact ∉ r.names.getD []

/-- An artifact is listed for one profile, and a connector that is still retiring is not related to
what is listed. -/
structure Clear (me : ℕ) (s : Agent) (r : Round) : Prop where
  profiles : ∀ binding ∈ r.bindings.getD [], ∀ other ∈ r.bindings.getD [],
    binding.targetArtifact = other.targetArtifact → binding.profileName = other.profileName
  retiring : ∀ connector ∈ (s.retire me r).operational, connector.retiring = true →
    Unrelated r connector

/-- Every connector is listed or not related to what is listed. -/
def Vouched (r : Round) (s : Agent) : Prop := ∀ connector ∈ s.operational, Unrelated r connector ∨
  connector.retiring = false ∧ connector.binding ∈ r.bindings.getD []

section Lists

variable {α β : Type} {retiring : α → Bool} {retired : ℕ → Bool} {items : List α} {f : α → β}

theorem nodup_map_concat (h : (items.map f).Nodup) {new : α} (hnew : ∀ item ∈ items, f item ≠ f new) :
    ((items ++ [new]).map f).Nodup := by
  rw [List.map_append]
  refine h.append (List.nodup_singleton _) (List.disjoint_singleton.mpr ?_)
  simpa using hnew

theorem reap_subset (turns index : ℕ) : reap retiring retired turns index items ⊆ items := by
  induction turns generalizing index items with
  | zero => exact List.Subset.refl items
  | succ turns ih =>
    unfold reap
    split
    · exact List.Subset.trans (ih index) swapRemove_subset
    · exact ih (index + 1)

theorem nodup_reap (h : (items.map f).Nodup) (turns index : ℕ) :
    ((reap retiring retired turns index items).map f).Nodup := by
  induction turns generalizing index items with
  | zero => exact h
  | succ turns ih =>
    unfold reap
    split
    · exact ih (nodup_swapRemove h) index
    · exact ih h (index + 1)

variable {mark : ℕ → α → α} {turns index : ℕ}

theorem mem_reap_mark {item : α} (h : item ∈ reap retiring retired turns index (items.mapIdx mark)) :
    ∃ i, ∃ old ∈ items, mark i old = item := by
  obtain ⟨i, hi, rfl⟩ := List.mem_mapIdx.mp (reap_subset turns index h)
  exact ⟨i, items[i], List.getElem_mem hi, rfl⟩

theorem nodup_reap_mark (h : (items.map f).Nodup) (hmark : ∀ i item, f (mark i item) = f item) :
    ((reap retiring retired turns index (items.mapIdx mark)).map f).Nodup := by
  have hsame : (items.mapIdx mark).map f = items.map f :=
    List.ext_getElem (by simp) fun i _ _ => by simp [hmark]
  exact nodup_reap (hsame ▸ h) turns index

end Lists

theorem Single.retire (hs : s.Single) : (s.retire me r).Single where
  deployments := nodup_reap_mark hs.deployments fun _ _ => rfl
  connectors := nodup_reap_mark hs.connectors fun _ _ => rfl
  apart running hrun connector hmem := by
    obtain ⟨_, old, hold, rfl⟩ := mem_reap_mark hrun
    obtain ⟨_, old', hold', rfl⟩ := mem_reap_mark hmem
    exact hs.apart old hold old' hold'
  profiles := nodup_reap_mark hs.profiles fun _ _ => rfl

theorem Clear.vouched (hr : s.Clear me r) : Vouched r (s.retire me r) := by
  intro connector hmem
  cases hret : connector.retiring with
  | true => exact .inl (hr.retiring connector hmem hret)
  | false =>
    obtain ⟨_, _, _, rfl⟩ := mem_reap_mark hmem
    simp only [markOperational, Bool.or_eq_false_iff, Bool.not_eq_false', List.contains_eq_mem,
      decide_eq_true_eq] at hret
    exact .inr ⟨rfl, hret.2.1⟩

theorem Single.launchOperational (hr : s.Clear me r) {t : Agent} (ht : t.Single) (hv : Vouched r t)
    {turn : OperationalBinding × ℕ} (hturn : turn.1 ∈ r.bindings.getD []) :
    (launchOperational me r t turn).Single ∧ Vouched r (launchOperational me r t turn) := by
  unfold Agent.launchOperational
  split
  · exact ⟨ht, hv⟩
  rename_i hfree
  simp only [Bool.or_eq_true, List.any_eq_true, Bool.and_eq_true, beq_iff_eq, Bool.not_eq_true', not_or,
    not_exists, not_and] at hfree
  split
  · exact ⟨ht, hv⟩
  split
  · exact ⟨ht, hv⟩
  -- A connector of this artifact or profile is listed and not retiring, and so has this profile.
  have hnew : ∀ connector ∈ t.operational,
      connector.binding.targetArtifact ≠ turn.1.targetArtifact ∧
        connector.binding.profileName ≠ turn.1.profileName := by
    intro connector hmem
    rcases hv connector hmem with hun | ⟨hret, hlist⟩
    · exact ⟨(hun.bindings _ hturn).1.symm, (hun.bindings _ hturn).2.symm⟩
    · have hprof := fun h => hfree.1 connector hmem h hret
      exact ⟨fun h => hprof (hr.profiles _ hlist _ hturn h), hprof⟩
  refine ⟨⟨ht.deployments, nodup_map_concat ht.connectors fun connector hmem => (hnew connector hmem).1,
    fun running hrun connector hmem => ?_, nodup_map_concat ht.profiles fun connector hmem =>
      (hnew connector hmem).2⟩, fun connector hmem => ?_⟩
  · rcases List.mem_append.mp hmem with hmem | hmem
    · exact ht.apart running hrun connector hmem
    · cases List.mem_singleton.mp hmem
      exact fun h => hfree.2 running hrun h.symm
  · rcases List.mem_append.mp hmem with hmem | hmem
    · exact hv connector hmem
    · cases List.mem_singleton.mp hmem
      exact .inr ⟨rfl, hturn⟩

theorem Single.launchDeployment {t : Agent} (ht : t.Single) (hv : Vouched r t) {turn : Bytes × ℕ}
    (hturn : turn.1 ∈ r.names.getD []) :
    (launchDeployment me r t turn).Single ∧ Vouched r (launchDeployment me r t turn) := by
  unfold Agent.launchDeployment
  split
  · exact ⟨ht, hv⟩
  rename_i hfree
  simp only [targets, Bool.or_eq_true, List.any_eq_true, beq_iff_eq, not_or, not_exists, not_and] at hfree
  split
  · exact ⟨ht, hv⟩
  split
  · exact ⟨ht, hv⟩
  refine ⟨⟨nodup_map_concat ht.deployments hfree.2, ht.connectors, fun running hrun connector hmem => ?_,
    ht.profiles⟩, hv⟩
  rcases List.mem_append.mp hrun with hrun | hrun
  · exact ht.apart running hrun connector hmem
  · cases List.mem_singleton.mp hrun
    rcases hv connector hmem with hun | ⟨-, hlist⟩
    · exact fun h => hun.names (h ▸ hturn)
    · exact hfree.1 _ hlist

theorem Single.everyMoment (hs : s.Single) (hr : s.Clear me r) : EveryMoment me Single s r := by
  have hconnect : ∀ turns ⊆ (r.bindings.getD []).zipIdx,
      (turns.foldl (Agent.launchOperational me r) (s.retire me r)).Single ∧
        Vouched r (turns.foldl (Agent.launchOperational me r) (s.retire me r)) := fun turns hsub =>
    List.foldlRecOn (motive := fun t => t.Single ∧ Vouched r t) turns _ ⟨hs.retire, hr.vouched⟩ fun _ ht _ hturn =>
      Single.launchOperational hr ht.1 ht.2 (List.fst_mem_of_mem_zipIdx (hsub hturn))
  refine ⟨hs, fun k => (hconnect _ (List.take_subset k _)).1, fun k => ?_⟩
  exact (List.foldlRecOn (motive := fun t => t.Single ∧ Vouched r t) _ _
    (hconnect _ (List.Subset.refl _)) fun _ ht _ hturn =>
      ht.1.launchDeployment ht.2 (List.fst_mem_of_mem_zipIdx (List.mem_of_mem_take hturn))).1

/-- In every run whose rounds are clear there is one domain for an artifact and for a profile, in
every state of every round. -/
theorem one_domain_at_a_time (me : ℕ) (rounds : List Round) (h : Along me (Clear me) rounds ⟨[], []⟩) :
    Along me (EveryMoment me Single) rounds ⟨[], []⟩ := by
  have hrun : ∀ (rounds : List Round) (s : Agent), s.Single → Along me (Clear me) rounds s →
      Along me (EveryMoment me Single) rounds s := by
    intro rounds
    induction rounds with
    | nil => exact fun _ _ _ => trivial
    | cons r rounds ih =>
      refine fun s hs h => h.imp_right fun h => ?_
      have hround := hs.everyMoment h.1
      have hend := hround.names (r.names.getD []).zipIdx.length
      rw [List.take_length] at hend
      exact ⟨hround, ih _ hend h.2⟩
  exact hrun rounds _ ⟨.nil, .nil, nofun, .nil⟩ h

/-- A connector is bound for one profile, with a new generation in each round. -/
def rebinding (generation : ℕ) : Round where
  names := some []
  bindings := some [⟨generation, ascii "p", ascii "a"⟩]
  query _ _ := some ⟨1, [7]⟩

/-- The connector of the old generation has retired before the new one is launched. -/
theorem one_domain_rebound : Along 7 (EveryMoment 7 Single)
    [rebinding 1, { rebinding 2 with retired := fun _ _ => true }] ⟨[], []⟩ := by
  refine one_domain_at_a_time 7 _ (.inr ⟨⟨?_, nofun⟩, .inr ⟨⟨?_, nofun⟩, trivial⟩⟩)
  all_goals
    rintro _ hmem _ hother -
    rw [List.mem_singleton.mp hmem, List.mem_singleton.mp hother]

/-- The connector of the old generation is still retiring when the new one is launched. -/
theorem rebinding_overlaps : ¬ Along 7 (EveryMoment 7 Single) [rebinding 1, rebinding 2] ⟨[], []⟩ := by
  intro h
  obtain hstop | ⟨-, hstop | ⟨h, -⟩⟩ := h
  · cases hstop
  · cases hstop
  · exact absurd (h.names 0).profiles (by decide)

end Agent

end Charlotte.Placement
