import Charlotte.Catalog.Changes

/-!
# What a release plan writes

One lemma for each planning function: which record it writes for a key, and how
that record relates to the one it replaces.
-/

namespace Charlotte.Catalog

open Lib Launch Launch.ReleaseAdmission List Option Deployment Bool
open Std (ExtTreeMap)

/-- A deployment record that may stand where `current` stood: the same one, or one of a
later generation for the same descriptor or for one with a higher sequence. -/
def DeploymentEntry.Follows (next current : DeploymentEntry) : Prop :=
  next = current ∨ (current.generation < next.generation ∧ (next.descriptor = current.descriptor ∨
      ∃ previous signed, decode current.descriptor = some previous ∧
        decode next.descriptor = some signed ∧ previous.sequence < signed.sequence))

/-- A release record that may stand where `current` stood. The bundle of a stored release
can be replaced without a new generation. -/
def ReleaseEntry.Follows (next current : ReleaseEntry) : Prop :=
  (next.generation = current.generation ∧ next.envelope = current.envelope) ∨
    (current.generation < next.generation ∧
      ∃ previous signed, Release.decode current.envelope = some previous ∧
        Release.decode next.envelope = some signed ∧ previous.sequence < signed.sequence)

/-- The binding without the bookkeeping of the catalog. -/
def OperationalBindingEntry.signed (entry : OperationalBindingEntry) : OperationalBindingEntry :=
  { entry with generation := 0, active := false, bundleSequence := 0, bundleDigest := [] }

variable {binding : CompactOperationalBinding}

theorem OperationalBindingEntry.signed_of_repeats {entry : OperationalBindingEntry}
    {releaseName releaseDigest : Bytes}
    (h : entry.repeats releaseName releaseDigest binding = true) (generation : ℕ)
    (operations : CompactOperationalSet) :
    (binding.entry generation releaseName releaseDigest operations).signed = entry.signed := by
  simp only [repeats, and_eq_true, beq_iff_eq] at h
  obtain ⟨⟨⟨⟨⟨⟨⟨⟨⟨⟨rfl, rfl⟩, h₁⟩, h₂⟩, h₃⟩, h₄⟩, h₅⟩, h₆⟩, h₇⟩, h₈⟩, h₉⟩ := h
  simp only [signed, CompactOperationalBinding.entry, h₁, h₂, h₃, h₄, h₅, h₆, h₇, h₈, h₉]

namespace NameCatalog

variable {trust : Trust} {c : NameCatalog}

theorem checkSequence_ok {sequence : ℕ} {descriptor : Bytes} {current : DeploymentEntry}
    (h : checkSequence sequence descriptor (some current) = .ok ()) :
    ∃ previous, decode current.descriptor = some previous ∧ (previous.sequence < sequence ∨
        previous.sequence = sequence ∧ current.descriptor = descriptor) := by
  simp only [checkSequence, bind_eq_ok, orReply_eq_ok, refuse_eq_ok] at h
  obtain ⟨previous, hprev, -, hstl, hcfl⟩ := h
  refine ⟨previous, hprev, ?_⟩
  simp only [decide_eq_false_iff_not, not_lt] at hstl
  rcases hstl.lt_or_eq with hlt | heq
  · exact .inl hlt
  · refine .inr ⟨heq, ?_⟩
    simpa [heq] using hcfl

variable {bytes : Bytes}

theorem planDeployment_ok {artifact : Bytes} {assignment : Assignment} {next : DeploymentEntry}
    (h : c.planDeployment bytes assignment = .ok (artifact, next)) :
    ∃ signed, decode bytes = some signed ∧ artifact = signed.artifactName ∧
      next.descriptor = bytes ∧ ∀ current, c.deployments[artifact]? = some current →
        next = current ∨ (current.generation < next.generation ∧
          ∃ previous, decode current.descriptor = some previous ∧
            previous.sequence < signed.sequence) := by
  simp only [planDeployment, bind_eq_ok, orReply_eq_ok, refuse_eq_ok] at h
  obtain ⟨signed, hsgn, -, -, -, -, h⟩ := h
  refine ⟨signed, hsgn, ?_⟩
  split at h
  · rename_i hnone
    cases h
    exact ⟨rfl, rfl, fun current hcur => by rw [hnone] at hcur; cases hcur⟩
  rename_i hcur
  simp only [bind_eq_ok, orReply_eq_ok] at h
  obtain ⟨⟨⟩, hck, previous, hprev, h⟩ := h
  obtain ⟨_, hprev', horder⟩ := checkSequence_ok hck
  cases hprev.symm.trans hprev'
  split at h
  · rename_i hsame
    cases h
    refine ⟨rfl, rfl, fun current' hcur' => .inl ?_⟩
    cases hcur.symm.trans hcur'
    have hsame : signed.sequence = previous.sequence := by simpa using hsame
    rcases horder with _ | ⟨-, hdesc⟩
    · omega
    · rw [← hdesc]
  · rename_i hoth
    simp only [bind_eq_ok, orReply_eq_ok] at h
    obtain ⟨_, hgen, h⟩ := h
    cases h
    refine ⟨rfl, rfl, fun current' hcur' => .inr ?_⟩
    cases hcur.symm.trans hcur'
    have hnext := lt_of_checkedSucc (bounded_eq_some.mp hgen).1
    have hoth : signed.sequence ≠ previous.sequence := by simpa using hoth
    refine ⟨by simp only [hnext]; omega, previous, hprev, ?_⟩
    rcases horder with hlt | ⟨heq, -⟩
    · exact hlt
    · exact absurd heq.symm hoth

variable {releaseName releaseDigest : Bytes} {operations : CompactOperationalSet}

theorem planBinding_ok {profile : Bytes} {next : OperationalBindingEntry}
    (h : c.planBinding releaseName releaseDigest operations binding = .ok (profile, next)) :
    profile = binding.profileName ∧
      next = binding.entry next.generation releaseName releaseDigest operations ∧
      ∀ current, c.operationalBindings[profile]? = some current →
        (current.active = true → current.releaseName = releaseName) ∧
        ((current.repeats releaseName releaseDigest binding = true ∧
            next.generation = current.generation) ∨
          (current.sequence < binding.sequence ∧ next.generation = current.generation + 1)) := by
  simp only [planBinding, bind_eq_ok, orReply_eq_ok, refuse_eq_ok] at h
  obtain ⟨-, hown, -, hstl, -, hcfl, _, hgen, h⟩ := h
  cases h
  refine ⟨rfl, rfl, fun current hcur => ?_⟩
  rw [hcur] at hown hstl hcfl hgen
  simp only [any_some, and_eq_false_iff, bne_eq_false_iff_eq, decide_eq_false_iff_not,
    not_lt, beq_eq_false_iff_ne, not_eq_false'] at hown hstl hcfl
  refine ⟨fun hact => hown.resolve_left (by simp [hact]), ?_⟩
  obtain ⟨hvl, -⟩ := bounded_eq_some.mp hgen
  cases hrpt : current.repeats releaseName releaseDigest binding with
  | true =>
    simp only [any_some, hrpt, if_true, map_some, some.injEq] at hvl
    exact .inl ⟨rfl, hvl.symm⟩
  | false =>
    simp only [any_some, hrpt, false_eq_true, if_false, map_some] at hvl
    have hnext := nextGeneration_eq_some hvl
    have hne : binding.sequence ≠ current.sequence := hcfl.resolve_right (by simp [hrpt])
    exact .inr ⟨lt_of_le_of_ne hstl (Ne.symm hne), hnext⟩

variable {tail : Option CompactOperationalSet} {records : List (Bytes × OperationalBindingEntry)}

theorem planBindings_ok (h : c.planBindings releaseName releaseDigest tail = .ok records) :
    ∀ record ∈ records, ∃ operations ∈ tail, ∃ binding ∈ operations.bindings,
      c.planBinding releaseName releaseDigest operations binding = .ok record := by
  cases tail with
  | none =>
    cases h
    simp
  | some operations =>
    intro record hrec
    obtain ⟨binding, hbd, hplan⟩ := exists_of_mem_right (forall₂_of_mapM h) hrec
    exact ⟨operations, rfl, binding, hbd, hplan⟩

/-- The names of the planned bindings are the bundle's profile names. -/
theorem keys_planBindings
    (h : c.planBindings releaseName releaseDigest (some operations) = .ok records) :
    records.map Prod.fst = operations.bindings.map (·.profileName) :=
  map_eq_of_forall₂ (forall₂_of_mapM h) fun hplan => (planBinding_ok hplan).1

theorem planRetirement_ok {record next : Bytes × OperationalBindingEntry}
    (h : planRetirement record = .ok next) :
    next = (record.1, { record.2 with generation := record.2.generation + 1, active := false }) := by
  obtain ⟨_, hgen, hpure⟩ := bind_eq_ok.mp h
  rw [← outcome_pure_ok.mp hpure, lt_of_checkedSucc (orReply_eq_ok.mp hgen)]

/-- The retirement of an active binding of the release that the bundle does not keep. -/
theorem planRetirements_ok {retained : List Bytes}
    (h : c.planRetirements releaseName retained true = .ok records) :
    (∀ record ∈ records, ∃ current, c.operationalBindings[record.1]? = some current ∧
      current.active = true ∧ current.releaseName = releaseName ∧ record.1 ∉ retained ∧
      record.2 = { current with generation := current.generation + 1, active := false }) ∧
    (∀ name current, c.operationalBindings[name]? = some current → current.active = true →
      current.releaseName = releaseName → name ∉ retained → name ∈ records.map Prod.fst) ∧
    (records.map Prod.fst).Nodup := by
  have hall := forall₂_of_mapM h
  refine ⟨?_, ?_, ?_⟩
  · intro record hmem
    obtain ⟨⟨_, current⟩, hcur, hplan⟩ := exists_of_mem_right hall hmem
    rw [mem_filter] at hcur
    have hrow := planRetirement_ok hplan
    subst hrow
    simp only [and_eq_true, beq_iff_eq, not_eq_true', contains_eq_mem,
      decide_eq_false_iff_not] at hcur
    exact ⟨current, ExtTreeMap.mem_toList_iff_getElem?_eq_some.mp hcur.1, hcur.2.1.1,
      hcur.2.1.2, hcur.2.2, rfl⟩
  · intro name current hcur hact hname hnot
    have hmem := ExtTreeMap.mem_toList_iff_getElem?_eq_some.mpr hcur
    obtain ⟨record, hreco, hplan⟩ := exists_of_mem_left hall
      (mem_filter.mpr ⟨hmem, by simp [hact, hname, hnot]⟩)
    have hrow := planRetirement_ok hplan
    exact mem_map.mpr ⟨record, hreco, by rw [hrow]⟩
  · rw [map_eq_of_forall₂ hall fun hplan => congrArg Prod.fst (planRetirement_ok hplan)]
    exact (nodup_keys_toList c.operationalBindings).sublist (filter_sublist.map _)

/-- A bundle that parses names each profile once, and artifacts of its release. -/
theorem parseOperationalTail_ok {release : ReleaseEnvelope}
    (h : parseOperationalTail release bytes = some (some operations)) :
    (operations.bindings.map (·.profileName)).Nodup ∧
      ∀ binding ∈ operations.bindings, release.containsArtifact binding.targetArtifact = true := by
  unfold parseOperationalTail at h
  split at h
  · cases h
  simp only [bind_eq_bind, bind_eq_some_iff, reject_eq_some] at h
  obtain ⟨⟨_, _⟩, -, ⟨_, _⟩, -, ⟨_, _⟩, -, -, -, ⟨_, _⟩, -,
    -, hformed, -, hnd, -, -, h⟩ := h
  cases some.inj h
  simp only [or_eq_false_iff, not_eq_false', decide_eq_true_eq] at hnd
  refine ⟨hnd.1.2, fun binding hbd => ?_⟩
  have hwell := any_eq_false.mp hformed binding hbd
  simp only [not_eq_true', not_eq_false, CompactOperationalBinding.wellFormed,
    and_eq_true] at hwell
  exact hwell.1.1.1.1.1.1.2

variable {envelope : ReleaseEnvelope} {assignments : List Assignment}

/-- A release command that is read names a decoded envelope, an assignment for each of its
descriptors, and a bundle of the release. -/
theorem readRelease_ok {replicated : Bool}
    (h : c.readRelease trust replicated bytes = .ok (envelope, assignments, tail)) :
    Release.decode envelope.bytes = some envelope ∧ assignments.length = envelope.descriptors.length ∧
      ∀ operations ∈ tail, (operations.bindings.map (·.profileName)).Nodup ∧
        ∀ binding ∈ operations.bindings, envelope.containsArtifact binding.targetArtifact = true := by
  simp only [readRelease, bind_eq_ok, orReply_eq_ok, refuse_eq_ok] at h
  obtain ⟨⟨envelopeBytes, _⟩, -, ⟨count, _⟩, -, ⟨_, _⟩, hasg, -, -, envelope',
    hdec, -, hcnt, ⟨⟩, -, tail', htail, h⟩ := h
  obtain ⟨rfl, hpair⟩ := Prod.mk.inj (outcome_pure_ok.mp h)
  obtain ⟨rfl, rfl⟩ := Prod.mk.inj hpair
  have hbs : envelope'.bytes = envelopeBytes := (Release.decode_spec hdec).1
  refine ⟨hbs ▸ hdec, ?_, ?_⟩
  · have hcnt : count = envelope'.descriptors.length := by simpa using hcnt
    exact (length_of_takeMany hasg).trans hcnt
  · rintro _ rfl
    exact parseOperationalTail_ok htail

/-- What is planned for a release. -/
structure Planned (trust : Trust) (c : NameCatalog) (envelope : ReleaseEnvelope)
    (assignments : List Assignment) (tail : Option CompactOperationalSet) (plan : Plan) : Prop where
  deployments : Forall₂ (fun pair record => c.planDeployment pair.1 pair.2 = .ok record)
    (envelope.descriptors.zip assignments) plan.deployments
  bindings : c.planBindings envelope.releaseName (trust.crypto.digest envelope.bytes) tail =
    .ok plan.bindings
  retirements : c.planRetirements envelope.releaseName (plan.bindings.map Prod.fst) true =
    .ok plan.retirements
  releaseName : plan.releaseName = envelope.releaseName
  bytes : plan.release.envelope = envelope.bytes
  follows : ∀ current, c.releases[envelope.releaseName]? = some current →
    plan.release.Follows current

/-- The generation of a release, and what it says of the stored one. -/
theorem nextRelease_ok {current : ReleaseEntry} {generation : ℕ}
    {exact' : Bool} (h : nextRelease envelope (some current) = .ok (generation, exact')) :
    (generation = current.generation ∧ current.envelope = envelope.bytes) ∨
      (generation = current.generation + 1 ∧ ∃ previous,
        Release.decode current.envelope = some previous ∧ previous.sequence < envelope.sequence) := by
  simp only [nextRelease, releaseGeneration, bind_eq_ok, orReply_eq_ok, refuse_eq_ok] at h
  obtain ⟨⟨_, _⟩, ⟨previous, hprev, -, hstl, hnext⟩, _, hboun, h⟩ := h
  cases h
  have hvl := (bounded_eq_some.mp hboun).1
  simp only [decide_eq_false_iff_not, not_lt] at hstl
  split at hnext
  · simp only [bind_eq_ok, refuse_eq_ok] at hnext
    obtain ⟨-, hsame, hnext⟩ := hnext
    cases hnext
    exact .inl ⟨(some.inj hvl).symm, by simpa using hsame⟩
  · rename_i hoth
    cases hnext
    have hoth : envelope.sequence ≠ previous.sequence := by simpa using hoth
    exact .inr ⟨lt_of_checkedSucc hvl, previous, hprev, by omega⟩

theorem planRelease_ok {plan : Plan} {replicated : Bool}
    (hread : c.readRelease trust replicated bytes = .ok (envelope, assignments, tail))
    (h : c.planRelease trust envelope assignments tail = .ok plan) :
    Planned trust c envelope assignments tail plan := by
  simp only [planRelease, bind_eq_ok] at h
  obtain ⟨⟨_, exact'⟩, hnext, ⟨⟩, hrepe, _, hdeps, _, hbind,
    retirements, hrets, h⟩ := h
  cases h
  have hchan : (!exact' || tail.isSome) = true := by
    cases tail with
    | some => simp
    | none =>
      simp only [refuseRepeated, refuse_eq_ok] at hrepe
      simp [hrepe]
  rw [hchan] at hrets
  refine ⟨forall₂_of_mapM hdeps, hbind, hrets, rfl, rfl, fun current hcur => ?_⟩
  rw [hcur] at hnext
  obtain ⟨hsame, henv⟩ | ⟨hlat, previous, hprev, hseq⟩ := nextRelease_ok hnext
  · exact .inl ⟨hsame, henv.symm⟩
  · exact .inr ⟨by simp only [hlat]; omega, previous, envelope, hprev, (readRelease_ok hread).1, hseq⟩

/-- The artifact a descriptor is for. -/
def artifactOf (bytes : Bytes) : Bytes := ((decode bytes).map (·.artifactName)).getD []

namespace Planned

variable {envelope : ReleaseEnvelope} {assignments : List Assignment}
  {tail : Option CompactOperationalSet} {plan : Plan} {replicated : Bool}
  (h : Planned trust c envelope assignments tail plan)
  (hread : c.readRelease trust replicated bytes = .ok (envelope, assignments, tail))

include h hread

/-- The planned deployments are those of the envelope's descriptors. -/
theorem keys_deployments : plan.deployments.map Prod.fst = envelope.descriptors.map artifactOf := by
  have hkeys : plan.deployments.map Prod.fst =
      (envelope.descriptors.zip assignments).map fun pair => artifactOf pair.1 := by
    refine map_eq_of_forall₂ h.deployments fun {pair record} hplan => ?_
    obtain ⟨_, hsgn, hname, -⟩ := planDeployment_ok hplan
    rw [hname, artifactOf, hsgn]
    rfl
  have hfst : (envelope.descriptors.zip assignments).map (artifactOf ∘ Prod.fst) =
      envelope.descriptors.map artifactOf := by
    rw [← List.map_map, List.map_fst_zip (readRelease_ok hread).2.1.ge]
  exact hkeys.trans hfst

theorem nodup_deployments : (plan.deployments.map Prod.fst).Nodup := by
  obtain ⟨-, -, names, hnd, hnms⟩ := Release.decode_spec (readRelease_ok hread).1
  have harti : names.map id = envelope.descriptors.map artifactOf := by
    refine map_eq_of_forall₂ hnms fun {bytes name} ⟨descriptor, hdesc, hname⟩ => ?_
    rw [artifactOf, hdesc, ← hname]
    rfl
  rw [h.keys_deployments hread, ← harti, List.map_id]
  exact hnd

theorem nodup_bindings : ((plan.bindings ++ plan.retirements).map Prod.fst).Nodup := by
  obtain ⟨hret, -, hnd⟩ := planRetirements_ok h.retirements
  rw [map_append, nodup_append]
  refine ⟨?_, hnd, ?_⟩
  · cases tail with
    | none =>
      have hnone : [] = plan.bindings := outcome_pure_ok.mp h.bindings
      rw [← hnone]
      exact nodup_nil
    | some operations =>
      rw [keys_planBindings h.bindings]
      exact ((readRelease_ok hread).2.2 operations rfl).1
  · rintro _ hname _ hoth rfl
    obtain ⟨record, hrec, rfl⟩ := mem_map.mp hoth
    obtain ⟨_, -, -, -, hnot, -⟩ := hret record hrec
    exact hnot hname

end Planned

end NameCatalog

end Charlotte.Catalog
