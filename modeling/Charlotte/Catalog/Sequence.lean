import Charlotte.Catalog.Plan

/-!
# Signed records only move forward

Along every run the record of an artifact, a release, a profile, a node's shutdown
or the ingress policy is replaced only by one with a higher signed sequence, or by
one with the same signed content. A replayed older command changes nothing.
-/

namespace Charlotte.Catalog

open Lib Launch Launch.ReleaseAdmission
open Std (ExtTreeMap)

theorem DeploymentEntry.Follows.trans {a b d : DeploymentEntry} (hab : a.Follows b)
    (hbd : b.Follows d) : a.Follows d := by
  rcases hab with rfl | ⟨hgen, hab⟩
  · exact hbd
  rcases hbd with rfl | ⟨hgen', hbd⟩
  · exact .inr ⟨hgen, hab⟩
  refine .inr ⟨hgen'.trans hgen, ?_⟩
  rcases hab with hab | ⟨previous, signed, hprev, hsgn, hlt⟩
  · rw [hab]
    exact hbd
  rcases hbd with hbd | ⟨previous', _, hprev', hsgn', hlt'⟩
  · rw [← hbd]
    exact .inr ⟨previous, signed, hprev, hsgn, hlt⟩
  · cases hprev.symm.trans hsgn'
    exact .inr ⟨previous', signed, hprev', hsgn, hlt'.trans hlt⟩

theorem ReleaseEntry.Follows.trans {a b d : ReleaseEntry} (hab : a.Follows b) (hbd : b.Follows d) :
    a.Follows d := by
  rcases hab with ⟨hgen, henv⟩ | ⟨hgen, previous, signed, hprev, hsgn, hlt⟩
  · unfold Follows at hbd ⊢
    rw [hgen, henv]
    exact hbd
  rcases hbd with ⟨hgen', henv'⟩ | ⟨hgen', previous', signed', hprev', hsgn', hlt'⟩
  · refine .inr ⟨hgen' ▸ hgen, previous, signed, henv' ▸ hprev, hsgn, hlt⟩
  · cases hprev.symm.trans hsgn'
    exact .inr ⟨hgen'.trans hgen, previous', signed, hprev', hsgn, hlt'.trans hlt⟩

/-- A binding that may stand where `current` stood, as far as the operator signed it. -/
def OperationalBindingEntry.Follows (next current : OperationalBindingEntry) : Prop :=
  next.signed = current.signed ∨ current.sequence < next.sequence

theorem OperationalBindingEntry.sequence_of_signed {a b : OperationalBindingEntry}
    (h : a.signed = b.signed) : a.sequence = b.sequence := congrArg (·.sequence) h

theorem OperationalBindingEntry.Follows.trans {a b d : OperationalBindingEntry} (hab : a.Follows b)
    (hbd : b.Follows d) : a.Follows d := by
  rcases hab with hab | hab
  · rcases hbd with hbd | hbd
    · exact .inl (hab.trans hbd)
    · exact .inr (sequence_of_signed hab ▸ hbd)
  · rcases hbd with hbd | hbd
    · exact .inr (sequence_of_signed hbd ▸ hab)
    · exact .inr (hbd.trans hab)

/-- An envelope that may stand where `current` stood, by the sequence that `sequenceOf` reads. -/
def EnvelopeFollows (sequenceOf : Bytes → Option ℕ) (next current : Bytes) : Prop :=
  next = current ∨ ∃ previous sequence, sequenceOf current = some previous ∧
    sequenceOf next = some sequence ∧ previous < sequence

theorem EnvelopeFollows.trans {sequenceOf : Bytes → Option ℕ} {a b d : Bytes}
    (hab : EnvelopeFollows sequenceOf a b) (hbd : EnvelopeFollows sequenceOf b d) :
    EnvelopeFollows sequenceOf a d := by
  rcases hab with rfl | ⟨previous, sequence, hprev, hseq, hlt⟩
  · exact hbd
  rcases hbd with rfl | ⟨previous', _, hprev', hseq', hlt'⟩
  · exact .inr ⟨previous, sequence, hprev, hseq, hlt⟩
  · cases hprev.symm.trans hseq'
    exact .inr ⟨previous', sequence, hprev', hseq, hlt'.trans hlt⟩

def shutdownSequence (envelope : Bytes) : Option ℕ := (Shutdown.decode envelope).map (·.sequence)

def policySequence (envelope : Bytes) : Option ℕ := (IngressPolicy.decode envelope).map (·.sequence)

namespace NameCatalog

variable {trust : Trust} {c c' c'' : NameCatalog} {opcode : Opcode} {bytes : Bytes} {term : ℕ}
  {α : Type} {R : α → α → Prop} {current : α} {m : ByteMap α}

/-- Every signed record of `c` is still there in `c'`, or a record that may follow it. -/
structure Follows (c' c : NameCatalog) : Prop where
  deployments : ∀ {artifact : Bytes} {current : DeploymentEntry}, c.deployments[artifact]? = some current →
    ∃ next, c'.deployments[artifact]? = some next ∧ next.Follows current
  releases : ∀ {name : Bytes} {current : ReleaseEntry}, c.releases[name]? = some current →
    ∃ next, c'.releases[name]? = some next ∧ next.Follows current
  bindings : ∀ {profile : Bytes} {current : OperationalBindingEntry},
    c.operationalBindings[profile]? = some current → ∃ next, c'.operationalBindings[profile]? = some next ∧ next.Follows current
  shutdowns : ∀ {node : ℕ} {current : ShutdownIntentEntry}, c.shutdownIntents[node]? = some current →
    ∃ next, c'.shutdownIntents[node]? = some next ∧
      EnvelopeFollows shutdownSequence next.envelope current.envelope
  policy : ∀ {current : IngressPolicyEntry}, c.ingressPolicy = some current →
    ∃ next, c'.ingressPolicy = some next ∧
      EnvelopeFollows policySequence next.envelope current.envelope

theorem Follows.refl (c : NameCatalog) : c.Follows c :=
  ⟨fun h => ⟨_, h, .inl rfl⟩, fun h => ⟨_, h, .inl ⟨rfl, rfl⟩⟩, fun h => ⟨_, h, .inl rfl⟩,
    fun h => ⟨_, h, .inl rfl⟩, fun h => ⟨_, h, .inl rfl⟩⟩

/-- The record after a record that follows. -/
theorem follows_chain {o o' : Option α} (h : ∃ mid, o = some mid ∧ R mid current)
    (h' : ∀ {mid}, o = some mid → ∃ next, o' = some next ∧ R next mid)
    (htrans : ∀ {a b d}, R a b → R b d → R a d) : ∃ next, o' = some next ∧ R next current := by
  obtain ⟨_, hmid, hfst⟩ := h
  obtain ⟨next, hnext, hsec⟩ := h' hmid
  exact ⟨next, hnext, htrans hsec hfst⟩

theorem Follows.trans (h : c''.Follows c') (h' : c'.Follows c) : c''.Follows c where
  deployments hcur := follows_chain (h'.deployments hcur) h.deployments .trans
  releases hcur := follows_chain (h'.releases hcur) h.releases .trans
  bindings hcur := follows_chain (h'.bindings hcur) h.bindings .trans
  shutdowns hcur := follows_chain (h'.shutdowns hcur) h.shutdowns .trans
  policy hcur := follows_chain (h'.policy hcur) h.policy .trans

/-- A record inserted under a key follows the record of that key, and the others stay. -/
theorem follows_insert {key : Bytes} {value : α}
    (hrefl : ∀ a, R a a) (hvl : ∀ current, m[key]? = some current → R value current)
    {a : Bytes} (hcur : m[a]? = some current) :
    ∃ next, (m.insert key value)[a]? = some next ∧ R next current := by
  rw [getElem?_insert_byteMap]
  split
  · rename_i hkey
    subst hkey
    exact ⟨value, rfl, hvl current hcur⟩
  · exact ⟨current, hcur, hrefl current⟩

theorem follows_insertAll {records : List (Bytes × α)}
    (hnd : (records.map Prod.fst).Nodup) (hrefl : ∀ a, R a a)
    (hreco : ∀ record ∈ records, ∀ current, m[record.1]? = some current → R record.2 current)
    {a : Bytes} (hcur : m[a]? = some current) :
    ∃ next, (insertAll m records)[a]? = some next ∧ R next current := by
  by_cases hmem : a ∈ records.map Prod.fst
  · obtain ⟨⟨key, value⟩, hrec, rfl⟩ := List.mem_map.mp hmem
    exact ⟨value, (getElem?_insertAll hnd).mpr (.inl hrec), hreco (key, value) hrec current hcur⟩
  · exact ⟨current, (getElem?_insertAll hnd).mpr (.inr ⟨hmem, hcur⟩), hrefl current⟩

theorem follows_deploy {signed : DeploymentDescriptor} {entry : DeploymentEntry}
    (hsgn : Deployment.decode entry.descriptor = some signed)
    (hseq : checkSequence signed.sequence entry.descriptor c.deployments[signed.artifactName]? = .ok ())
    (hgen : nextGeneration ((c.deployments[signed.artifactName]?).map (·.generation)) =
      some entry.generation) {current : DeploymentEntry}
    (hcur : c.deployments[signed.artifactName]? = some current) : entry.Follows current := by
  rw [hcur] at hseq hgen
  have hnext : entry.generation = current.generation + 1 := nextGeneration_eq_some hgen
  obtain ⟨previous, hprev, hlt | ⟨-, hsame⟩⟩ := checkSequence_ok hseq
  · exact .inr ⟨by omega, .inr ⟨previous, signed, hprev, hsgn, hlt⟩⟩
  · exact .inr ⟨by omega, .inl hsame.symm⟩

theorem follows_reassign {current : DeploymentEntry} {nodes variants : List ℕ} : ({ current with
        replicaNodes := nodes
        replicaVariants := variants
        generation := current.generation + 1 } : DeploymentEntry).Follows current :=
  .inr ⟨Nat.lt_succ_self _, .inl rfl⟩

theorem Planned.follows_commit {envelope : ReleaseEnvelope} {assignments : List Assignment}
    {tail : Option CompactOperationalSet} {plan : Plan} {replicated : Bool}
    (h : Planned trust c envelope assignments tail plan)
    (hread : c.readRelease trust replicated bytes = .ok (envelope, assignments, tail)) :
    (c.commit plan).Follows c where
  deployments hcur := by
    refine follows_insertAll (h.nodup_deployments hread) (fun _ => .inl rfl) ?_ hcur
    rintro ⟨_, _⟩ hrec current hcur
    obtain ⟨_, -, hplan⟩ := exists_of_mem_right h.deployments hrec
    obtain ⟨signed, hsgn, -, hbs, hnext⟩ := planDeployment_ok hplan
    obtain hsame | ⟨hgen, previous, hprev, hlt⟩ := hnext current hcur
    · exact .inl hsame
    · exact .inr ⟨hgen, .inr ⟨previous, signed, hprev, hbs ▸ hsgn, hlt⟩⟩
  releases hcur :=
    follows_insert (fun _ => .inl ⟨rfl, rfl⟩)
      (fun current hcur => h.follows current (h.releaseName ▸ hcur)) hcur
  bindings hcur := by
    refine follows_insertAll (h.nodup_bindings hread) (fun _ => .inl rfl) ?_ hcur
    rintro ⟨_, _⟩ hrec current hcur
    rcases List.mem_append.mp hrec with hbd | hret
    · obtain ⟨_, -, _, -, hplan⟩ := planBindings_ok h.bindings _ hbd
      obtain ⟨-, hnext, hfol⟩ := planBinding_ok hplan
      rw [hnext]
      obtain ⟨-, ⟨hrpt, -⟩ | ⟨hlt, -⟩⟩ := hfol current hcur
      · exact .inl (OperationalBindingEntry.signed_of_repeats hrpt _ _)
      · exact .inr hlt
    · obtain ⟨_, hcur', -, -, -, hnext⟩ := (planRetirements_ok h.retirements).1 _ hret
      cases hcur.symm.trans hcur'
      exact .inl (by rw [hnext]; rfl)
  shutdowns hcur := ⟨_, hcur, .inl rfl⟩
  policy hcur := ⟨_, hcur, .inl rfl⟩

theorem Change.follows (h : Change trust c opcode bytes c') : c'.Follows c := by
  have hrefl := Follows.refl c
  cases h with
  | deploy hsgn hseq hgen =>
    refine { hrefl with deployments := fun hcur => ?_ }
    exact follows_insert (fun _ => .inl rfl) (fun _ hold => follows_deploy hsgn hseq hgen hold) hcur
  | reassign hold =>
    refine { hrefl with deployments := fun hcur => ?_ }
    refine follows_insert (fun _ => .inl rfl) (fun current hcur => ?_) hcur
    cases hold.symm.trans hcur
    exact follows_reassign
  | release _ hread hplan => exact (planRelease_ok hread hplan).follows_commit hread
  | @shutdown fields entry hfds hseq =>
    refine { hrefl with shutdowns := fun {node current} hcur => ?_ }
    rw [ExtTreeMap.getElem?_insert]
    split
    · rename_i hnode
      have hnode := Std.compare_eq_iff_eq.mp hnode
      subst hnode
      obtain ⟨previous, hprev, hlt⟩ := hseq current hcur
      refine ⟨entry, rfl, .inr ⟨previous.sequence, fields.sequence, ?_, ?_, hlt⟩⟩
      · rw [shutdownSequence, hprev]
        rfl
      · rw [shutdownSequence, hfds]
        rfl
    · exact ⟨current, hcur, .inl rfl⟩
  | @ingressPolicy policy entry hpol hseq =>
    refine { hrefl with policy := fun {current} hcur => ⟨entry, rfl, .inr ?_⟩ }
    obtain ⟨previous, hprev, hlt⟩ := hseq current hcur
    refine ⟨previous.sequence, policy.sequence, ?_, ?_, hlt⟩
    · rw [policySequence, hprev]
      rfl
    · rw [policySequence, hpol]
      rfl
  | _ => exact { hrefl with }

theorem follows_applyCommand (c : NameCatalog) (term : ℕ) (command : Bytes) :
    (c.applyCommand trust term command).1.Follows c :=
  applyCommand_induction (·.Follows c) (.refl c) fun _ _ hch => hch.follows

end NameCatalog

end Charlotte.Catalog
