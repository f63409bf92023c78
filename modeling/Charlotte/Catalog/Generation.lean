import Charlotte.Catalog.Sequence
import Charlotte.Catalog.Registration

/-!
# A generation identifies content

Observers cache the records of the catalog by their generation. Along every run that
never admits a retired binding again unchanged, two records of one key with one
generation have the same content.
-/

namespace Charlotte.Catalog

open Lib Launch Launch.ReleaseAdmission List
open Std (ExtTreeMap)

/-- A binding that may stand where `current` stood: one of a later generation, or one that
differs in its bundle only. -/
def OperationalBindingEntry.Succeeds (next current : OperationalBindingEntry) : Prop :=
  current.generation < next.generation ∨
    (next.generation = current.generation ∧ next.signed = current.signed ∧ next.active = current.active)

theorem OperationalBindingEntry.Succeeds.trans {a b d : OperationalBindingEntry}
    (hab : a.Succeeds b) (hbd : b.Succeeds d) : a.Succeeds d := by
  rcases hab with hlt | ⟨hgen, hsgn, hact⟩
  · rcases hbd with hlt' | ⟨hgen', -, -⟩
    · exact .inl (hlt'.trans hlt)
    · exact .inl (hgen' ▸ hlt)
  · unfold Succeeds at hbd ⊢
    rw [hgen, hsgn, hact]
    exact hbd

namespace NameCatalog

variable {trust : Trust} {c c' c'' : NameCatalog} {opcode : Opcode} {bytes : Bytes} {term : ℕ}

/-- Whether the command is a release whose bundle has a binding that is stored unchanged but
retired. -/
def readmits (trust : Trust) (c : NameCatalog) : Bytes → Bool
  | [] => false
  | byte :: bytes =>
    match Opcode.ofByte byte with
    | some (.release replicated) =>
      match c.readRelease trust replicated bytes with
      | .ok (envelope, _, some operations) =>
        operations.bindings.any fun binding =>
          (c.operationalBindings[binding.profileName]?).any fun entry =>
            !entry.active && entry.repeats envelope.releaseName
              (trust.crypto.digest envelope.bytes) binding
      | _ => false
    | _ => false

/-- Every binding of `c` is still there in `c'`, or one that succeeds it. -/
structure BindingsFollow (c' c : NameCatalog) : Prop where
  succeeds : ∀ {profile : Bytes} {current : OperationalBindingEntry},
    c.operationalBindings[profile]? = some current →
    ∃ next, c'.operationalBindings[profile]? = some next ∧ next.Succeeds current

theorem BindingsFollow.refl (c : NameCatalog) : c.BindingsFollow c :=
  ⟨fun h => ⟨_, h, .inr ⟨rfl, rfl, rfl⟩⟩⟩

theorem BindingsFollow.trans (h : c''.BindingsFollow c') (h' : c'.BindingsFollow c) :
    c''.BindingsFollow c where
  succeeds hcur := follows_chain (h'.succeeds hcur) h.succeeds .trans

theorem Planned.bindingsFollow_commit {envelope : ReleaseEnvelope} {assignments : List Assignment}
    {tail : Option CompactOperationalSet} {plan : Plan} {replicated : Bool}
    (h : Planned trust c envelope assignments tail plan)
    (hread : c.readRelease trust replicated bytes = .ok (envelope, assignments, tail))
    (hren : ∀ operations ∈ tail, ∀ binding ∈ operations.bindings, ∀ current,
      c.operationalBindings[binding.profileName]? = some current →
      current.repeats envelope.releaseName (trust.crypto.digest envelope.bytes) binding = true →
      current.active = true) : (c.commit plan).BindingsFollow c := by
  refine ⟨fun {profile current} hcur => ?_⟩
  refine follows_insertAll (h.nodup_bindings hread) (fun _ => .inr ⟨rfl, rfl, rfl⟩) ?_ hcur
  rintro ⟨_, _⟩ hrec current hcur
  rcases mem_append.mp hrec with hbd | hret
  · obtain ⟨operations, hops, binding, hmem, hplan⟩ := planBindings_ok h.bindings _ hbd
    obtain ⟨rfl, hnext, hfol⟩ := planBinding_ok hplan
    obtain ⟨-, ⟨hrpt, hgen⟩ | ⟨-, hgen⟩⟩ := hfol current hcur
    · have hact := hren operations hops binding hmem current hcur hrpt
      refine .inr ⟨hgen, ?_, ?_⟩
      · rw [hnext]
        exact OperationalBindingEntry.signed_of_repeats hrpt _ _
      · rw [hnext, hact]
        rfl
    · exact .inl (by simp only [hgen]; omega)
  · obtain ⟨_, hcur', -, -, -, hnext⟩ := (planRetirements_ok h.retirements).1 _ hret
    cases hcur.symm.trans hcur'
    exact .inl (by rw [hnext]; exact Nat.lt_succ_self _)

theorem bindingsFollow_applyCommand {command : Bytes} (hren : c.readmits trust command = false) :
    (c.applyCommand trust term command).1.BindingsFollow c := by
  refine applyCommand_induction (·.BindingsFollow c) (BindingsFollow.refl c)
    fun {byte opcode bytes c'} hcmd hop hch => ?_
  cases hch with
  | @release replicated envelope assignments tail plan hrele hread hplan =>
    refine (planRelease_ok hread hplan).bindingsFollow_commit hread ?_
    rintro _ rfl binding hbd _ hcur hrpt
    subst hcmd hrele
    simp only [readmits, hop, hread] at hren
    have hkeep := any_eq_false.mp hren binding hbd
    simpa [hcur, hrpt] using hkeep
  | _ => exact ⟨(BindingsFollow.refl c).succeeds⟩

/-- Records of one key and one generation that the two catalogs hold have the same content. -/
structure Agrees (c c' : NameCatalog) : Prop where
  deployments : ∀ {artifact : Bytes} {d d' : DeploymentEntry},
    c.deployments[artifact]? = some d → c'.deployments[artifact]? = some d' →
    d.generation = d'.generation → d.descriptor = d'.descriptor ∧
      d.replicaNodes = d'.replicaNodes ∧ d.replicaVariants = d'.replicaVariants
  releases : ∀ {name : Bytes} {r r' : ReleaseEntry}, c.releases[name]? = some r →
    c'.releases[name]? = some r' → r.generation = r'.generation → r.envelope = r'.envelope
  bindings : ∀ {profile : Bytes} {b b' : OperationalBindingEntry},
    c.operationalBindings[profile]? = some b → c'.operationalBindings[profile]? = some b' →
    b.generation = b'.generation → b.signed = b'.signed ∧ b.active = b'.active

theorem Agrees.symm (h : c.Agrees c') : c'.Agrees c where
  deployments hd hd' hgen := by
    obtain ⟨hdesc, hns, hvars⟩ := h.deployments hd' hd hgen.symm
    exact ⟨hdesc.symm, hns.symm, hvars.symm⟩
  releases hr hr' hgen := (h.releases hr' hr hgen.symm).symm
  bindings hb hb' hgen := by
    obtain ⟨hsgn, hact⟩ := h.bindings hb' hb hgen.symm
    exact ⟨hsgn.symm, hact.symm⟩

theorem agrees_of_follows (h : c'.Follows c) (hbind : c'.BindingsFollow c) : c.Agrees c' where
  deployments hd hd' hgen := by
    obtain ⟨_, hnext, hfol⟩ := h.deployments hd
    cases hd'.symm.trans hnext
    rcases hfol with rfl | ⟨_, -⟩
    · exact ⟨rfl, rfl, rfl⟩
    · omega
  releases hr hr' hgen := by
    obtain ⟨_, hnext, hfol⟩ := h.releases hr
    cases hr'.symm.trans hnext
    rcases hfol with ⟨-, henv⟩ | ⟨_, -⟩
    · exact henv.symm
    · omega
  bindings hb hb' hgen := by
    obtain ⟨_, hnext, hfol⟩ := hbind.succeeds hb
    cases hb'.symm.trans hnext
    rcases hfol with _ | ⟨-, hsgn, hact⟩
    · omega
    · exact ⟨hsgn.symm, hact.symm⟩

/-- In every run that never admits a retired binding again unchanged, the generation of a
record determines its content. -/
theorem generation_identifies_content (trust : Trust) (commands : List (ℕ × Bytes))
    (hrenewed : ∀ k, (hk : k < commands.length) →
      (run trust (commands.take k)).readmits trust commands[k].2 = false) (i j : ℕ) :
    (run trust (commands.take i)).Agrees (run trust (commands.take j)) := by
  have hrenewed : ∀ k term command, commands[k]? = some (term, command) →
      (run trust (commands.take k)).readmits trust command = false := by
    intro k term command hcmd
    obtain ⟨hk, hvl⟩ := List.getElem?_eq_some_iff.mp hcmd
    have hk := hrenewed k hk
    rwa [hvl] at hk
  have horde : ∀ {i j}, i ≤ j →
      (run trust (commands.take i)).Agrees (run trust (commands.take j)) := by
    intro i j hij
    have hfol := run_induction (·.Follows (run trust (commands.take i))) hij (.refl _)
      fun _ term command _ _ _ h => (follows_applyCommand _ term command).trans h
    have hbind := run_induction (·.BindingsFollow (run trust (commands.take i))) hij
      (.refl _) fun k term command _ _ hcmd h =>
        (bindingsFollow_applyCommand (hrenewed k term command hcmd)).trans h
    exact agrees_of_follows hfol hbind
  rcases le_total i j with hij | hji
  · exact horde hij
  · exact (horde hji).symm

end NameCatalog

section Samples

/-- The layout of a binding in a release command. -/
def CompactOperationalBinding.layout (binding : CompactOperationalBinding) : Bytes :=
  leBytes 8 binding.sequence ++ leBytes 8 binding.expiresUnixSeconds ++ leBytes 2 binding.profileKind ++
    leBytes 2 binding.targetArtifact.length ++ leBytes 2 binding.profileName.length ++
    leBytes 2 binding.objectKey.length ++ binding.envelopeDigest ++ binding.recipientKeyId ++
    binding.signingKeyId ++ binding.authorizationSignature ++ binding.targetArtifact ++
    binding.profileName ++ binding.objectKey

/-- A profile for the artifact `web`. -/
def webProfile (profileName : Bytes) (sequence : ℕ) : CompactOperationalBinding :=
  { targetArtifact := text "web"
    profileName
    objectKey := text "obj"
    envelopeDigest := replicate 32 5
    profileKind := 1
    sequence
    expiresUnixSeconds := 9
    recipientKeyId := replicate 16 5
    signingKeyId := replicate 16 5
    authorizationSignature := replicate 64 5 }

def webRelease (sequence : ℕ) : Bytes :=
  Release.layout sequence (text "shop") [webDescriptor sequence] (replicate 16 0)

/-- The release of `web` on node 1, without a bundle. -/
def releaseWeb (sequence : ℕ) : Bytes :=
  0x08 :: (lenBytes (webRelease sequence) ++ leBytes 2 1 ++ leBytes 8 1 ++ leBytes 2 0)

/-- The release of `web` on node 1 with a bundle of one profile. -/
def releaseWebWith (sequence bundleSequence : ℕ) (profile : CompactOperationalBinding) : Bytes :=
  releaseWeb sequence ++ leBytes 8 bundleSequence ++ replicate 32 9 ++ leBytes 2 1 ++ profile.layout

/-- A bundle with the profile `p`, one without it, and one with it again. -/
def readmission : List (ℕ × Bytes) :=
  [(1, webReport), (1, releaseWebWith 1 1 (webProfile (text "p") 1)),
    (1, releaseWebWith 1 2 (webProfile (text "q") 1)), (1, releaseWebWith 1 3 (webProfile (text "p") 1))]

/-- The third bundle comes with a new sequence of the profile. -/
def renewal : List (ℕ × Bytes) :=
  [(1, webReport), (1, releaseWebWith 1 1 (webProfile (text "p") 1)),
    (1, releaseWebWith 1 2 (webProfile (text "q") 1)), (1, releaseWebWith 1 3 (webProfile (text "p") 2))]

open NameCatalog

theorem generation_identifies_content_renewal : (∀ k, (hk : k < renewal.length) →
      (run openTrust (renewal.take k)).readmits openTrust renewal[k].2 = false) ∧
    (run openTrust (renewal.take 3)).Agrees (run openTrust (renewal.take 4)) := by
  have hren : ∀ k, (hk : k < renewal.length) →
      (run openTrust (renewal.take k)).readmits openTrust renewal[k].2 = false := by
    decide +kernel
  exact ⟨hren, generation_identifies_content openTrust renewal hren 3 4⟩

/-- The retired binding and the one admitted again have generation 2. -/
theorem generation_kept_by_readmission :
    ¬ (run openTrust (readmission.take 3)).Agrees (run openTrust (readmission.take 4)) := by
  have hret : (((run openTrust (readmission.take 3)).operationalBindings[text "p"]?).map
        fun b => (b.generation, b.active)) = some (2, false) ∧
      (((run openTrust (readmission.take 4)).operationalBindings[text "p"]?).map
        fun b => (b.generation, b.active)) = some (2, true) := by
    decide +kernel
  obtain ⟨b, hb, hvl⟩ := Option.map_eq_some_iff.mp hret.1
  obtain ⟨_, hb', hvl'⟩ := Option.map_eq_some_iff.mp hret.2
  obtain ⟨hgen, hact⟩ := Prod.mk.inj hvl
  obtain ⟨hgen', hact'⟩ := Prod.mk.inj hvl'
  intro h
  have hsame := (h.bindings hb hb' (hgen.trans hgen'.symm)).2
  rw [hact, hact'] at hsame
  cases hsame

end Samples

end Charlotte.Catalog
