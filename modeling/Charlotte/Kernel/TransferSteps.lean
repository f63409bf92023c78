import Charlotte.Kernel.TransferRoots

/-!
# Steps under transfers

Revocations, closes and commits keep the roots of transfers in place.
-/

namespace Charlotte.Kernel

open Lib List Option Function PreparedTransfer

namespace MemorySystem

variable {s s' : MemorySystem} {id : ℕ}

/-! ### Revocation -/

/-- Capabilities may go, and none is added. -/
def FewerCaps (s s' : MemorySystem) : Prop :=
  ∀ asid cap entry, s'.cap? asid cap = some entry → s.cap? asid cap = some entry

theorem FewerCaps.names (h : FewerCaps s s') (asid : AddressSpaceId) (cap : ℕ) (entry' : MemoryCap)
    (hent : s'.cap? asid cap = some entry') (hid : entry'.object = id) :
    ∃ entry, s.cap? asid cap = some entry ∧ entry.object = id :=
  ⟨entry', h asid cap entry' hent, hid⟩

variable {object object' : MemoryObject}

theorem Named.relend (hs : s.Named) (hcaps : FewerCaps s s')
    (hobjs : s'.registry.objects = update s.registry.objects id (some object'))
    (hobj : s.registry.objects id = some object) (howne : object'.owner = object.owner)
    (hlds : object'.lendState ≠ .revoking → s'.Lends id object' object'.lendState)
    (hoth : ∀ other ≠ id, (s'.held other).retirements = (s.held other).retirements)
    (hrevo : ∀ loan, .revoke loan ∈ (s'.held id).retirements → s'.Lends id object' loan.prior) :
    s'.Named := by
  have hown : SameObjects (·.owner) s s' := sameObjects_update hobjs hobj howne
  constructor
  · intro asid cap entry hent
    obtain ⟨_, hfnd⟩ := hs.exists_object asid cap entry (hcaps asid cap entry hent)
    obtain ⟨found', hfnd', -⟩ := hown.symm.get hfnd
    exact ⟨found', hfnd'⟩
  · intro cap cap' entry entry' found' hfnd' hent hent' hsame
    obtain ⟨found, hfnd, hsameOwner⟩ := hown.get hfnd'
    rw [← hsameOwner] at hent hent'
    exact hs.owned cap cap' entry entry' found hfnd (hcaps _ _ _ hent) (hcaps _ _ _ hent') hsame
  · intro other found hfnd hne
    rw [hobjs] at hfnd
    rcases update_eq_some hfnd with ⟨rfl, ⟨⟩⟩ | ⟨-, hfnd⟩
    · exact hlds hne
    · exact (hs.lends other found hfnd hne).frame rfl hcaps.names
  · intro other found loan hfnd hloan
    rw [hobjs] at hfnd
    rcases update_eq_some hfnd with ⟨rfl, ⟨⟩⟩ | ⟨hid, hfnd⟩
    · exact hrevo loan hloan
    · rw [hoth other hid] at hloan
      exact (hs.revokes other found loan hfnd hloan).frame rfl hcaps.names

variable {holders : Holders} {other : ℕ}

theorem held_setHolders_of_ne (hne : other ≠ id) :
    (s.setHolders id holders).held other = s.held other := update_of_ne hne ..

variable (hs : s.Rooted)
include hs

theorem Rooted.relend (hobj : s.registry.objects id = some object)
    (hcore : (object'.owner, object'.closeInterest, object'.transferRoot) =
      (object.owner, object.closeInterest, object.transferRoot))
    (htrs : holders.transfers = (s.held id).transfers)
    (hlds : object'.lendState ≠ .revoking → s.Lends id object object'.lendState)
    (hrevo : ∀ loan, .revoke loan ∈ holders.retirements → s.Lends id object loan.prior) :
    ((s.setObject id (some object')).setHolders id holders).Rooted := by
  simp only [Prod.mk.injEq] at hcore
  obtain ⟨hown, hcls, hroot⟩ := hcore
  have hsame : ∀ other, (((s.setObject id (some object')).setHolders id holders).held other).transfers =
      (s.held other).transfers := fun other => transfers_setHolders (s := s.setObject id (some object'))
    htrs other
  refine ⟨⟨hs.placed.ids, hs.placed.handles, hs.placed.preparing, fun other t ht => ?_⟩,
    hs.guarded.frame rfl (fun _ _ => rfl) (sameObjects_update rfl hobj (by rw [hown, hroot]))
      fun other => congrArg (filter _) (hsame other), ?_,
    hs.awaited.frame rfl (sameObjects_update rfl hobj hcls) fun other t ht _ => ⟨t.committed, ?_⟩⟩
  · rw [hsame] at ht
    exact hs.placed.transfers other t ht
  · refine hs.named.relend (fun _ _ _ h => h) rfl hobj hown (fun hne => ?_)
      (fun other hne => by rw [held_setHolders_of_ne hne]; rfl) fun loan hloan => ?_
    · exact (hlds hne).frame hown.symm fun _ _ entry' hent' hid => ⟨entry', hent', hid⟩
    · simp only [setHolders, update_self] at hloan
      exact (hrevo loan hloan).frame hown.symm fun _ _ entry' hent' hid => ⟨entry', hent', hid⟩
  · rw [hsame]
    exact ht

theorem Rooted.authorize (operation : CapabilityOperation) : (s.authorize operation).Rooted :=
  hs.frame { hs.same with }

variable {asid : AddressSpaceId} {cap : ℕ} {ns : AddressSpaceCaps}

omit hs in
theorem fewerCaps_setCap (hns : s.registry.caps asid = some ns) :
    FewerCaps s (s.setCap asid ns cap none) := by
  intro asid' cap' entry hent
  rw [cap?_setCap _ hns] at hent
  split at hent
  · cases hent
  · exact hent

theorem Rooted.removeCap (hns : s.registry.caps asid = some ns)
    (hfly : ∀ entry, s.cap? asid cap = some entry → entry.transferInFlight = false) :
    (s.setCap asid ns cap none).Rooted := by
  have hfew : FewerCaps s (s.setCap asid ns cap none) := fewerCaps_setCap hns
  refine ⟨⟨hs.placed.ids, fun asid' ns' hns' => ?_, hs.placed.preparing, hs.placed.transfers⟩,
    ⟨hs.guarded.roots, ?_, hs.guarded.single, ?_⟩, ⟨?_, ?_, ?_, ?_⟩, ⟨hs.awaited.interests, ?_⟩⟩
  · obtain ⟨old, hold, hhd⟩ := handles_setCap hns hns'
    rw [hhd]
    exact hs.placed.handles asid' old hold
  · intro id t ht source hsrc hkind
    obtain ⟨object, entry, hobj, hown, hent, hid, hfly'⟩ :=
      hs.guarded.fenced id t ht source hsrc hkind
    refine ⟨object, entry, hobj, hown, ?_, hid, hfly'⟩
    rw [cap?_setCap _ hns, if_neg]
    · exact hent
    · rintro ⟨rfl, rfl⟩
      exact Bool.false_ne_true ((hfly entry hent).symm.trans hfly')
  · exact fun asid' cap' entry hent => hs.guarded.flight asid' cap' entry (hfew _ _ _ hent)
  · exact fun asid' cap' entry hent => hs.named.exists_object asid' cap' entry (hfew _ _ _ hent)
  · exact fun cap₁ cap₂ entry entry' object hobj hent hent' => hs.named.owned cap₁ cap₂ entry entry'
      object hobj (hfew _ _ _ hent) (hfew _ _ _ hent')
  · exact fun id object hobj hne => (hs.named.lends id object hobj hne).frame rfl hfew.names
  · exact fun id object loan hobj hloan =>
      (hs.named.revokes id object loan hobj hloan).frame rfl hfew.names
  · exact hs.awaited.waiting

/-- An object goes that nobody names and nothing is transferred from. -/
theorem Rooted.removeObject (hnms : ∀ asid cap entry, s.cap? asid cap = some entry → entry.object ≠ id)
    (hsrcs : (s.held id).sources = 0) : (s.setObject id none).Rooted := by
  have hoth : ∀ other object, (s.setObject id none).registry.objects other = some object →
      s.registry.objects other = some object := by
    intro other object hobj
    by_cases hid : other = id
    · subst hid
      simp [setObject] at hobj
    · simpa [setObject, update_of_ne hid] using hobj
  have hkept : ∀ other, other ≠ id →
      (s.setObject id none).registry.objects other = s.registry.objects other := by
    intro other hne
    simp [setObject, update_of_ne hne]
  have hap : ∀ {other t source}, t ∈ (s.held other).transfers → t.source? = some source →
      other ≠ id := by
    rintro _ _ _ ht hsrc rfl
    exact not_source_of_sources_zero hsrcs ht hsrc
  refine ⟨{ hs.placed with },
    ⟨?_, ?_, hs.guarded.single, hs.guarded.flight⟩, ⟨?_, ?_, ?_, ?_⟩, ⟨?_, ?_⟩⟩
  · intro other t ht source hsrc
    rw [hkept other (hap ht hsrc)]
    exact hs.guarded.roots other t ht source hsrc
  · intro other t ht source hsrc
    rw [hkept other (hap ht hsrc)]
    exact hs.guarded.fenced other t ht source hsrc
  · intro asid cap entry hent
    rw [hkept _ (hnms asid cap entry hent)]
    exact hs.named.exists_object asid cap entry hent
  · exact fun cap cap' entry entry' object hobj => hs.named.owned cap cap' entry entry' object
      (hoth _ _ hobj)
  · exact fun other object hobj hne => (hs.named.lends other object (hoth _ _ hobj) hne).frame rfl
      fun _ _ entry' hent' hid => ⟨entry', hent', hid⟩
  · exact fun other object loan hobj hloan =>
      (hs.named.revokes other object loan (hoth _ _ hobj) hloan).frame rfl
        fun _ _ entry' hent' hid => ⟨entry', hent', hid⟩
  · intro other object interest hobj hitr
    obtain ⟨hlt, huni⟩ := hs.awaited.interests other object interest (hoth _ _ hobj) hitr
    exact ⟨hlt, fun other' object' hobj' => huni other' object' (hoth _ _ hobj')⟩
  · intro waiter hwt hopen
    obtain ⟨hitr, t, ht, source, hsrc, hpl⟩ := hs.awaited.waiting waiter hwt hopen
    refine ⟨?_, t, ht, source, hsrc, hpl⟩
    rw [hkept _ (hap ht hsrc)]
    exact hitr

theorem Rooted.prepareRevocation (owner : AddressSpaceId) (cap : ℕ)
    (borrower : AddressSpaceId) (borrowerCap : ℕ) :
    (orElse (s.prepareRevocation owner cap borrower borrowerCap) s).Rooted := by
  refine orElse_of hs fun _ h => ?_
  simp only [MemorySystem.prepareRevocation, bind_eq_ok, okOr_eq_ok, ensure_eq_ok] at h
  obtain ⟨entry, -, object, hobj, _, -, _, -, _, -, _, hrev, _, -, _, -, _, -, h⟩ := h
  cases h
  refine hs.relend hobj rfl rfl (fun hne => absurd rfl hne) fun loan hloan => ?_
  rcases mem_cons.mp hloan with heq | hloan
  · cases heq
    exact hs.named.lends entry.object object hobj hrev
  · exact hs.named.revokes entry.object object loan hobj hloan

variable {loan : LoanRevocation}

theorem Rooted.cancelRevocation
    (hwork : .revoke loan ∈ (s.held id).retirements) (h : s.cancelRevocation id loan = some s') :
    s'.Rooted := by
  obtain ⟨object, hobj, h⟩ := bind_eq_some_iff.mp h
  split at h
  · cases h
  cases h
  exact hs.relend hobj rfl rfl (fun _ => hs.named.revokes id object loan hobj hwork)
    fun loan' hloan => hs.named.revokes id object loan' hobj (mem_of_proceed hloan nofun)

variable {lendState : LendState}

omit hs in
theorem referencesCap_unique {cap' : ℕ}
    (hne : lendState ≠ .revoking) (h : lendState.referencesCap asid cap = true)
    (h' : lendState.referencesCap asid cap' = true) : cap = cap' := by
  cases lendState with
  | none => cases h
  | revoking => exact absurd rfl hne
  | read =>
    simp only [LendState.referencesCap, beq_iff_eq] at h h'
    exact some.inj (h.symm.trans h')
  | write =>
    simp only [LendState.referencesCap, Bool.and_eq_true, beq_iff_eq] at h h'
    exact h.2.symm.trans h'.2

variable {borrower : AddressSpaceId}

omit hs in
theorem lookup_filter {borrowers : List (AddressSpaceId × ℕ)} (hne : asid ≠ borrower) :
    (borrowers.filter (·.1 != borrower)).lookup asid = borrowers.lookup asid := by
  induction borrowers with
  | nil => rfl
  | cons pair borrowers ih =>
    by_cases hpair : pair.1 = borrower
    · have hskip : (asid == pair.1) = false := by simp [hpair, hne]
      rw [filter_cons_of_neg (by simp [hpair]), ih, lookup_cons, hskip]
    · rw [filter_cons_of_pos (by simp [hpair]), lookup_cons, lookup_cons, ih]

omit hs in
theorem referencesCap_withoutBorrower {borrowerCap : ℕ} (hrev : lendState ≠ .revoking)
    (hborr : lendState.referencesCap borrower borrowerCap = true)
    (hne : asid ≠ borrower) (h : lendState.referencesCap asid cap = true) :
    (lendState.withoutBorrower borrower).referencesCap asid cap = true := by
  cases lendState with
  | none => cases h
  | revoking => exact absurd rfl hrev
  | read borrowers =>
    simp only [LendState.referencesCap, beq_iff_eq] at h
    have hfnd : (borrowers.filter (·.1 != borrower)).lookup asid = some cap :=
      (lookup_filter hne).trans h
    simp only [LendState.withoutBorrower]
    split
    · rename_i hemp
      rw [isEmpty_iff.mp hemp] at hfnd
      cases hfnd
    · simp [LendState.referencesCap, hfnd]
  | write =>
    simp only [LendState.referencesCap, Bool.and_eq_true, beq_iff_eq] at h hborr
    exact absurd (h.1.symm.trans hborr.1) hne

omit hs in
theorem referencesCap_of_withoutBorrower
    (h : (lendState.withoutBorrower borrower).referencesCap asid cap = true) :
    lendState.referencesCap asid cap = true := by
  cases lendState with
  | read borrowers =>
    simp only [LendState.withoutBorrower] at h
    split at h
    · cases h
    simp only [LendState.referencesCap, beq_iff_eq] at h ⊢
    have hne : asid ≠ borrower := by
      rintro rfl
      obtain ⟨_, _, heq, -⟩ := lookup_eq_some_iff.mp h
      have hmem : (asid, cap) ∈ borrowers.filter (·.1 != asid) := by
        rw [heq]
        exact mem_append_right _ mem_cons_self
      simpa using (mem_filter.mp hmem).2
    rw [← lookup_filter hne]
    exact h
  | _ => cases h

theorem Rooted.finishRevocation (hsane : s.Sane) {confirmed : Bool}
    (hwork : .revoke loan ∈ (s.held id).retirements)
    (h : s.finishRevocation id loan confirmed = some s') : s'.Rooted := by
  unfold MemorySystem.finishRevocation at h
  cases confirmed with
  | false =>
    cases h
    exact hs.hold rfl fun _ h => mem_of_proceed h nofun
  | true =>
    obtain ⟨object, hobj, hr⟩ := hsane.retained_of_mem hwork
    obtain ⟨-, -, -, hpri, -⟩ := hr.revoking _ hwork loan rfl
    have hlds := hs.named.revokes id object loan hobj hwork
    simp only [Bool.true_eq_false, if_false, hobj, bind_eq_bind, bind_some] at h
    obtain ⟨_, -, h⟩ := bind_eq_some_iff.mp h
    obtain ⟨lent, hlent, h⟩ := bind_eq_some_iff.mp h
    obtain ⟨ns, hns, h⟩ := bind_eq_some_iff.mp h
    split at h
    · cases h
    rename_i hchecks
    cases h
    simp only [ne_eq, not_or, not_not, Bool.not_eq_false] at hchecks
    obtain ⟨-, hlentId, -, -, href⟩ := hchecks
    have hlent : s.cap? loan.borrower loan.borrowerCap = some lent := by
      cases hlk : s.lookup loan.borrower loan.borrowerCap with
      | error => simp [hlk, Except.toOption] at hlent
      | ok =>
        simp only [hlk, Except.toOption, some.injEq] at hlent
        subst hlent
        exact (lookup_ok hlk).1
    -- The borrower is not the owner, so its capability is not in flight.
    have hap := hlds.others loan.borrower loan.borrowerCap href
    have hfly : ∀ entry, s.cap? loan.borrower loan.borrowerCap = some entry →
        entry.transferInFlight = false := by
      intro entry hent
      cases hlent.symm.trans hent
      by_contra hne
      have hfly : lent.transferInFlight = true := by simpa using hne
      obtain ⟨t, ht, source, hsrc, hown, -, hkind⟩ := hs.guarded.flight _ _ lent hlent hfly
      rw [hlentId] at ht
      obtain ⟨_, _, hobj', hown', -⟩ := hs.guarded.fenced id t ht source hsrc hkind
      cases hobj.symm.trans hobj'
      exact hap (hown.symm.trans hown'.symm)
    have hremo : (((s.setCap loan.borrower ns loan.borrowerCap none).setObject id
        (some { object.unmap loan.borrower with
          lendState := loan.prior.withoutBorrower loan.borrower })).setHolders id { s.held id with
        retirements := .release :: (s.held id).retirements.erase (.revoke loan) }).Rooted := by
      refine (hs.removeCap hns hfly).relend hobj rfl rfl (fun _ => ?_) (fun loan' hloan => ?_)
      · refine ⟨fun asid cap href' => hlds.others asid cap (referencesCap_of_withoutBorrower href'),
          fun asid cap entry hent hid hne => ?_⟩
        rw [cap?_setCap _ hns] at hent
        split at hent
        · cases hent
        · rename_i hnot
          have href' := hlds.all asid cap entry hent hid hne
          refine referencesCap_withoutBorrower hpri href ?_ href'
          rintro rfl
          exact hnot ⟨rfl, referencesCap_unique hpri href' href⟩
      · exact (hs.named.revokes id object loan' hobj (mem_of_proceed hloan nofun)).frame rfl
          (fewerCaps_setCap hns).names
    exact hremo.authorize (.detach loan.borrower loan.borrowerCap .memory)

/-! ### Close -/

/-- A capability that is not in flight is closed. Only owners succeed, since every other capability
is lent. -/
theorem Rooted.prepareCloseCap (hsane : s.Sane)
    (hfly : ∀ entry, s.cap? asid cap = some entry → entry.transferInFlight = false)
    (h : s.prepareCloseCap asid cap = .ok s') : s'.Rooted := by
  obtain ⟨entry, hlk, h⟩ := bind_eq_ok.mp h
  obtain ⟨-, hlk⟩ := ensure_bind_ok.mp hlk
  have hent := okOr_eq_ok.mp hlk
  obtain ⟨object, hobj, h⟩ := okOr_bind_ok.mp h
  obtain ⟨ns, hns, h⟩ := okOr_bind_ok.mp h
  split at h
  · rename_i hown
    obtain ⟨href, -⟩ := ensure_bind_ok.mp h
    have hne : object.lendState ≠ .revoking := by
      intro hrev
      rw [hrev] at href
      cases href
    have htrue := (hs.named.lends entry.object object hobj hne).all asid cap entry hent rfl hown.symm
    cases href.symm.trans htrue
  · rename_i hown
    have hown : object.owner = asid := not_not.mp hown
    obtain ⟨⟨hlend, hdma, hcopy, hret⟩, h⟩ := ensure_bind_ok.mp h
    obtain ⟨-, h⟩ := ensure_bind_ok.mp h
    cases h
    have hidle := ((hsane entry.object).1 object hobj).idle hdma hcopy hret
    have hnone := isActive_eq_false.mp hlend
    have hlds := hs.named.lends entry.object object hobj (by simp [hnone])
    refine ((hs.removeCap hns hfly).authorize (.detach asid cap .memory)).removeObject ?_ hidle.sources
    intro asid' cap' entry' haf hid
    have hent' : (s.setCap asid ns cap none).cap? asid' cap' = some entry' := haf
    rw [cap?_setCap _ hns] at hent'
    split at hent'
    · cases hent'
    rename_i hnot
    by_cases hasid : asid' = object.owner
    · subst hasid
      subst hown
      exact hnot ⟨rfl, hs.named.owned cap cap' entry entry' object hobj hent hent' hid⟩
    · have href := hlds.all asid' cap' entry' hent' hid hasid
      rw [hnone] at href
      cases href

theorem Rooted.closeNow (hsane : s.Sane)
    (hfly : ∀ entry, s.cap? asid cap = some entry → entry.transferInFlight = false) :
    (s.closeNow asid cap).Rooted := by
  unfold MemorySystem.closeNow
  split
  · exact hs
  · split
    · exact hs
    · rename_i h
      exact hs.prepareCloseCap hsane hfly h

theorem Rooted.setClosers (closers : List Closer) : Rooted { s with closers } :=
  hs.frame { hs.same with }

theorem Rooted.close (hsane : s.Sane) (h : s.close asid cap = some s') : s'.Rooted := by
  unfold MemorySystem.close at h
  split at h
  · rename_i hfly
    cases h
    refine hs.closeNow hsane fun entry hent => ?_
    simpa [transferInFlight, hent] using hfly
  · obtain ⟨_, -, h⟩ := bind_eq_some_iff.mp h
    obtain ⟨_, -, h⟩ := bind_eq_some_iff.mp h
    obtain ⟨_, -, h⟩ := bind_eq_some_iff.mp h
    cases h
    exact hs.setClosers _

variable {closer : Closer}

theorem Rooted.addWaiter {interest : ℕ} (hobj : s.registry.objects closer.object = some object)
    (hitr : object.closeInterest = some interest)
    (hin : s.InTransfer closer.object closer.asid closer.cap) :
    Rooted { s with waiters := ⟨interest, closer⟩ :: s.waiters } := by
  refine ⟨{ hs.placed with },
    ⟨hs.guarded.roots, hs.guarded.fenced, hs.guarded.single, hs.guarded.flight⟩,
    hs.named.frame (fun _ _ => rfl) (fun _ => rfl) (fun _ _ h => h),
    ⟨hs.awaited.interests, forall_mem_cons.mpr ⟨fun _ => ?_, hs.awaited.waiting⟩⟩⟩
  exact ⟨⟨object, hobj, hitr⟩, hin⟩

theorem Rooted.closeRetry (hsane : s.Sane) (closer : Closer) : (s.closeRetry closer).Rooted := by
  unfold MemorySystem.closeRetry
  split
  · exact hs.setClosers _
  rename_i entry hfilter
  obtain ⟨hent, hid⟩ := filter_eq_some_iff.mp hfilter
  have hid : entry.object = closer.object := beq_iff_eq.mp hid
  split
  · rename_i hfly
    refine (hs.closeNow hsane fun entry' hent' => ?_).setClosers _
    cases hent.symm.trans hent'
    exact hfly
  · rename_i hfly
    split
    · exact hs.setClosers _
    rename_i hobj
    split
    · exact hs
    · rename_i hitr
      have hfenc := hs.guarded.flight _ _ entry hent (by simpa using hfly)
      exact hs.addWaiter hobj hitr (hid ▸ hfenc.inTransfer)

theorem Rooted.addInterest
    (hobj : s.registry.objects id = some object) (hnone : object.closeInterest = none) :
    Rooted { s.setObject id (some { object with closeInterest := some s.nextInterest }) with
      nextInterest := s.nextInterest + 1 } := by
  set s' : MemorySystem := { s.setObject id (some { object with closeInterest := some s.nextInterest }) with
    nextInterest := s.nextInterest + 1 } with hs'
  have hobjs : s'.registry.objects = update s.registry.objects id
      (some { object with closeInterest := some s.nextInterest }) := rfl
  refine ⟨{ hs.placed with },
    hs.guarded.frame rfl (fun _ _ => rfl) (sameObjects_update hobjs hobj rfl) (fun _ => rfl),
    hs.named.frame (fun _ _ => rfl) (sameObjects_update hobjs hobj rfl) (fun _ _ h => h), ⟨?_, ?_⟩⟩
  · intro other object' interest hobj' hitr
    -- Every list that exists has a smaller number.
    have hcas : ∀ other object' interest, s'.registry.objects other = some object' →
        object'.closeInterest = some interest →
        (other = id ∧ interest = s.nextInterest) ∨
          (interest < s.nextInterest ∧ s.registry.objects other = some object') := by
      intro other object' interest hobj' hitr
      rw [hobjs, update_apply] at hobj'
      split_ifs at hobj' with hoth
      · cases hobj'
        exact .inl ⟨hoth, (some.inj hitr).symm⟩
      · exact .inr ⟨(hs.awaited.interests other object' interest hobj' hitr).1, hobj'⟩
    rcases hcas other object' interest hobj' hitr with ⟨rfl, rfl⟩ | ⟨hlt, hold⟩
    · refine ⟨Nat.lt_succ_self _, fun other₂ object₂ hobj₂ hitr₂ => ?_⟩
      rcases hcas other₂ object₂ _ hobj₂ hitr₂ with ⟨rfl, -⟩ | ⟨hlt, -⟩
      · rfl
      · exact absurd hlt (Nat.lt_irrefl _)
    · refine ⟨Nat.lt_succ_of_lt hlt, fun other₂ object₂ hobj₂ hitr₂ => ?_⟩
      rcases hcas other₂ object₂ _ hobj₂ hitr₂ with ⟨-, rfl⟩ | ⟨-, hold₂⟩
      · exact absurd hlt (Nat.lt_irrefl _)
      · exact (hs.awaited.interests other object' interest hold hitr).2 other₂ object₂ hold₂ hitr₂
  · intro waiter hwt hopen
    obtain ⟨⟨object', hobj', hitr⟩, hin⟩ := hs.awaited.waiting waiter hwt hopen
    refine ⟨⟨object', ?_, hitr⟩, hin⟩
    rw [hobjs, update_of_ne]
    · exact hobj'
    · intro heq
      rw [heq, hobj] at hobj'
      cases hobj'
      cases hnone.symm.trans hitr

theorem Rooted.closeRegister (h : s.closeRegister closer = some s') : s'.Rooted := by
  unfold MemorySystem.closeRegister at h
  split at h
  · cases h
    exact hs
  rename_i hact
  have hact := Bool.not_eq_false _ ▸ hact
  obtain ⟨entry, hent, hboth⟩ := (Option.any_eq_true ..).mp hact
  simp only [Bool.and_eq_true, beq_iff_eq] at hboth
  have hin : s.InTransfer closer.object closer.asid closer.cap :=
    hboth.1 ▸ (hs.guarded.flight _ _ entry hent hboth.2).inTransfer
  obtain ⟨object, hobj, h⟩ := bind_eq_some_iff.mp h
  split at h
  · rename_i hitr
    cases h
    exact hs.addWaiter hobj hitr hin
  rename_i hnone
  cases h
  have hadded := hs.addInterest hobj hnone
  have hset : (s.setObject closer.object (some { object with
      closeInterest := some s.nextInterest })).registry.objects closer.object =
      some { object with closeInterest := some s.nextInterest } := by
    simp [setObject]
  exact hadded.addWaiter hset rfl hin

omit hs

/-! ### Publication -/

variable {destination : Preparing} {payload : MemoryCap}

/-- `Preparing::install` puts the capability into a free place. -/
theorem install_caps (h : s.install destination payload = some s') :
    s.cap? destination.handle.id destination.authority.cap = none ∧ (∀ asid cap, s'.cap? asid cap =
        if asid = destination.handle.id ∧ cap = destination.authority.cap then some payload
        else s.cap? asid cap) ∧ (∀ asid ns', s'.registry.caps asid = some ns' →
        (asid = destination.handle.id ∧ ns'.handle = destination.handle) ∨
          s.registry.caps asid = some ns') ∧
      (s'.roots, s'.waiters, s'.nextInterest, s'.closed, s'.preparing) =
        (s.roots, s.waiters, s.nextInterest, s.closed, s.preparing) := by
  simp only [install] at h
  split at h
  · cases h
  rename_i hfree
  cases h
  obtain ⟨hhd, hnone⟩ := not_or.mp hfree
  have hhd := not_not.mp hhd
  have hnone := not_isSome_iff_eq_none.mp hnone
  cases hns : s.registry.caps destination.handle.id with
  | none =>
    refine ⟨by simp [cap?, hns], fun asid cap => ?_, fun asid ns' hns' => ?_, rfl⟩
    · by_cases hasid : asid = destination.handle.id
      · subst hasid
        by_cases hcap : cap = destination.authority.cap
        · simp [cap?, setCap, hcap]
        · simp [cap?, setCap, hns, hcap]
      · simp [cap?, setCap, hasid]
    · rcases update_eq_some hns' with ⟨rfl, ⟨⟩⟩ | ⟨-, hns'⟩
      · exact .inl ⟨rfl, rfl⟩
      · exact .inr hns'
  | some =>
    rw [hns] at hhd hnone
    refine ⟨by simpa [cap?, hns] using hnone, fun asid cap => cap?_setCap _ hns,
      fun asid ns' hns' => ?_, rfl⟩
    rcases update_eq_some hns' with ⟨rfl, ⟨⟩⟩ | ⟨-, hns'⟩
    · exact .inl ⟨rfl, hhd⟩
    · exact .inr hns'

/-- What is found after an installation is the payload or was there before. -/
theorem install_places (h : s.install destination payload = some s') :
    (∀ asid cap entry, s'.cap? asid cap = some entry →
      (asid = destination.handle.id ∧ cap = destination.authority.cap ∧ entry = payload) ∨
        s.cap? asid cap = some entry) ∧
    ∀ asid cap entry, s.cap? asid cap = some entry → s'.cap? asid cap = some entry := by
  obtain ⟨hfree, hcaps, -⟩ := install_caps h
  refine ⟨fun asid cap entry hent => ?_, fun asid cap entry hent => ?_⟩
  · rw [hcaps] at hent
    split at hent
    · rename_i hpl
      cases hent
      exact .inl ⟨hpl.1, hpl.2, rfl⟩
    · exact .inr hent
  · rw [hcaps, if_neg]
    · exact hent
    · rintro ⟨rfl, rfl⟩
      cases hent.symm.trans hfree

/-- An object is made, moved or lent: a capability that names it appears, and others may go. -/
structure Published (s s' : MemorySystem) (id : ℕ) (object' : MemoryObject) (destination : Preparing) :
    Prop where
  rest : (s'.roots, s'.waiters, s'.nextInterest, s'.closed) = (s.roots, s.waiters, s.nextInterest, s.closed)
  preparing : ∀ d ∈ s'.preparing, d ∈ s.preparing
  handles : ∀ asid ns', s'.registry.caps asid = some ns' →
    (asid = destination.handle.id ∧ ns'.handle = destination.handle) ∨
      ∃ ns, s.registry.caps asid = some ns ∧ ns'.handle = ns.handle
  objects : s'.registry.objects = Function.update s.registry.objects id (some object')
  caps : ∀ asid cap entry, s'.cap? asid cap = some entry →
    (asid = destination.handle.id ∧ cap = destination.authority.cap ∧ entry.object = id ∧
      entry.transferInFlight = false) ∨ s.cap? asid cap = some entry
  kept : ∀ asid cap entry, s.cap? asid cap = some entry → entry.object ≠ id →
    s'.cap? asid cap = some entry
  held : ∀ other, other ≠ id → s'.held other = s.held other

variable (hp : Published s s' id object' destination)
include hp

theorem Published.object_of_ne (hne : other ≠ id) :
    s'.registry.objects other = s.registry.objects other := by
  rw [hp.objects, update_of_ne hne]

theorem Published.object_self : s'.registry.objects id = some object' := by
  rw [hp.objects, update_self]

/-- Capabilities that name another object are the old ones. -/
theorem Published.caps_of_ne {entry : MemoryCap}
    (hent : s'.cap? asid cap = some entry) (hne : entry.object ≠ id) :
    s.cap? asid cap = some entry := by
  rcases hp.caps asid cap entry hent with ⟨-, -, hid, -⟩ | hold
  · exact absurd hid hne
  · exact hold

omit hp

section Publication

variable {object' : MemoryObject} {destination : Preparing}

theorem Placed.published (hs : s.Placed) (hp : Published s s' id object' destination)
    (hroot : s.roots destination.handle.id = some destination.handle)
    (hold : ∀ t' ∈ (s'.held id).transfers, ∃ t ∈ (s.held id).transfers, ∃ committed,
      t' = { t with committed }) : s'.Placed := by
  have hrts : s'.roots = s.roots := congrArg Prod.fst hp.rest
  refine ⟨hrts ▸ hs.ids, fun asid ns' hns' => ?_, fun d hd => ?_, fun other t' ht' => ?_⟩
  · rw [hrts]
    rcases hp.handles asid ns' hns' with ⟨rfl, hhd⟩ | ⟨ns, hns, hhd⟩
    · rw [hhd]
      exact hroot
    · rw [hhd]
      exact hs.handles asid ns hns
  · rw [hrts]
    exact hs.preparing d (hp.preparing d hd)
  · rw [hrts]
    by_cases hoth : other = id
    · subst hoth
      obtain ⟨t, ht, _, rfl⟩ := hold t' ht'
      exact hs.transfers other t ht
    · rw [hp.held other hoth] at ht'
      exact hs.transfers other t' ht'

theorem Guarded.published (hs : s.Guarded) (hp : Published s s' id object' destination)
    (hsrcs : (s'.held id).sources = (s.held id).sources)
    (hown : ∀ t' ∈ (s'.held id).transfers, ∀ source, t'.source? = some source →
      (s.roots source.owner = some source.handle ∧ object'.transferRoot = some source.handle) ∧
      (t'.committed = false ∨ t'.loan.isSome = true → object'.owner = source.owner ∧
        ∃ entry, s'.cap? source.owner source.cap = some entry ∧ entry.object = id ∧
          entry.transferInFlight = true))
    (hfly : ∀ asid cap entry, s'.cap? asid cap = some entry → s.cap? asid cap = some entry →
      entry.object = id → entry.transferInFlight = true → s'.Fencing id asid cap) : s'.Guarded := by
  have hrts : s'.roots = s.roots := congrArg Prod.fst hp.rest
  refine ⟨?_, ?_, ?_, ?_⟩
  · intro other t' ht' source hsrc
    rw [hrts]
    by_cases hoth : other = id
    · subst hoth
      obtain ⟨⟨howne, hroot⟩, -⟩ := hown t' ht' source hsrc
      exact ⟨howne, object', hp.object_self, hroot⟩
    · rw [hp.held other hoth] at ht'
      rw [hp.object_of_ne hoth]
      exact hs.roots other t' ht' source hsrc
  · intro other t' ht' source hsrc hkind
    by_cases hoth : other = id
    · subst hoth
      obtain ⟨howne, entry, hent⟩ := (hown t' ht' source hsrc).2 hkind
      exact ⟨object', entry, hp.object_self, howne, hent⟩
    · rw [hp.held other hoth] at ht'
      obtain ⟨object, entry, hobj, howne, hent, hid, hfenced⟩ :=
        hs.fenced other t' ht' source hsrc hkind
      refine ⟨object, entry, (hp.object_of_ne hoth).trans hobj, howne, ?_, hid, hfenced⟩
      exact hp.kept _ _ entry hent (hid ▸ hoth)
  · intro other
    by_cases hoth : other = id
    · subst hoth
      rw [hsrcs]
      exact hs.single other
    · rw [hp.held other hoth]
      exact hs.single other
  · intro asid cap entry hent hfenced
    rcases hp.caps asid cap entry hent with ⟨-, -, -, hfree⟩ | hold
    · exact absurd (hfree.symm.trans hfenced) Bool.false_ne_true
    · by_cases hid : entry.object = id
      · rw [hid]
        exact hfly asid cap entry hent hold hid hfenced
      · refine (hs.flight asid cap entry hold hfenced).keep fun t ht _ => ?_
        rw [hp.held _ hid]
        exact ht

theorem Named.published (hs : s.Named) (hp : Published s s' id object' destination)
    (hown : ∀ cap cap' entry entry', s'.cap? object'.owner cap = some entry →
      s'.cap? object'.owner cap' = some entry' → entry.object = id → entry'.object = id → cap' = cap)
    (hlds : s'.Lends id object' object'.lendState)
    (hrevo : ∀ loan, .revoke loan ∉ (s'.held id).retirements) : s'.Named := by
  refine ⟨?_, ?_, ?_, ?_⟩
  · intro asid cap entry hent
    by_cases hid : entry.object = id
    · exact ⟨object', hid ▸ hp.object_self⟩
    · rw [hp.object_of_ne hid]
      exact hs.exists_object asid cap entry (hp.caps_of_ne hent hid)
  · intro cap cap' entry entry' object hobj hent hent' hsame
    by_cases hid : entry.object = id
    · rw [hid, hp.object_self] at hobj
      cases hobj
      exact hown cap cap' entry entry' hent hent' hid (hsame.trans hid)
    · rw [hp.object_of_ne hid] at hobj
      exact hs.owned cap cap' entry entry' object hobj (hp.caps_of_ne hent hid)
        (hp.caps_of_ne hent' (hsame ▸ hid)) hsame
  · intro other object hobj hne
    by_cases hid : other = id
    · subst hid
      cases hp.object_self.symm.trans hobj
      exact hlds
    · rw [hp.object_of_ne hid] at hobj
      exact (hs.lends other object hobj hne).frame rfl fun asid cap entry hent hoth =>
        ⟨entry, hp.caps_of_ne hent (hoth ▸ hid), hoth⟩
  · intro other object loan hobj hloan
    by_cases hid : other = id
    · subst hid
      exact absurd hloan (hrevo loan)
    · rw [hp.object_of_ne hid] at hobj
      rw [hp.held other hid] at hloan
      exact (hs.revokes other object loan hobj hloan).frame rfl fun asid cap entry hent hoth =>
        ⟨entry, hp.caps_of_ne hent (hoth ▸ hid), hoth⟩

/-- The list of waiters stays where it is, and a new object has none. -/
theorem Awaited.published (hs : s.Awaited) (hp : Published s s' id object' destination)
    (hitr : object'.closeInterest = (s.registry.objects id).bind (·.closeInterest))
    (hheld : ∀ t ∈ (s.held id).transfers, ∃ committed, { t with committed } ∈ (s'.held id).transfers) :
    s'.Awaited := by
  have hrest := hp.rest
  simp only [Prod.mk.injEq] at hrest
  obtain ⟨-, hwts, hnext, hcl⟩ := hrest
  have hback : ∀ other object interest, s'.registry.objects other = some object →
      object.closeInterest = some interest →
      ∃ old, s.registry.objects other = some old ∧ old.closeInterest = some interest := by
    intro other object interest hobj hcls
    by_cases hoth : other = id
    · subst hoth
      cases hp.object_self.symm.trans hobj
      exact bind_eq_some_iff.mp (hitr.symm.trans hcls)
    · exact ⟨object, (hp.object_of_ne hoth).symm.trans hobj, hcls⟩
  constructor
  · intro other object interest hobj hcls
    obtain ⟨old, hold, hcls⟩ := hback other object interest hobj hcls
    obtain ⟨hlt, huni⟩ := hs.interests other old interest hold hcls
    refine ⟨hnext ▸ hlt, fun other' object'' hobj'' hcls'' => ?_⟩
    obtain ⟨old', hold', hcls'⟩ := hback other' object'' interest hobj'' hcls''
    exact huni other' old' hold' hcls'
  · intro waiter hwt hopen
    rw [hwts] at hwt
    rw [hcl] at hopen
    obtain ⟨⟨object, hobj, hcls⟩, hin⟩ := hs.waiting waiter hwt hopen
    constructor
    · by_cases hoth : waiter.closer.object = id
      · refine ⟨object', hoth ▸ hp.object_self, ?_⟩
        rw [hitr, ← hoth, hobj]
        exact hcls
      · exact ⟨object, (hp.object_of_ne hoth).trans hobj, hcls⟩
    · refine hin.mono fun t ht _ => ?_
      by_cases hoth : waiter.closer.object = id
      · rw [hoth] at ht ⊢
        exact hheld t ht
      · rw [hp.held _ hoth]
        exact ⟨t.committed, ht⟩

end Publication

variable {pages : ℕ}

theorem Rooted.create (hs : s.Rooted) (hsane : s.Sane)
    (hroot : s.roots destination.handle.id = some destination.handle)
    (hnone : s.registry.objects id = none)
    (hp : Published s s' id { owner := destination.handle.id, pages } destination)
    (hold : ∀ t' ∈ (s'.held id).transfers, ∃ t ∈ (s.held id).transfers, ∃ committed,
      t' = { t with committed })
    (hkept : ∀ t ∈ (s.held id).transfers, ∃ committed, { t with committed } ∈ (s'.held id).transfers)
    (hsrcs : (s'.held id).sources = (s.held id).sources)
    (hrets : (s'.held id).retirements = (s.held id).retirements) : s'.Rooted := by
  have hidle := (hsane id).2 hnone
  have hnms : ∀ asid cap entry, s.cap? asid cap = some entry → entry.object ≠ id := by
    rintro asid cap entry hent rfl
    obtain ⟨_, hobj⟩ := hs.named.exists_object asid cap entry hent
    cases hnone.symm.trans hobj
  have hpl : ∀ asid cap entry, s'.cap? asid cap = some entry → entry.object = id →
      asid = destination.handle.id ∧ cap = destination.authority.cap := by
    intro asid cap entry hent hid
    rcases hp.caps asid cap entry hent with ⟨hasid, hcap, -⟩ | hold
    · exact ⟨hasid, hcap⟩
    · exact absurd hid (hnms asid cap entry hold)
  refine ⟨hs.placed.published hp hroot hold, hs.guarded.published hp hsrcs ?_ ?_,
    hs.named.published hp ?_ ⟨?_, ?_⟩ ?_, hs.awaited.published hp (by simp [hnone]) hkept⟩
  · intro t' ht' source hsrc
    exact (not_source_of_sources_zero (hsrcs.trans hidle.sources) ht' hsrc).elim
  · exact fun asid cap entry _ hold hid => absurd hid (hnms asid cap entry hold)
  · intro cap cap' entry entry' hent hent' hid hid'
    exact (hpl _ _ _ hent' hid').2.trans (hpl _ _ _ hent hid).2.symm
  · intro asid cap href
    cases href
  · exact fun asid cap entry hent hid hne => absurd (hpl asid cap entry hent hid).1 hne
  · intro loan hloan
    rw [hrets, hidle.retirements] at hloan
    cases hloan

variable {rights : MemoryObjectRights} {deliveryPending : Bool}

theorem Rooted.installNew (hs : s.Rooted) (hsane : s.Sane) {s₁ : MemorySystem}
    (hroot : s.roots destination.handle.id = some destination.handle)
    (hinse : s.insertObject id { owner := destination.handle.id, pages } = some s₁)
    (hins : s₁.install destination ⟨id, rights, false, deliveryPending⟩ = some s') : s'.Rooted := by
  obtain ⟨hnone, rfl⟩ := insertObject_eq hinse
  obtain ⟨hobjs, hheld⟩ := install_frame hins
  have hheld : s'.held = s.held := hheld
  obtain ⟨-, -, hhds, hrest⟩ := install_caps hins
  obtain ⟨hfnd, hkept⟩ := install_places hins
  simp only [Prod.mk.injEq] at hrest
  obtain ⟨hrts, hwts, hnext, hcl, hprp⟩ := hrest
  refine hs.create hsane hroot hnone ⟨by simp only [hrts, hwts, hnext, hcl]; rfl,
    fun d hd => hprp ▸ hd, fun asid ns' hns' => ?_, hobjs, fun asid cap entry hent => ?_,
    fun asid cap entry hent _ => hkept asid cap entry hent, fun _ _ => by rw [hheld]⟩
    (fun t ht => ⟨t, by rwa [hheld] at ht, t.committed, rfl⟩)
    (fun t ht => ⟨t.committed, by rwa [hheld]⟩) (by rw [hheld]) (by rw [hheld])
  · exact (hhds asid ns' hns').imp_right fun h => ⟨ns', h, rfl⟩
  · rcases hfnd asid cap entry hent with ⟨hasid, hcap, rfl⟩ | hold
    · exact .inl ⟨hasid, hcap, rfl, rfl⟩
    · exact .inr hold

theorem Rooted.allocate (hs : s.Rooted) (hsane : s.Sane)
    {active : Bool} (hdst : destination ∈ s.preparing)
    (h : s.allocate destination pages active = some s') : s'.Rooted := by
  unfold MemorySystem.allocate at h
  simp only at h
  split at h
  · cases h
    exact hs.finishPreparing destination
  rename_i hres
  simp only [allocateObjectId, bind_eq_ok] at hres
  obtain ⟨_, -, _, -, _, -, next, -, hres⟩ := hres
  cases hres
  have hnumber : Rooted { s with registry := { s.registry with nextObject := next } } :=
    hs.frame { hs.same with }
  split at h
  · cases h
  · cases h
    exact hnumber.finishPreparing destination
  · obtain ⟨_, hinse, h⟩ := bind_eq_some_iff.mp h
    obtain ⟨t₂, hins, h⟩ := bind_eq_some_iff.mp h
    cases h
    have hsane' : Sane (({ s with registry := { s.registry with nextObject := next } }).authorize
        (.batch [⟨destination.authority, none⟩])) := hsane.of_eq rfl rfl
    have hcrea : t₂.Rooted := (hnumber.authorize _).installNew hsane'
      (hs.placed.preparing destination hdst) hinse hins
    exact hcrea.frame { hcrea.same with
      preparing := fun d hd => hcrea.placed.preparing d (mem_of_mem_erase hd) }

/-- The capabilities after the payload of a transfer has been published. -/
structure Delivered (s s' : MemorySystem) (t : PreparedTransfer) : Prop where
  rest : (s'.roots, s'.waiters, s'.nextInterest, s'.closed, s'.preparing) =
    (s.roots, s.waiters, s.nextInterest, s.closed, s.preparing)
  handles : ∀ asid ns', s'.registry.caps asid = some ns' →
    (asid = t.destination.handle.id ∧ ns'.handle = t.destination.handle) ∨
      ∃ ns, s.registry.caps asid = some ns ∧ ns'.handle = ns.handle
  caps : ∀ asid cap entry, s'.cap? asid cap = some entry →
    (asid = t.destination.handle.id ∧ cap = t.destination.authority.cap ∧ entry.object = t.object ∧
      entry.transferInFlight = false) ∨
    (s.cap? asid cap = some entry ∧
      ∀ source rights, t.payload = .move source rights → ¬(asid = source.owner ∧ cap = source.cap))
  kept : ∀ asid cap entry, s.cap? asid cap = some entry →
    (∀ source rights, t.payload = .move source rights → ¬(asid = source.owner ∧ cap = source.cap)) →
    s'.cap? asid cap = some entry
  fresh : (∀ source rights, t.payload ≠ .move source rights) →
    s.cap? t.destination.handle.id t.destination.authority.cap = none

variable {t : PreparedTransfer}

theorem delivered_of_install {object' : Option MemoryObject}
    (hmove : ∀ source rights, t.payload ≠ .move source rights) (hid : payload.object = t.object)
    (hfly : payload.transferInFlight = false)
    (h : (s.setObject t.object object').install t.destination payload = some s') :
    s.Delivered s' t := by
  obtain ⟨hfree, -, hhds, hrest⟩ := install_caps h
  obtain ⟨hfnd, hkept⟩ := install_places h
  refine ⟨hrest, fun asid ns' hns' => ?_, fun asid cap entry hent => ?_,
    fun asid cap entry hent _ => hkept asid cap entry hent, fun _ => hfree⟩
  · exact (hhds asid ns' hns').imp_right fun h => ⟨ns', h, rfl⟩
  · rcases hfnd asid cap entry hent with ⟨hasid, hcap, rfl⟩ | hold
    · exact .inl ⟨hasid, hcap, hid, hfly⟩
    · exact .inr ⟨hold, fun source rights h => absurd h (hmove source rights)⟩

theorem delivered_of_move {source : PreparedSource} {object' : Option MemoryObject}
    (hpay : t.payload = .move source rights) (hns : s.registry.caps source.owner = some ns)
    (hid : payload.object = t.object) (hfly : payload.transferInFlight = false)
    (h : ((s.setCap source.owner ns source.cap none).setObject t.object object').install t.destination
      payload = some s') : s.Delivered s' t := by
  obtain ⟨-, -, hhds, hrest⟩ := install_caps h
  obtain ⟨hfnd, hkept⟩ := install_places h
  refine ⟨hrest, fun asid ns' hns' => ?_, fun asid cap entry hent => ?_, fun asid cap entry hent hnot => ?_,
    fun hmove => absurd hpay (hmove source rights)⟩
  · rcases hhds asid ns' hns' with h | h
    · exact .inl h
    · exact .inr (handles_setCap hns h)
  · rcases hfnd asid cap entry hent with ⟨hasid, hcap, rfl⟩ | hold
    · exact .inl ⟨hasid, hcap, hid, hfly⟩
    · have hold : (s.setCap source.owner ns source.cap none).cap? asid cap = some entry := hold
      rw [cap?_setCap _ hns] at hold
      split at hold
      · cases hold
      · rename_i hnot
        refine .inr ⟨hold, fun source' rights' hpay' => ?_⟩
        cases hpay.symm.trans hpay'
        exact hnot
  · exact hkept asid cap entry ((cap?_setCap _ hns).trans
      ((if_neg (hnot source rights hpay)).trans hent))

theorem publishPayload_delivered
    (h : s.publishPayload deliveryPending t = some s') : s.Delivered s' t := by
  obtain ⟨_, _, _, s₁, -, hid, hfly, hins, rfl, hbef⟩ := publishPayload_install h
  have hd : s.Delivered s₁ t := by
    rcases hbef with ⟨hmove, rfl⟩ | ⟨_, _, _, hpay, hns, rfl⟩
    · exact delivered_of_install hmove hid hfly hins
    · exact delivered_of_move hpay hns hid hfly hins
  exact ⟨hd.rest, hd.handles, hd.caps, hd.kept, hd.fresh⟩

variable {h : Holders} {t' : PreparedTransfer}

theorem mem_commit (ht' : t' ∈ (h.commit t).transfers) :
    t' = { t with committed := true } ∨ t' ∈ h.transfers.erase t :=
  mem_cons.mp ht'

/-- Every transfer stays held; the one that is published is marked. -/
theorem commit_keeps (t' : PreparedTransfer) (ht' : t' ∈ h.transfers) :
    ∃ committed, { t' with committed } ∈ (h.commit t).transfers := by
  by_cases heq : t' = t
  · subst heq
    exact ⟨true, mem_cons_self⟩
  · exact ⟨t'.committed, mem_cons_of_mem _ ((mem_erase_of_ne heq).mpr ht')⟩

theorem commit_old (ht : t ∈ h.transfers) (t' : PreparedTransfer) (ht' : t' ∈ (h.commit t).transfers) :
    ∃ t₀ ∈ h.transfers, ∃ committed, t' = { t₀ with committed } := by
  rcases mem_commit ht' with rfl | hold
  · exact ⟨t, ht, true, rfl⟩
  · exact ⟨t', mem_of_mem_erase hold, t'.committed, rfl⟩

/-- The source of the published transfer is the only one. -/
theorem Rooted.source_commit (hs : s.Rooted)
    (ht : t ∈ (s.held t.object).transfers) (hsrc : t.source?.isSome = true)
    (ht' : t' ∈ ((s.held t.object).commit t).transfers) (hsrc' : t'.source?.isSome = true) :
    t' = { t with committed := true } := by
  rcases mem_commit ht' with rfl | hold
  · rfl
  · rw [hs.source_eq_none ht hsrc hold] at hsrc'
    cases hsrc'

/-- What a move or a loan that is not yet published holds at its source. -/
theorem Delivered.published (hd : s.Delivered s' t)
    (hmv : ∀ source rights, t.payload = .move source rights → ∀ entry,
      s.cap? source.owner source.cap = some entry → entry.object = t.object)
    (hobjs : s'.registry.objects = update s.registry.objects t.object (some object'))
    (hheld : s'.held = update s.held t.object ((s.held t.object).commit t)) :
    Published s s' t.object object' t.destination := by
  have hrest := hd.rest
  simp only [Prod.mk.injEq] at hrest
  obtain ⟨hrts, hwts, hnext, hcl, hprp⟩ := hrest
  refine ⟨by rw [hrts, hwts, hnext, hcl], fun d hmem => hprp ▸ hmem, hd.handles, hobjs,
    fun asid cap entry hent => (hd.caps asid cap entry hent).imp_right And.left,
    fun asid cap entry hent hne => ?_, fun other hne => by rw [hheld, update_of_ne hne]⟩
  refine hd.kept asid cap entry hent fun source rights hpay hpl => ?_
  obtain ⟨rfl, rfl⟩ := hpl
  exact hne (hmv source rights hpay entry hent)

section Payloads

variable {t : PreparedTransfer} {deliveryPending : Bool} (hs : s.Rooted)
include hs

theorem Rooted.publishCopy (hsane : s.Sane) (ht : s.Admitted t)
    (hpay : t.payload = .copy id pages) (h : s.publishPayload deliveryPending t = some s') :
    s'.Rooted := by
  obtain ⟨-, htgt, hroot, -⟩ := hs.placed.transfers t.object t ht.held
  obtain ⟨_, hobjs, hheld, hcopy⟩ := publishPayload_spec h
  simp only [Payload, hpay] at hcopy
  obtain ⟨hnone, rfl⟩ := hcopy
  have hp := (publishPayload_delivered h).published (by simp [hpay]) hobjs hheld
  have hself : s'.held t.object = (s.held t.object).commit t := by rw [hheld, update_self]
  rw [htgt] at hp
  refine hs.create hsane hroot hnone hp (fun t' ht' => ?_) (fun t' ht' => ?_) ?_ ?_
  · rw [hself] at ht'
    exact commit_old ht.held t' ht'
  · rw [hself]
    exact commit_keeps t' ht'
  · rw [hself]
    exact Holders.sources_commit ht.held
  · rw [hself]
    rfl

variable {source : PreparedSource}

/-- What an object has before it is moved or lent. -/
theorem Rooted.source_spec (ht : s.Admitted t) (hcom : t.committed = false)
    (hsrc : t.source? = some source) (hobj : s.registry.objects t.object = some object) :
    object.owner = source.owner ∧ ∃ entry, s.cap? source.owner source.cap = some entry ∧
      entry.object = t.object ∧ entry.transferInFlight = true := by
  obtain ⟨_, entry, hobj', hown, hent⟩ :=
    hs.guarded.fenced t.object t ht.held source hsrc (.inl hcom)
  cases hobj.symm.trans hobj'
  exact ⟨hown, entry, hent⟩

/-- The object of a move or a loan has changed, and its transfer is marked. -/
theorem Rooted.publishSource (hsane : s.Sane) (ht : s.Admitted t) (hsrc : t.source? = some source)
    (hobj : s.registry.objects t.object = some object)
    (hp : Published s s' t.object object' t.destination)
    (hheld : s'.held = update s.held t.object ((s.held t.object).commit t))
    (hsame : (object'.closeInterest, object'.transferRoot) = (object.closeInterest, object.transferRoot))
    (hfenced : t.loan.isSome = true → object'.owner = source.owner ∧
      ∃ entry, s'.cap? source.owner source.cap = some entry ∧ entry.object = t.object ∧
        entry.transferInFlight = true)
    (hgone : ∀ entry, s'.cap? source.owner source.cap = some entry → entry.transferInFlight = true →
      t.loan.isSome = true) (hown : ∀ cap cap' entry entry', s'.cap? object'.owner cap = some entry →
      s'.cap? object'.owner cap' = some entry' → entry.object = t.object → entry'.object = t.object →
      cap' = cap) (hlds : s'.Lends t.object object' object'.lendState) : s'.Rooted := by
  obtain ⟨hcls, htran⟩ := Prod.ext_iff.mp hsame
  obtain ⟨-, -, hroot, -⟩ := hs.placed.transfers t.object t ht.held
  obtain ⟨hsourceRoot, _, hobj₁, hrooted⟩ := hs.guarded.roots t.object t ht.held source hsrc
  cases hobj.symm.trans hobj₁
  obtain ⟨_, hobj₂, hmay⟩ := ht.source (by simp [hsrc])
  cases hobj.symm.trans hobj₂
  have hself : s'.held t.object = (s.held t.object).commit t := by rw [hheld, update_self]
  refine ⟨hs.placed.published hp hroot fun t' ht' => ?_, hs.guarded.published hp ?_ ?_ ?_,
    hs.named.published hp hown hlds ?_, hs.awaited.published hp ?_ fun t' ht' => ?_⟩
  · rw [hself] at ht'
    exact commit_old ht.held t' ht'
  · rw [hself]
    exact Holders.sources_commit ht.held
  · intro t' ht' source' hsrc'
    rw [hself] at ht'
    cases hs.source_commit ht.held (by simp [hsrc]) ht' (by simp [hsrc'])
    cases hsrc.symm.trans hsrc'
    refine ⟨⟨hsourceRoot, htran.trans hrooted⟩, fun hkind => hfenced ?_⟩
    exact hkind.resolve_left nofun
  · intro asid cap entry hent hold hid hfly
    obtain ⟨_, ht₀, _, hsrc₀, rfl, rfl, -⟩ := hs.guarded.flight asid cap entry hold hfly
    rw [hid] at ht₀
    cases hs.eq_of_sources ht.held ht₀ (by simp [hsrc]) (by simp [hsrc₀])
    cases hsrc.symm.trans hsrc₀
    refine ⟨{ t with committed := true }, ?_, source, hsrc, rfl, rfl, .inr (hgone entry hent hfly)⟩
    rw [hself]
    exact mem_cons_self
  · intro loan hloan
    rw [hself] at hloan
    have hnone := ((hsane t.object).1 object hobj).no_retirements hmay.retirementPins
    rw [Holders.commit, hnone] at hloan
    cases hloan
  · rw [hobj]
    exact hcls
  · rw [hself]
    exact commit_keeps t' ht'

theorem Rooted.publishMove (hsane : s.Sane) (ht : s.Admitted t) (hcom : t.committed = false)
    (hpay : t.payload = .move source rights) (h : s.publishPayload deliveryPending t = some s') :
    s'.Rooted := by
  have hsrc : t.source? = some source := by simp [source?, PreparedPayload.source?, hpay]
  obtain ⟨-, htgt, _, -⟩ := hs.placed.transfers t.object t ht.held
  obtain ⟨_, hobjs, hheld, hmove⟩ := publishPayload_spec h
  simp only [Payload, hpay] at hmove
  obtain ⟨object, hobj, rfl⟩ := hmove
  obtain ⟨hown, entry, hent, hid, _⟩ := hs.source_spec ht hcom hsrc hobj
  obtain ⟨_, hobj₁, hmay⟩ := ht.source (by simp [hsrc])
  cases hobj.symm.trans hobj₁
  have hlend := (hmay.whole (by simp [loan, hpay])).1
  have hd := publishPayload_delivered h
  have hp := hd.published (fun source' rights' hpay' entry' hent' => by
    cases hpay.symm.trans hpay'
    cases hent.symm.trans hent'
    exact hid) hobjs hheld
  -- The owner has one capability, which is gone, and nobody else has any.
  have hpl : ∀ asid cap entry', s'.cap? asid cap = some entry' → entry'.object = t.object →
      asid = t.target ∧ cap = t.destination.authority.cap := by
    intro asid cap entry' hent' hid'
    rcases hd.caps asid cap entry' hent' with ⟨hasid, hcap, -⟩ | ⟨hold, hnot⟩
    · exact ⟨hasid.trans htgt.symm, hcap⟩
    · by_cases hasid : asid = object.owner
      · subst hasid
        rw [← hown] at hent
        have hcap := hs.named.owned source.cap cap entry entry' object (hid ▸ hobj) hent hold
          (hid'.trans hid.symm)
        exact absurd ⟨hown, hcap⟩ (hnot source rights hpay)
      · have href := (hs.named.lends t.object object hobj (by simp [hlend])).all asid cap entry' hold
          hid' hasid
        rw [hlend] at href
        cases href
  refine hs.publishSource hsane ht hsrc hobj hp hheld rfl ?_ ?_ ?_ ⟨?_, ?_⟩
  · intro hkind
    simp [loan, hpay] at hkind
  · intro entry' hent' hfly'
    rcases hd.caps _ _ entry' hent' with ⟨-, -, -, hfree⟩ | ⟨-, hnot⟩
    · exact absurd (hfree.symm.trans hfly') Bool.false_ne_true
    · exact absurd ⟨rfl, rfl⟩ (hnot source rights hpay)
  · intro cap cap' entry₁ entry₂ hent₁ hent₂ hid₁ hid₂
    exact (hpl _ _ _ hent₂ hid₂).2.trans (hpl _ _ _ hent₁ hid₁).2.symm
  · intro asid cap href
    rw [hlend] at href
    cases href
  · exact fun asid cap entry' hent' hid' hne => absurd (hpl asid cap entry' hent' hid').1 hne

omit hs in
theorem lookup_cons_eq (borrowers : List (AddressSpaceId × ℕ)) (asid borrower : AddressSpaceId)
    (cap : ℕ) : ((borrower, cap) :: borrowers).lookup asid =
      if asid = borrower then some cap else borrowers.lookup asid := by
  rw [lookup_cons]
  by_cases hasid : asid = borrower
  · simp [hasid]
  · rw [if_neg hasid, beq_false_of_ne hasid]

variable {write : Bool}

omit hs in
/-- A loan names the new capability and all that were lent before. -/
theorem referencesCap_lend {lendState' : LendState}
    (h : t.lend write lendState = some lendState') (hwh : write = true → lendState = .none)
    (asid : AddressSpaceId) (cap : ℕ) : lendState'.referencesCap asid cap = true ↔
      (asid = t.target ∧ cap = t.destination.authority.cap) ∨ lendState.referencesCap asid cap = true := by
  unfold lend at h
  split at h
  · rename_i hwr
    cases h
    rw [hwh hwr]
    simp only [LendState.referencesCap, Bool.and_eq_true, beq_iff_eq]
    tauto
  · cases lendState with
    | none =>
      cases h
      simp only [LendState.referencesCap, beq_iff_eq, lookup_cons_eq, lookup_nil]
      split <;> simp [*, eq_comm]
    | revoking | write => cases h
    | read borrowers =>
      simp only [LendState.publishRead] at h
      split at h
      · cases h
      rename_i hlk
      have hlk := not_isSome_iff_eq_none.mp hlk
      cases h
      simp only [LendState.referencesCap, beq_iff_eq, lookup_cons_eq]
      split
      · rename_i hasid
        simp [hasid, hlk, eq_comm]
      · rename_i hasid
        simp [hasid]

theorem Rooted.publishLoan (hsane : s.Sane) (ht : s.Admitted t) (hcom : t.committed = false)
    (hpay : t.payload = .loan source write) (h : s.publishPayload deliveryPending t = some s') :
    s'.Rooted := by
  have hsrc : t.source? = some source := by simp [source?, PreparedPayload.source?, hpay]
  have hloan : t.loan = some write := by simp [loan, hpay]
  obtain ⟨-, htgt, -, hoth⟩ := hs.placed.transfers t.object t ht.held
  obtain ⟨_, hobjs, hheld, hlent⟩ := publishPayload_spec h
  simp only [Payload, hpay] at hlent
  obtain ⟨object, _, hobj, rfl, hlend⟩ := hlent
  obtain ⟨hown, entry, hent, hid, hfly⟩ := hs.source_spec ht hcom hsrc hobj
  obtain ⟨_, hobj₁, hmay⟩ := ht.source (by simp [hsrc])
  cases hobj.symm.trans hobj₁
  have hne : t.target ≠ object.owner := hown ▸ (hoth source write hpay).symm
  have hwh : write = true → object.lendState = .none := by
    rintro rfl
    exact (hmay.whole (by simp [hloan])).1
  have hact : object.lendState ≠ .revoking := by
    cases write with
    | true => simp [hwh rfl]
    | false =>
      rcases (hmay.read hloan).1 with hnone | hread
      · simp [hnone]
      · rintro hrev
        rw [hrev] at hread
        cases hread
  have hmove : ∀ source' rights, t.payload ≠ .move source' rights := by simp [hpay]
  have hlds := hs.named.lends t.object object hobj hact
  have hrefs := referencesCap_lend hlend hwh
  have hd := publishPayload_delivered h
  have hp := hd.published (fun source' rights' h => absurd h (hmove source' rights')) hobjs hheld
  have hkept : s'.cap? source.owner source.cap = some entry :=
    hd.kept _ _ entry hent fun source' rights' h => absurd h (hmove source' rights')
  refine hs.publishSource hsane ht hsrc hobj hp hheld rfl
    (fun _ => ⟨hown, entry, hkept, hid, hfly⟩) (fun _ _ _ => by simp [hloan]) ?_ ⟨?_, ?_⟩
  · intro cap cap' entry₁ entry₂ hent₁ hent₂ hid₁ hid₂
    -- The owner is not the borrower, so that both are old.
    have hold : ∀ cap entry', s'.cap? object.owner cap = some entry' →
        s.cap? object.owner cap = some entry' := by
      intro cap entry' hent'
      rcases hp.caps _ cap entry' hent' with ⟨hasid, -⟩ | hold
      · exact absurd (htgt.trans hasid.symm) hne
      · exact hold
    exact hs.named.owned cap cap' entry₁ entry₂ object (hid₁ ▸ hobj) (hold cap entry₁ hent₁)
      (hold cap' entry₂ hent₂) (hid₂.trans hid₁.symm)
  · intro asid cap href
    rcases (hrefs asid cap).mp href with ⟨rfl, -⟩ | hold
    · exact hne
    · exact hlds.others asid cap hold
  · intro asid cap entry' hent' hid' hasid
    refine (hrefs asid cap).mpr ?_
    rcases hp.caps asid cap entry' hent' with ⟨hpl, hcap, -⟩ | hold
    · exact .inl ⟨hpl.trans htgt.symm, hcap⟩
    · exact .inr (hlds.all asid cap entry' hold hid' hasid)

theorem Rooted.publishPayload (hsane : s.Sane) (ht : s.Admitted t)
    (hcom : t.committed = false) (h : s.publishPayload deliveryPending t = some s') : s'.Rooted := by
  cases hpay : t.payload with
  | move => exact hs.publishMove hsane ht hcom hpay h
  | copy => exact hs.publishCopy hsane ht hpay h
  | loan => exact hs.publishLoan hsane ht hcom hpay h

variable {transfers : List PreparedTransfer}

omit hs

theorem Rooted.commitTransfers {additional : List Reservation}
    (hs : s.Rooted) (hsane : s.Sane) (hhs : s.HoldsBatch transfers additional)
    {result : Except MemoryObjectError MemorySystem}
    (h : s.commitTransfers transfers additional deliveryPending = some result) :
    (orElse result s).Rooted := by
  cases result with
  | error => exact hs
  | ok =>
    obtain ⟨hval, hfold⟩ := commitTransfers_ok h
    have hsane' : Sane (s.authorize (.batch (publications transfers additional))) := hsane.of_eq rfl rfl
    refine (hsane'.publishPayloads hhs.1 (fun t ht => ?_) (fun hs hsane ht hadm => ?_)
      (hs.authorize _) hfold).2
    · exact admitted_of_validate (hhs.2.1 t ht) (hval t ht)
    · exact hs.publishPayload hsane hadm (validateTransfer_ok (hval _ ht)).1

end Payloads

end MemorySystem

end Charlotte.Kernel
