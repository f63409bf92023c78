import Charlotte.Kernel.MemoryExclusion

/-!
# Closing a capability under transfer

A close of a capability that is in flight waits for the transfer, and expects to find the root of its
own address space in the object. Root and wait are single fields of the object, which every transfer
clears when it is dropped; a committed move that is still held clears those of the new owner.
-/

namespace Charlotte.Kernel

open Lib List Option Function PreparedTransfer

def PreparedTransfer.isMove (t : PreparedTransfer) : Bool :=
  match t.payload with
  | .move _ _ => true
  | _ => false

namespace MemorySystem

variable {s s' : MemorySystem} {id : ℕ}

/-! ### The invariant -/

/-- The capability is fenced by a transfer of the object. -/
def InTransfer (s : MemorySystem) (id : ℕ) (asid : AddressSpaceId) (cap : ℕ) : Prop :=
  ∃ t ∈ (s.held id).transfers, ∃ source, t.source? = some source ∧ source.owner = asid ∧ source.cap = cap

/-- The transfer has the source in flight, which a committed move has no more. -/
def Fencing (s : MemorySystem) (id : ℕ) (asid : AddressSpaceId) (cap : ℕ) : Prop :=
  ∃ t ∈ (s.held id).transfers, ∃ source, t.source? = some source ∧ source.owner = asid ∧
    source.cap = cap ∧ (t.committed = false ∨ t.loan.isSome = true)

variable {asid : AddressSpaceId} {cap : ℕ}

theorem Fencing.inTransfer (h : s.Fencing id asid cap) : s.InTransfer id asid cap := by
  obtain ⟨t, ht, source, hsrc, hown, hcap, -⟩ := h
  exact ⟨t, ht, source, hsrc, hown, hcap⟩

/-- Transfers with a source stay as they are. -/
theorem Fencing.keep (h : s.Fencing id asid cap)
    (htrs : ∀ t ∈ (s.held id).transfers, t.source?.isSome = true → t ∈ (s'.held id).transfers) :
    s'.Fencing id asid cap := by
  obtain ⟨t, ht, source, hsrc, hrest⟩ := h
  exact ⟨t, htrs t ht (by simp [hsrc]), source, hsrc, hrest⟩

/-- Loans name address spaces other than the owner, and every capability but that of the owner. -/
structure Lends (s : MemorySystem) (id : ℕ) (object : MemoryObject) (lendState : LendState) : Prop where
  others : ∀ asid cap, lendState.referencesCap asid cap = true → asid ≠ object.owner
  all : ∀ asid cap entry, s.cap? asid cap = some entry → entry.object = id → asid ≠ object.owner →
    lendState.referencesCap asid cap = true

/-- Namespaces and destinations belong to the current address spaces. -/
structure Placed (s : MemorySystem) : Prop where
  ids : ∀ asid handle, s.roots asid = some handle → handle.id = asid
  handles : ∀ asid ns, s.registry.caps asid = some ns → s.roots asid = some ns.handle
  preparing : ∀ destination ∈ s.preparing, s.roots destination.handle.id = some destination.handle
  transfers : ∀ id, ∀ t ∈ (s.held id).transfers, t.object = id ∧ t.target = t.destination.handle.id ∧
    s.roots t.destination.handle.id = some t.destination.handle ∧
    ∀ source write, t.payload = .loan source write → source.owner ≠ t.target

/-- A transfer has its root in the object and its fence at the source, and an object has one transfer
at a time. -/
structure Guarded (s : MemorySystem) : Prop where
  roots : ∀ id, ∀ t ∈ (s.held id).transfers, ∀ source, t.source? = some source →
    s.roots source.owner = some source.handle ∧
    ∃ object, s.registry.objects id = some object ∧ object.transferRoot = some source.handle
  fenced : ∀ id, ∀ t ∈ (s.held id).transfers, ∀ source, t.source? = some source →
    t.committed = false ∨ t.loan.isSome = true →
    ∃ object entry, s.registry.objects id = some object ∧ object.owner = source.owner ∧
      s.cap? source.owner source.cap = some entry ∧ entry.object = id ∧ entry.transferInFlight = true
  single : ∀ id, (s.held id).sources ≤ 1
  flight : ∀ asid cap entry, s.cap? asid cap = some entry → entry.transferInFlight = true →
    s.Fencing entry.object asid cap

/-- An object is named by one capability of its owner and by its loans. -/
structure Named (s : MemorySystem) : Prop where
  exists_object : ∀ asid cap entry, s.cap? asid cap = some entry →
    ∃ object, s.registry.objects entry.object = some object
  owned : ∀ cap cap' entry entry' object, s.registry.objects entry.object = some object →
    s.cap? object.owner cap = some entry → s.cap? object.owner cap' = some entry' →
    entry'.object = entry.object → cap' = cap
  lends : ∀ id object, s.registry.objects id = some object → object.lendState ≠ .revoking →
    s.Lends id object object.lendState
  revokes : ∀ id object loan, s.registry.objects id = some object →
    .revoke loan ∈ (s.held id).retirements → s.Lends id object loan.prior

/-- A close waits for the transfer of its own capability. -/
structure Awaited (s : MemorySystem) : Prop where
  interests : ∀ id object interest, s.registry.objects id = some object →
    object.closeInterest = some interest → interest < s.nextInterest ∧
    ∀ id' object', s.registry.objects id' = some object' → object'.closeInterest = some interest → id' = id
  waiting : ∀ waiter ∈ s.waiters, waiter.interest ∉ s.closed →
    (∃ object, s.registry.objects waiter.closer.object = some object ∧
      object.closeInterest = some waiter.interest) ∧
    s.InTransfer waiter.closer.object waiter.closer.asid waiter.closer.cap

structure Rooted (s : MemorySystem) : Prop where
  placed : s.Placed
  guarded : s.Guarded
  named : s.Named
  awaited : s.Awaited

/-! ### Frames -/

section Frames

variable {α : Type}

/-- The objects of two systems agree in what `f` reads. -/
def SameObjects (f : MemoryObject → α) (s s' : MemorySystem) : Prop :=
  ∀ id, (s'.registry.objects id).map f = (s.registry.objects id).map f

/-- The capabilities of two systems agree in what `f` reads. -/
def SameCaps (f : MemoryCap → α) (s s' : MemorySystem) : Prop :=
  ∀ asid cap, (s'.cap? asid cap).map f = (s.cap? asid cap).map f

variable {f : MemoryObject → α}

theorem SameObjects.symm (h : SameObjects f s s') : SameObjects f s' s := fun id => (h id).symm

theorem SameCaps.symm {f : MemoryCap → α} (h : SameCaps f s s') : SameCaps f s' s :=
  fun asid cap => (h asid cap).symm

variable {object' : MemoryObject}

theorem SameObjects.get (h : SameObjects f s s') (hobj : s'.registry.objects id = some object') :
    ∃ object, s.registry.objects id = some object ∧ f object = f object' := by
  have hmap := h id
  rw [hobj, map_some, eq_comm] at hmap
  exact map_eq_some_iff.mp hmap

theorem SameCaps.get {f : MemoryCap → α} (h : SameCaps f s s')
    {entry' : MemoryCap} (hent : s'.cap? asid cap = some entry') :
    ∃ entry, s.cap? asid cap = some entry ∧ f entry = f entry' := by
  have hmap := h asid cap
  rw [hent, map_some, eq_comm] at hmap
  exact map_eq_some_iff.mp hmap

theorem sameObjects_update {object : MemoryObject}
    (hobjs : s'.registry.objects = update s.registry.objects id (some object'))
    (hobj : s.registry.objects id = some object) (hf : f object' = f object) : SameObjects f s s' := by
  intro other
  rw [hobjs]
  by_cases hoth : other = id
  · subst hoth
    rw [update_self, hobj, map_some, map_some, hf]
  · rw [update_of_ne hoth]

end Frames

theorem InTransfer.mono (h : s.InTransfer id asid cap) (htrs : ∀ t ∈ (s.held id).transfers,
      t.source?.isSome = true → ∃ committed, { t with committed } ∈ (s'.held id).transfers) :
    s'.InTransfer id asid cap := by
  obtain ⟨t, ht, source, hsrc, hown, hcap⟩ := h
  obtain ⟨_, ht'⟩ := htrs t ht (by simp [hsrc])
  exact ⟨_, ht', source, hsrc, hown, hcap⟩

/-- Copies, which have no source, are not read. -/
theorem Guarded.frame (hs : s.Guarded) (hrts : s'.roots = s.roots)
    (hcaps : SameCaps (fun entry => (entry.object, entry.transferInFlight)) s s')
    (hobjs : SameObjects (fun object => (object.owner, object.transferRoot)) s s')
    (htrs : ∀ id, (s'.held id).transfers.filter (·.source?.isSome) =
      (s.held id).transfers.filter (·.source?.isSome)) : s'.Guarded := by
  have hmem : ∀ {id t}, t.source?.isSome = true →
      (t ∈ (s'.held id).transfers ↔ t ∈ (s.held id).transfers) := by
    intro id t hsrc
    simpa [hsrc] using congrArg (t ∈ ·) (htrs id)
  constructor
  · intro id t ht source hsrc
    rw [hmem (by simp [hsrc])] at ht
    obtain ⟨hroot, _, hobj, htransferRoot⟩ := hs.roots id t ht source hsrc
    obtain ⟨object', hobj', hsame⟩ := hobjs.symm.get hobj
    exact ⟨hrts ▸ hroot, object', hobj', (Prod.ext_iff.mp hsame).2.trans htransferRoot⟩
  · intro id t ht source hsrc hkind
    rw [hmem (by simp [hsrc])] at ht
    obtain ⟨_, _, hobj, hown, hent, hid, hfly⟩ := hs.fenced id t ht source hsrc hkind
    obtain ⟨object', hobj', hsame⟩ := hobjs.symm.get hobj
    obtain ⟨entry', hent', hsame'⟩ := hcaps.symm.get hent
    obtain ⟨hid', hfly'⟩ := Prod.ext_iff.mp hsame'
    exact ⟨object', entry', hobj', (Prod.ext_iff.mp hsame).1.trans hown, hent', hid'.trans hid,
      hfly'.trans hfly⟩
  · intro id
    unfold Holders.sources
    rw [countP_eq_length_filter, htrs id, ← countP_eq_length_filter]
    exact hs.single id
  · intro asid cap entry' hent' hfly'
    obtain ⟨entry, hent, hsame⟩ := hcaps.get hent'
    obtain ⟨hid, hfly⟩ := Prod.ext_iff.mp hsame
    have hin := hs.flight asid cap entry hent (hfly.trans hfly')
    have hid : entry.object = entry'.object := hid
    rw [hid] at hin
    exact hin.keep fun t ht hsrc => (hmem hsrc).mpr ht

variable {object object' : MemoryObject}

theorem Lends.frame {lendState : LendState}
    (h : s.Lends id object lendState) (hown : object.owner = object'.owner)
    (hcaps : ∀ asid cap entry', s'.cap? asid cap = some entry' → entry'.object = id →
      ∃ entry, s.cap? asid cap = some entry ∧ entry.object = id) : s'.Lends id object' lendState := by
  refine ⟨fun asid cap href => hown ▸ h.others asid cap href, fun asid cap entry' hent' hid hne => ?_⟩
  obtain ⟨entry, hent, hobj⟩ := hcaps asid cap entry' hent' hid
  exact h.all asid cap entry hent hobj (hown ▸ hne)

theorem SameCaps.names (h : SameCaps (·.object) s s') (asid : AddressSpaceId) (cap : ℕ)
    (entry' : MemoryCap) (hent : s'.cap? asid cap = some entry') (hid : entry'.object = id) :
    ∃ entry, s.cap? asid cap = some entry ∧ entry.object = id := by
  obtain ⟨entry, hent, hsame⟩ := h.get hent
  exact ⟨entry, hent, hsame.trans hid⟩

theorem Named.frame (hs : s.Named) (hcaps : SameCaps (·.object) s s')
    (hobjs : SameObjects (fun object => (object.owner, object.lendState)) s s')
    (hrevs : ∀ id loan, .revoke loan ∈ (s'.held id).retirements →
      .revoke loan ∈ (s.held id).retirements) : s'.Named := by
  constructor
  · intro asid cap entry' hent'
    obtain ⟨entry, hent, hid⟩ := hcaps.get hent'
    obtain ⟨_, hobj⟩ := hs.exists_object asid cap entry hent
    obtain ⟨object', hobj', -⟩ := hobjs.symm.get hobj
    exact ⟨object', hid ▸ hobj'⟩
  · intro cap cap' entry₁ entry₂ object' hobj' hent₁ hent₂ hsame
    obtain ⟨object, hobj, hown⟩ := hobjs.get hobj'
    obtain ⟨first, hfst, hid₁⟩ := hcaps.get hent₁
    obtain ⟨second, hsec, hid₂⟩ := hcaps.get hent₂
    have hown : object.owner = object'.owner := (Prod.ext_iff.mp hown).1
    rw [← hown] at hfst hsec
    exact hs.owned cap cap' first second object (hid₁ ▸ hobj) hfst hsec
      (hid₂.trans (hsame.trans hid₁.symm))
  · intro id object' hobj' hne
    obtain ⟨object, hobj, hsame⟩ := hobjs.get hobj'
    obtain ⟨hown, hlend⟩ := Prod.ext_iff.mp hsame
    have hlend : object.lendState = object'.lendState := hlend
    rw [← hlend] at hne ⊢
    exact (hs.lends id object hobj hne).frame hown hcaps.names
  · intro id object' loan hobj' hloan
    obtain ⟨object, hobj, hsame⟩ := hobjs.get hobj'
    exact (hs.revokes id object loan hobj (hrevs id loan hloan)).frame
      (Prod.ext_iff.mp hsame).1 hcaps.names

theorem Awaited.frame (hs : s.Awaited)
    (hrest : (s'.waiters, s'.nextInterest, s'.closed) = (s.waiters, s.nextInterest, s.closed))
    (hobjs : SameObjects (·.closeInterest) s s') (htrs : ∀ id, ∀ t ∈ (s.held id).transfers,
      t.source?.isSome = true → ∃ committed, { t with committed } ∈ (s'.held id).transfers) : s'.Awaited := by
  simp only [Prod.mk.injEq] at hrest
  obtain ⟨hwts, hnext, hcl⟩ := hrest
  constructor
  · intro id object' interest hobj' hitr
    obtain ⟨object, hobj, hcls⟩ := hobjs.get hobj'
    obtain ⟨hlt, huni⟩ := hs.interests id object interest hobj (hcls.trans hitr)
    refine ⟨hnext ▸ hlt, fun id₂ object₂' hobj₂' hitr₂ => ?_⟩
    obtain ⟨object₂, hobj₂, hcls₂⟩ := hobjs.get hobj₂'
    exact huni id₂ object₂ hobj₂ (hcls₂.trans hitr₂)
  · intro waiter hwt hopen
    rw [hwts] at hwt
    rw [hcl] at hopen
    obtain ⟨⟨_, hobj, hitr⟩, hin⟩ := hs.waiting waiter hwt hopen
    obtain ⟨object', hobj', hcls⟩ := hobjs.symm.get hobj
    exact ⟨⟨object', hobj', hcls.trans hitr⟩, hin.mono (htrs _)⟩

/-- Nothing changes that the invariant reads. -/
structure SameTransfers (s s' : MemorySystem) : Prop where
  rest : (s'.roots, s'.waiters, s'.nextInterest, s'.closed) = (s.roots, s.waiters, s.nextInterest, s.closed)
  preparing : ∀ destination ∈ s'.preparing, s.roots destination.handle.id = some destination.handle
  handles : ∀ asid ns', s'.registry.caps asid = some ns' →
    ∃ ns, s.registry.caps asid = some ns ∧ ns'.handle = ns.handle
  caps : SameCaps (fun entry => (entry.object, entry.transferInFlight)) s s'
  objects : SameObjects (fun object =>
    (object.owner, object.lendState, object.closeInterest, object.transferRoot)) s s'
  transfers : ∀ id, (s'.held id).transfers = (s.held id).transfers
  revocations : ∀ id loan, .revoke loan ∈ (s'.held id).retirements →
    .revoke loan ∈ (s.held id).retirements

theorem SameObjects.mono {α β : Type} {f : MemoryObject → α} (g : α → β) (h : SameObjects f s s') :
    SameObjects (g ∘ f) s s' := by
  intro id
  rw [← Option.map_map, ← Option.map_map, h id]

theorem SameCaps.mono {α β : Type} {f : MemoryCap → α} (g : α → β) (h : SameCaps f s s') :
    SameCaps (g ∘ f) s s' := by
  intro asid cap
  rw [← Option.map_map, ← Option.map_map, h asid cap]

variable (hs : s.Rooted)
include hs

/-- The fields a step leaves alone are taken from here. -/
theorem Rooted.same : SameTransfers s s :=
  ⟨rfl, hs.placed.preparing, fun _ ns h => ⟨ns, h, rfl⟩, fun _ _ => rfl, fun _ => rfl, fun _ => rfl,
    fun _ _ h => h⟩

theorem Rooted.frame (h : SameTransfers s s') : s'.Rooted := by
  have hrest := h.rest
  simp only [Prod.mk.injEq] at hrest
  obtain ⟨hrts, hwts, hnext, hcl⟩ := hrest
  refine ⟨⟨hrts ▸ hs.placed.ids, fun asid ns' hns' => ?_, fun destination hdst => ?_,
    fun id t ht => ?_⟩, ?_, ?_, ?_⟩
  · obtain ⟨ns, hns, hhd⟩ := h.handles asid ns' hns'
    rw [hrts, hhd]
    exact hs.placed.handles asid ns hns
  · rw [hrts]
    exact h.preparing destination hdst
  · rw [h.transfers id] at ht
    rw [hrts]
    exact hs.placed.transfers id t ht
  · exact hs.guarded.frame hrts h.caps (h.objects.mono fun x => (x.1, x.2.2.2)) fun id => by
      rw [h.transfers]
  · exact hs.named.frame (h.caps.mono Prod.fst) (h.objects.mono fun x => (x.1, x.2.1)) h.revocations
  · refine hs.awaited.frame (by rw [hwts, hnext, hcl]) 
      (h.objects.mono fun (x : AddressSpaceId × LendState × Option ℕ × Option AddressSpaceHandle) =>
        x.2.2.1) ?_
    exact fun id t ht _ => ⟨t.committed, by rw [h.transfers]; exact ht⟩

variable {holders : Holders}

omit hs in
theorem transfers_setHolders (htrs : holders.transfers = (s.held id).transfers)
    (other : ℕ) : ((s.setHolders id holders).held other).transfers = (s.held other).transfers := by
  by_cases hoth : other = id
  · subst hoth
    simp [setHolders, htrs]
  · simp [setHolders, update_of_ne hoth]

omit hs in
/-- A retirement that goes on to other work leaves the revocations that there were. -/
theorem mem_of_proceed {retirements : List RetirementWork} {work next : RetirementWork}
    {loan : LoanRevocation} (hmem : .revoke loan ∈ next :: retirements.erase work)
    (hnext : ∀ loan, next ≠ .revoke loan) : .revoke loan ∈ retirements := by
  rcases mem_cons.mp hmem with heq | hmem
  · exact absurd heq.symm (hnext loan)
  · exact mem_of_mem_erase hmem

/-- What retirements do next is not read, but for revocations. -/
theorem Rooted.hold (htrs : holders.transfers = (s.held id).transfers)
    (hrevs : ∀ loan, .revoke loan ∈ holders.retirements →
      .revoke loan ∈ (s.held id).retirements) : (s.setHolders id holders).Rooted := by
  refine hs.frame { hs.same with
    transfers := transfers_setHolders htrs, revocations := fun other loan hmem => ?_ }
  simp only [setHolders, update_apply] at hmem
  split_ifs at hmem with hoth
  · subst hoth
    exact hrevs loan hmem
  · exact hmem

theorem Rooted.touch (hobj : s.registry.objects id = some object)
    (hcore : (object'.owner, object'.lendState, object'.closeInterest, object'.transferRoot) =
      (object.owner, object.lendState, object.closeInterest, object.transferRoot)) :
    (s.setObject id (some object')).Rooted :=
  hs.frame { hs.same with objects := sameObjects_update rfl hobj hcore }

theorem Rooted.replace (hobj : s.registry.objects id = some object)
    (hcore : (object'.owner, object'.lendState, object'.closeInterest, object'.transferRoot) =
      (object.owner, object.lendState, object.closeInterest, object.transferRoot))
    (htrs : holders.transfers = (s.held id).transfers)
    (hrevs : ∀ loan, .revoke loan ∈ holders.retirements → .revoke loan ∈ (s.held id).retirements) :
    ((s.setObject id (some object')).setHolders id holders).Rooted :=
  (hs.touch hobj hcore).hold htrs hrevs

/-! ### Mappings and pins -/

theorem Rooted.publishMapping (asid : AddressSpaceId) (cap base : ℕ) (writable : Bool) :
    (orElse (s.publishMapping asid cap base writable) s).Rooted := by
  refine orElse_of hs fun _ h => ?_
  obtain ⟨⟨_, _⟩, hadm, rfl⟩ := admitted_ok h
  refine hs.replace (mappingAdmission_ok hadm).1 rfl rfl fun loan hmem => ?_
  simpa using hmem

theorem Rooted.recordMapping (id : ℕ) (asid : AddressSpaceId) (base installed : ℕ)
    (outcome : MapOutcome) : (s.recordMapping id asid base installed outcome).Rooted := by
  have hheld : (s.setHolders id { s.held id with
      retirements := (if outcome = .unmapFailed then .retained none else .release) ::
        (s.held id).retirements.erase (.install asid base) }).Rooted := by
    refine hs.hold rfl fun _ hmem => mem_of_proceed hmem fun loan => ?_
    split <;> nofun
  simp only [MemorySystem.recordMapping]
  split
  · exact hheld
  rename_i hobj
  split
  · exact hheld
  · split
    · exact hheld
    · split
      · exact hheld.touch hobj rfl
      · exact hheld.touch hobj rfl

theorem Rooted.claimUnmap (asid : AddressSpaceId) (cap : ℕ) :
    (orElse (s.claimUnmap asid cap) s).Rooted := by
  refine orElse_of hs fun _ h => ?_
  simp only [MemorySystem.claimUnmap, bind_eq_ok, okOr_eq_ok] at h
  obtain ⟨_, -, _, hobj, _, -, _, -, h⟩ := h
  cases h
  refine hs.replace hobj rfl rfl fun loan hmem => ?_
  simpa using hmem

theorem Rooted.finishUnmap {confirmed : Bool}
    (h : s.finishUnmap id asid confirmed = some s') : s'.Rooted := by
  obtain ⟨_, hobj, h⟩ := bind_eq_some_iff.mp h
  split at h
  · obtain ⟨_, -, h⟩ := bind_eq_some_iff.mp h
    cases h
    exact hs.replace hobj rfl rfl fun _ h => mem_of_proceed h nofun
  · cases h
    exact hs.hold rfl fun _ h => mem_of_proceed h nofun

theorem Rooted.pinForDma (pin : DmaPin) : (orElse (s.pinForDma pin) s).Rooted := by
  refine orElse_of hs fun _ h => ?_
  obtain ⟨⟨_, _⟩, hadm, rfl⟩ := admitted_ok h
  exact hs.replace (dmaAdmission_ok hadm).1 rfl rfl fun _ hmem => hmem

theorem Rooted.pinForCopy (owner : AddressSpaceId) (cap : ℕ) :
    (orElse (s.pinForCopy owner cap) s).Rooted := by
  refine orElse_of hs fun _ h => ?_
  obtain ⟨⟨_, _⟩, hadm, rfl⟩ := admitted_ok h
  exact hs.replace (copyAdmission_ok hadm).1 rfl rfl fun _ hmem => hmem

/-! ### Capabilities -/

variable {asid' : AddressSpaceId} {ns : AddressSpaceCaps}

omit hs in
theorem cap?_setCap {cap' : ℕ} (entry : Option MemoryCap) (hns : s.registry.caps asid = some ns) :
    (s.setCap asid ns cap entry).cap? asid' cap' =
      if asid' = asid ∧ cap' = cap then entry else s.cap? asid' cap' := by
  by_cases hasid : asid' = asid
  · subst hasid
    by_cases hcap : cap' = cap
    · subst hcap
      simp [cap?, setCap]
    · simp [cap?, setCap, hns, hcap]
  · simp [cap?, setCap, hasid]

omit hs in
theorem handles_setCap {ns' : AddressSpaceCaps}
    {entry : Option MemoryCap} (hns : s.registry.caps asid = some ns)
    (h : (s.setCap asid ns cap entry).registry.caps asid' = some ns') :
    ∃ old, s.registry.caps asid' = some old ∧ ns'.handle = old.handle := by
  rcases update_eq_some h with ⟨rfl, ⟨⟩⟩ | ⟨-, h⟩
  · exact ⟨ns, hns, rfl⟩
  · exact ⟨ns', h, rfl⟩

/-- A flag of a capability changes that the invariant does not read. -/
theorem Rooted.deliverOne (asid : AddressSpaceId) (cap : ℕ) : (deliverOne asid s cap).Rooted := by
  unfold MemorySystem.deliverOne
  split
  · exact hs
  rename_i hns
  split
  · exact hs
  rename_i entry hent
  refine hs.frame ⟨rfl, hs.placed.preparing, fun _ _ h => handles_setCap hns h, fun asid' cap' => ?_,
    fun _ => rfl, fun _ => rfl, fun _ _ h => h⟩
  rw [cap?_setCap _ hns]
  split
  · rename_i heq
    have hold : s.cap? asid cap = some entry := by simp [cap?, hns, hent]
    rw [heq.1, heq.2, hold]
    rfl
  · rfl

theorem Rooted.deliverMemory (asid : AddressSpaceId) (caps : List ℕ) :
    (s.deliverMemory asid caps).Rooted := by
  induction caps generalizing s with
  | nil => exact hs
  | cons cap caps ih => exact ih (hs.deliverOne asid cap)

omit hs

/-! ### Preparation -/

/-- The operation does not prepare a transfer of an object that a committed move still holds. -/
def Serial (s : MemorySystem) : MemoryOperation → Prop
  | .prepareSourceTransfer _ owner cap _ _ =>
    match s.cap? owner cap with
    | none => True
    | some entry => ∀ t ∈ (s.held entry.object).transfers, t.committed = true → t.isMove = false
  | _ => True

instance (s : MemorySystem) (operation : MemoryOperation) : Decidable (s.Serial operation) := by
  unfold Serial
  split
  · split <;> infer_instance
  · infer_instance

variable {t : PreparedTransfer}

theorem loan_isSome_of_not_move (hsrc : t.source?.isSome = true)
    (hmove : t.isMove = false) : t.loan.isSome = true := by
  cases hpay : t.payload with
  | move => simp [isMove, hpay] at hmove
  | copy => simp [source?, PreparedPayload.source?, hpay] at hsrc
  | loan => simp [loan, hpay]

variable {owner : AddressSpaceId}

/-- An object whose capability is not in flight has no transfer, unless a move is still held. -/
theorem Rooted.no_sources (hs : s.Rooted) {entry : MemoryCap} (hent : s.cap? owner cap = some entry)
    (hfly : entry.transferInFlight = false)
    (hobj : s.registry.objects entry.object = some object) (hown : object.owner = owner)
    (hser : ∀ t ∈ (s.held entry.object).transfers, t.committed = true → t.isMove = false) :
    (s.held entry.object).sources = 0 := by
  by_contra hne
  obtain ⟨t, ht, hsome⟩ := countP_pos_iff.mp (Nat.pos_of_ne_zero hne)
  obtain ⟨source, hsrc⟩ := isSome_iff_exists.mp hsome
  have hkind : t.committed = false ∨ t.loan.isSome = true := by
    cases hcom : t.committed with
    | false => exact .inl rfl
    | true => exact .inr (loan_isSome_of_not_move hsome (hser t ht hcom))
  obtain ⟨_, entry', hobj', hown', hent', hid, hfly'⟩ :=
    hs.guarded.fenced entry.object t ht source hsrc hkind
  cases hobj.symm.trans hobj'
  subst hown
  rw [← hown'] at hent'
  cases hs.named.owned cap source.cap entry entry' object hobj hent hent' hid
  cases hent.symm.trans hent'
  exact Bool.false_ne_true (hfly.symm.trans hfly')

variable {source : PreparedSource}

theorem not_source_of_sources_zero {h : Holders} (hzero : h.sources = 0)
    (ht : t ∈ h.transfers) (hsrc : t.source? = some source) : False := by
  have hnot := countP_eq_zero.mp hzero t ht
  simp [hsrc] at hnot

section Push

variable {t' : PreparedTransfer} {other : ℕ} (hheld : s'.held = Function.update s.held id
  { s.held id with transfers := t :: (s.held id).transfers })

include hheld

theorem mem_push : t' ∈ (s'.held other).transfers ↔
    (other = id ∧ t' = t) ∨ t' ∈ (s.held other).transfers := by
  rw [hheld]
  by_cases hoth : other = id
  · subst hoth
    simp
  · simp [hoth]

theorem retirements_push : (s'.held other).retirements = (s.held other).retirements := by
  rw [hheld]
  by_cases hoth : other = id
  · subst hoth
    rw [update_self]
  · rw [update_of_ne hoth]

theorem sources_push : (s'.held other).sources =
    (s.held other).sources + if other = id ∧ t.source?.isSome = true then 1 else 0 := by
  rw [hheld]
  by_cases hoth : other = id
  · subst hoth
    simp [Holders.sources, countP_cons]
  · simp [hoth]

end Push

variable {destination : Preparing} {t' : PreparedTransfer}

theorem Rooted.prepareSourceTransfer (hs : s.Rooted)
    (hdst : destination ∈ s.preparing) {loan : Option Bool}
    {readOnly : Bool} (hser : s.Serial (.prepareSourceTransfer destination owner cap loan readOnly))
    (h : s.prepareSourceTransfer destination owner cap loan readOnly = .ok s') : s'.Rooted := by
  obtain ⟨entry, object, t, hprp⟩ := prepareSourceTransfer_ok h
  obtain ⟨hent, hfly, hobj, hown, -⟩ := transferAdmission_ok hprp.admission
  simp only [Serial, hent] at hser
  have hzero := hs.no_sources hent hfly hobj hown hser
  obtain ⟨source, hsrc, hroot, hsowner, hscap, _, hobjs⟩ := hprp.root
  obtain ⟨htgt, hdest, hcom, htobj, _, hloan⟩ := hprp.transfer
  obtain ⟨_, hns, hcaps⟩ := hprp.caps
  have hrest := hprp.rest
  simp only [Prod.mk.injEq] at hrest
  obtain ⟨hrts, hprep, hwts, hnext, hcl⟩ := hrest
  have hcap : ∀ asid' cap', s'.cap? asid' cap' = if asid' = owner ∧ cap' = cap then
      some { entry with transferInFlight := true } else s.cap? asid' cap' := by
    intro asid' cap'
    rw [← cap?_setCap _ hns]
    simp only [cap?, hcaps]
  have hnms : SameCaps (·.object) s s' := by
    intro asid' cap'
    rw [hcap]
    split
    · rename_i heq
      rw [heq.1, heq.2, hent]
      rfl
    · rfl
  have hnew : s'.registry.objects entry.object = some { object with
      copyPins := object.copyPins + 1, transferRoot := some source.handle } := by
    rw [hobjs, update_self]
  have hheld := hprp.held
  have hap : ∀ {id t' source'}, t' ∈ (s.held id).transfers → t'.source? = some source' →
      id ≠ entry.object := by
    rintro _ _ _ ht' hsrc' rfl
    exact not_source_of_sources_zero hzero ht' hsrc'
  refine ⟨⟨hrts ▸ hs.placed.ids, ?_, ?_, ?_⟩, ⟨?_, ?_, ?_, ?_⟩, ?_, ?_⟩
  · intro asid ns' hns'
    rw [hcaps] at hns'
    obtain ⟨old, hold, hhd⟩ := handles_setCap hns hns'
    rw [hrts, hhd]
    exact hs.placed.handles asid old hold
  · intro destination' hmem
    rw [hprep] at hmem
    rw [hrts]
    exact hs.placed.preparing destination' (mem_of_mem_erase hmem)
  · intro id t' ht'
    rw [hrts]
    rcases (mem_push hheld).mp ht' with ⟨rfl, rfl⟩ | ht'
    · refine ⟨htobj, htgt.trans (by rw [hdest]), ?_, fun source' write hpay => ?_⟩
      · rw [hdest]
        exact hs.placed.preparing destination hdst
      · have hsame : source' = source := by
          simpa [source?, PreparedPayload.source?, hpay] using hsrc
        rw [hsame, hsowner, htgt]
        exact hprp.apart (by simp [hloan source' write hpay])
    · exact hs.placed.transfers id t' ht'
  · intro id t' ht' source' hsrc'
    rw [hrts]
    rcases (mem_push hheld).mp ht' with ⟨rfl, rfl⟩ | ht'
    · cases hsrc.symm.trans hsrc'
      exact ⟨hsowner ▸ hroot, _, hnew, rfl⟩
    · rw [hobjs, update_of_ne (hap ht' hsrc')]
      exact hs.guarded.roots id t' ht' source' hsrc'
  · intro id t' ht' source' hsrc' hkind
    rcases (mem_push hheld).mp ht' with ⟨rfl, rfl⟩ | ht'
    · cases hsrc.symm.trans hsrc'
      refine ⟨_, { entry with transferInFlight := true }, hnew, hown.trans hsowner.symm, ?_, rfl, rfl⟩
      rw [hcap, hsowner, hscap, if_pos ⟨rfl, rfl⟩]
    · have hid := hap ht' hsrc'
      obtain ⟨object', entry', hobj', hown', hent', hid', hfly'⟩ :=
        hs.guarded.fenced id t' ht' source' hsrc' hkind
      refine ⟨object', entry', ?_, hown', ?_, hid', hfly'⟩
      · rw [hobjs, update_of_ne hid]
        exact hobj'
      · rw [hcap]
        split
        · rename_i heq
          rw [heq.1, heq.2, hent] at hent'
          cases hent'
          exact absurd hid'.symm hid
        · exact hent'
  · intro id
    rw [sources_push hheld]
    split
    · rename_i hnew
      rw [hnew.1, hzero]
    · exact hs.guarded.single id
  · intro asid' cap' entry' hent' hfly'
    rw [hcap] at hent'
    split at hent'
    · rename_i heq
      cases hent'
      exact ⟨t, (mem_push hheld).mpr (.inl ⟨rfl, rfl⟩), source, hsrc, hsowner.trans heq.1.symm,
        hscap.trans heq.2.symm, .inl hcom⟩
    · exact (hs.guarded.flight asid' cap' entry' hent' hfly').keep fun t' ht' _ =>
        (mem_push hheld).mpr (.inr ht')
  · exact hs.named.frame hnms (sameObjects_update hobjs hobj rfl) fun id loan hmem =>
      retirements_push hheld ▸ hmem
  · exact hs.awaited.frame (by rw [hwts, hnext, hcl]) (sameObjects_update hobjs hobj rfl)
      fun id t' ht' _ => ⟨t'.committed, (mem_push hheld).mpr (.inr ht')⟩

theorem Rooted.finishPreparing (hs : s.Rooted) (destination : Preparing) :
    (s.finishPreparing destination).Rooted :=
  hs.frame { hs.same with
    preparing := fun destination' hmem => hs.placed.preparing destination' (mem_of_mem_erase hmem) }

theorem Rooted.prepareCopy (hs : s.Rooted)
    (hdst : destination ∈ s.preparing) (h : s.prepareCopy destination id = .ok s') : s'.Rooted := by
  obtain ⟨⟨_, t⟩, halc, h⟩ := bind_eq_ok.mp h
  obtain ⟨_, -, halc⟩ := okOr_bind_ok.mp halc
  cases halc
  cases h
  generalize hcopy : (⟨destination.handle.id, destination, .copy s.registry.nextObject
    ((s.registry.objects id).elim 0 (·.pages)), false⟩ : PreparedTransfer) = t
  have hnone : t.source? = none := by
    subst hcopy
    rfl
  refine ⟨⟨hs.placed.ids, hs.placed.handles, ?_, ?_⟩,
    hs.guarded.frame rfl (fun _ _ => rfl) (fun _ => rfl) fun id' => ?_, ?_, ?_⟩
  · exact fun destination' hmem => hs.placed.preparing destination' (mem_of_mem_erase hmem)
  · intro id' t' ht'
    rcases (mem_push rfl).mp ht' with ⟨rfl, rfl⟩ | ht'
    · subst hcopy
      exact ⟨rfl, rfl, hs.placed.preparing destination hdst, nofun⟩
    · exact hs.placed.transfers id' t' ht'
  · by_cases hid : id' = s.registry.nextObject
    · subst hid
      simp [setHolders, hnone]
    · simp [setHolders, hid]
  · refine hs.named.frame (fun _ _ => rfl) (fun _ => rfl) fun id' loan hmem => ?_
    rwa [retirements_push (s := s) rfl] at hmem
  · exact hs.awaited.frame rfl (fun _ => rfl) fun id' t' ht' _ =>
      ⟨t'.committed, (mem_push rfl).mpr (.inr ht')⟩

/-! ### Drop -/

/-- Only the fence of the source is lifted. -/
structure Cleared (s s' : MemorySystem) (source : PreparedSource) : Prop where
  handles : ∀ asid ns', s'.registry.caps asid = some ns' →
    ∃ ns, s.registry.caps asid = some ns ∧ ns'.handle = ns.handle
  names : SameCaps (·.object) s s'
  others : ∀ asid cap entry, s.cap? asid cap = some entry → entry.object ≠ source.entry.object →
    s'.cap? asid cap = some entry
  flight : ∀ asid cap entry', s'.cap? asid cap = some entry' → entry'.transferInFlight = true →
    (∃ entry, s.cap? asid cap = some entry ∧ entry.object = entry'.object ∧
      entry.transferInFlight = true) ∧
    ¬ (asid = source.owner ∧ cap = source.cap ∧ entry'.object = source.entry.object)

theorem clearFence_spec (h : s.clearFence source = some s') : Cleared s s' source := by
  have hsame : ∀ (hnot : ∀ entry, s.cap? source.owner source.cap = some entry →
      entry.object ≠ source.entry.object), Cleared s s source := by
    intro hnot
    refine ⟨fun _ ns h => ⟨ns, h, rfl⟩, fun _ _ => rfl, fun _ _ _ h _ => h, fun asid cap entry hent hfly =>
      ⟨⟨entry, hent, rfl, hfly⟩, ?_⟩⟩
    rintro ⟨rfl, rfl, hobj⟩
    exact hnot entry hent hobj
  unfold clearFence at h
  split at h
  · rename_i hns
    cases h
    exact hsame fun entry hent => by simp [cap?, hns] at hent
  rename_i hns
  split at h
  · rename_i hcap
    cases h
    exact hsame fun entry hent => by simp [cap?, hns, hcap] at hent
  rename_i entry hcap
  have hent : s.cap? source.owner source.cap = some entry := by simp [cap?, hns, hcap]
  split at h
  · rename_i hobj
    cases h
    refine hsame fun entry' hent' => ?_
    cases hent.symm.trans hent'
    exact hobj
  · rename_i hobj
    split at h
    · cases h
    cases h
    have hobj : entry.object = source.entry.object := not_not.mp hobj
    refine ⟨fun _ _ h => handles_setCap hns h, fun asid cap => ?_, fun asid cap entry' hent' hne => ?_,
      fun asid cap entry' hent' hfly' => ?_⟩
    · rw [cap?_setCap _ hns]
      split
      · rename_i heq
        rw [heq.1, heq.2, hent]
        rfl
      · rfl
    · rw [cap?_setCap _ hns, if_neg]
      · exact hent'
      · rintro ⟨rfl, rfl⟩
        cases hent.symm.trans hent'
        exact hne hobj
    · rw [cap?_setCap _ hns] at hent'
      split at hent'
      · cases hent'
        cases hfly'
      · rename_i hne
        exact ⟨⟨entry', hent', rfl, hfly'⟩, fun heq => hne ⟨heq.1, heq.2.1⟩⟩

/-- An object has one transfer with a source. -/
theorem Rooted.source_eq_none (hs : s.Rooted) (ht : t ∈ (s.held id).transfers)
    (hsrc : t.source?.isSome = true) (ht' : t' ∈ (s.held id).transfers.erase t) :
    t'.source? = none := by
  by_contra hne
  have hcnt := Holders.sources_drop ht
  have hpos : 0 < ((s.held id).transfers.erase t).countP (·.source?.isSome) :=
    countP_pos_iff.mpr ⟨t', ht', isSome_iff_ne_none.mpr hne⟩
  have hsg := hs.guarded.single id
  rw [hsrc, Bool.toNat_true] at hcnt
  simp only [Holders.sources] at hcnt hsg
  omega

theorem Rooted.eq_of_sources (hs : s.Rooted) (ht : t ∈ (s.held id).transfers)
    (ht' : t' ∈ (s.held id).transfers) (hsrc : t.source?.isSome = true)
    (hsrc' : t'.source?.isSome = true) : t' = t := by
  by_contra hne
  rw [hs.source_eq_none ht hsrc ((mem_erase_of_ne hne).mpr ht')] at hsrc'
  cases hsrc'

theorem held_dropped (hheld : s'.held = s.dropped t) :
    (∀ other ≠ t.object, s'.held other = s.held other) ∧
      (s'.held t.object).transfers = (s.held t.object).transfers.erase t ∧
      ∀ other, (s'.held other).retirements = (s.held other).retirements := by
  rw [hheld]
  refine ⟨fun other hne => update_of_ne hne .., ?_, fun other => ?_⟩
  · simp [dropped]
  · by_cases hoth : other = t.object
    · subst hoth
      simp [dropped]
    · simp [dropped, update_of_ne hoth]

theorem transfers_dropped (hheld : s'.held = s.dropped t) (id : ℕ) :
    (s'.held id).transfers.Sublist (s.held id).transfers := by
  obtain ⟨hoth, hobj, -⟩ := held_dropped hheld
  by_cases hid : id = t.object
  · subst hid
    rw [hobj]
    exact erase_sublist
  · rw [hoth id hid]

theorem Rooted.dropCopy (hs : s.Rooted) (hd : Dropped s s' t)
    (hnone : t.source? = none) : s'.Rooted := by
  obtain ⟨hreg, hcl⟩ := hd.copy hnone
  obtain ⟨hoth, hobj, hrets⟩ := held_dropped hd.held
  have hrest := hd.rest
  simp only [Prod.mk.injEq] at hrest
  obtain ⟨hrts, hprp, hwts, hnext⟩ := hrest
  have hsrcs : ∀ id, (s'.held id).transfers.filter (·.source?.isSome) =
      (s.held id).transfers.filter (·.source?.isSome) := by
    intro id
    by_cases hid : id = t.object
    · subst hid
      rw [hobj, ← erase_filter, erase_of_not_mem (by simp [hnone])]
    · rw [hoth id hid]
  have hcaps : ∀ asid cap, s'.cap? asid cap = s.cap? asid cap := by
    intro asid cap
    simp only [cap?, hreg]
  refine ⟨⟨hrts ▸ hs.placed.ids, ?_, ?_, ?_⟩, hs.guarded.frame hrts (fun asid cap => by rw [hcaps])
    (fun id => by rw [hreg]) hsrcs, ?_, ?_⟩
  · rw [hreg, hrts]
    exact hs.placed.handles
  · rw [hrts, hprp]
    exact hs.placed.preparing
  · intro id t' ht'
    rw [hrts]
    exact hs.placed.transfers id t' ((transfers_dropped hd.held id).mem ht')
  · refine hs.named.frame (fun asid cap => by rw [hcaps]) (fun id => by rw [hreg]) fun id loan hmem => ?_
    rw [hrets] at hmem
    exact hmem
  · refine hs.awaited.frame (by rw [hwts, hnext, hcl]) (fun id => by rw [hreg]) fun id t' ht' hsrc => ?_
    exact ⟨t'.committed, mem_of_mem_filter (hsrcs id ▸ mem_filter.mpr ⟨ht', hsrc⟩)⟩

/-- A move or a loan that is dropped takes its own fence along, and its own waiters. -/
theorem Rooted.dropSource (hs : s.Rooted) (ht : t ∈ (s.held t.object).transfers)
    (hd : Dropped s s' t) (hsrc : t.source? = some source) : s'.Rooted := by
  obtain ⟨object, fenced, hobj, -, hfencedCaps, ⟨cleared, hclear, hcaps⟩, hobjs, hcl⟩ :=
    hd.source source hsrc
  have hclea := clearFence_spec hclear
  have hid : t.object = source.entry.object := object_eq_of_source hsrc
  obtain ⟨hoth, hheld, hrets⟩ := held_dropped hd.held
  have hrest := hd.rest
  simp only [Prod.mk.injEq] at hrest
  obtain ⟨hrts, hprp, hwts, hnext⟩ := hrest
  have hbef : ∀ asid cap, fenced.cap? asid cap = s.cap? asid cap := by
    intro asid cap
    simp only [cap?, hfencedCaps]
  have haf : ∀ asid cap, s'.cap? asid cap = cleared.cap? asid cap := by
    intro asid cap
    simp only [cap?, hcaps]
  have hsome : t.source?.isSome = true := by simp [hsrc]
  -- The object had no other transfer.
  have hgone : ∀ t' ∈ (s'.held t.object).transfers, t'.source? = none := by
    intro t' ht'
    rw [hheld] at ht'
    exact hs.source_eq_none ht hsome ht'
  have hsub := transfers_dropped hd.held
  have hnms : SameCaps (·.object) s s' := by
    intro asid cap
    rw [haf, ← hbef]
    exact hclea.names asid cap
  refine ⟨⟨hrts ▸ hs.placed.ids, ?_, ?_, ?_⟩, ⟨?_, ?_, ?_, ?_⟩, ?_, ⟨?_, ?_⟩⟩
  · intro asid ns' hns'
    rw [hcaps] at hns'
    obtain ⟨ns, hns, hhd⟩ := hclea.handles asid ns' hns'
    rw [hfencedCaps] at hns
    rw [hrts, hhd]
    exact hs.placed.handles asid ns hns
  · rw [hrts, hprp]
    exact hs.placed.preparing
  · intro id t' ht'
    rw [hrts]
    exact hs.placed.transfers id t' ((hsub id).mem ht')
  · intro id t' ht' source' hsrc'
    by_cases hid' : id = t.object
    · subst hid'
      cases (hgone t' ht').symm.trans hsrc'
    · rw [hrts, hobjs, update_of_ne hid']
      exact hs.guarded.roots id t' ((hsub id).mem ht') source' hsrc'
  · intro id t' ht' source' hsrc' hkind
    by_cases hid' : id = t.object
    · subst hid'
      cases (hgone t' ht').symm.trans hsrc'
    · obtain ⟨object', entry', hobj', hown', hent', hentryId, hfly'⟩ :=
        hs.guarded.fenced id t' ((hsub id).mem ht') source' hsrc' hkind
      refine ⟨object', entry', ?_, hown', ?_, hentryId, hfly'⟩
      · rw [hobjs, update_of_ne hid']
        exact hobj'
      · rw [haf]
        refine hclea.others _ _ entry' ((hbef _ _).trans hent') ?_
        rw [hentryId, ← hid]
        exact hid'
  · exact fun id => (hsub id).countP_le.trans (hs.guarded.single id)
  · intro asid cap entry' hent' hfly'
    rw [haf] at hent'
    obtain ⟨⟨entry, hent, hsame, hfly⟩, hnot⟩ := hclea.flight asid cap entry' hent' hfly'
    rw [hbef] at hent
    obtain ⟨t', ht', source', hsrc', hown', hcap', hkind⟩ :=
      hs.guarded.flight asid cap entry hent hfly
    rw [hsame] at ht'
    have hne : entry'.object ≠ t.object := by
      intro heq
      rw [heq] at ht'
      cases hs.eq_of_sources ht ht' hsome (by simp [hsrc'])
      cases hsrc.symm.trans hsrc'
      exact hnot ⟨hown'.symm, hcap'.symm, heq.trans hid⟩
    refine ⟨t', ?_, source', hsrc', hown', hcap', hkind⟩
    rw [hoth _ hne]
    exact ht'
  · refine hs.named.frame hnms (sameObjects_update hobjs hobj rfl) fun id loan hmem => ?_
    rw [hrets] at hmem
    exact hmem
  · intro id object' interest hobj' hitr
    rw [hobjs] at hobj'
    rw [hobjs, hnext]
    have hold : ∀ id' object', update s.registry.objects t.object (some { object with
        closeInterest := none, copyPins := object.copyPins - 1, transferRoot := none }) id' = some object' →
        object'.closeInterest = some interest → s.registry.objects id' = some object' := by
      intro id' object' hobj' hitr
      rcases update_eq_some hobj' with ⟨-, ⟨⟩⟩ | ⟨-, hobj'⟩
      · cases hitr
      · exact hobj'
    obtain ⟨hlt, huni⟩ := hs.awaited.interests id object' interest (hold id object' hobj' hitr) hitr
    exact ⟨hlt, fun id₂ object₂ hobj₂ hitr₂ => huni id₂ object₂ (hold id₂ object₂ hobj₂ hitr₂) hitr₂⟩
  · intro waiter hwt hopen
    rw [hwts] at hwt
    rw [hcl, mem_append, not_or] at hopen
    obtain ⟨⟨object', hobj', hitr⟩, hwaits⟩ := hs.awaited.waiting waiter hwt hopen.2
    have hne : waiter.closer.object ≠ t.object := by
      intro heq
      rw [heq, hobj] at hobj'
      cases hobj'
      exact hopen.1 (by simp [hitr])
    refine ⟨⟨object', ?_, hitr⟩, ?_⟩
    · rw [hobjs, update_of_ne hne]
      exact hobj'
    · unfold InTransfer
      rw [hoth _ hne]
      exact hwaits

/-- Who is woken has waited for the transfer that is dropped. -/
theorem Rooted.woken (hs : s.Rooted) (ht : t ∈ (s.held t.object).transfers)
    (hd : Dropped s s' t) {waiter : Waiter} (hwt : waiter ∈ s.waiters)
    (hopen : waiter.interest ∉ s.closed) (hcl : waiter.interest ∈ s'.closed) :
    ∃ source, t.source? = some source ∧ t.object = waiter.closer.object ∧
      source.owner = waiter.closer.asid ∧ source.cap = waiter.closer.cap := by
  cases hsrc : t.source? with
  | none =>
    rw [(hd.copy hsrc).2] at hcl
    exact absurd hcl hopen
  | some source =>
    obtain ⟨object, -, hobj, -, -, -, -, hlist⟩ := hd.source source hsrc
    rw [hlist, mem_append] at hcl
    have hitr : object.closeInterest = some waiter.interest := by
      simpa using hcl.resolve_right hopen
    obtain ⟨⟨object', hobj', hitr'⟩, _, ht', _, hsrc', hown, hcap⟩ :=
      hs.awaited.waiting waiter hwt hopen
    have hid := (hs.awaited.interests t.object object _ hobj hitr).2 _ object' hobj' hitr'
    rw [hid] at ht'
    cases hs.eq_of_sources ht ht' (by simp [hsrc]) (by simp [hsrc'])
    cases hsrc.symm.trans hsrc'
    exact ⟨source, rfl, hid.symm, hown, hcap⟩

end MemorySystem

end Charlotte.Kernel
