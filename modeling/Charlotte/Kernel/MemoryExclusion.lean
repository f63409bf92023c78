import Charlotte.Kernel.CapabilitySafety
import Charlotte.Kernel.MemorySystem

/-!
# Exclusive access to memory objects

The counters of an object are the numbers of what is held on it. Each check that admits an access
reads a few of them; together they keep the accesses of an object compatible.
-/

namespace Charlotte.Kernel

open Lib List Option Function PreparedTransfer MemoryObject Bool

/-- How many moves and loans are prepared and not yet dropped. -/
def Holders.sources (h : Holders) : ℕ :=
  h.transfers.countP (·.source?.isSome)

/-- Nobody writes. -/
structure Shared (object : MemoryObject) (h : Holders) : Prop where
  mappings : ∀ mapping ∈ object.mappings, mapping.2.writable = false
  dmaPins : ∀ pin ∈ h.dmaPins, pin.writes = false

/-- The access that a loan leaves to others. -/
def Granted (lendState : LendState) (object : MemoryObject) (h : Holders) : Prop :=
  match lendState with
  | .none | .revoking => True
  | .read _ => Shared object h
  | .write borrower cap =>
    (∀ mapping ∈ object.mappings, mapping.1 = borrower) ∧
      ∀ pin ∈ h.dmaPins, pin.asid = borrower ∧ pin.cap = cap

/-- An object with what is held on it. -/
structure Retained (object : MemoryObject) (h : Holders) : Prop where
  dmaPins : object.dmaPins = h.dmaPins.length
  exclusive : object.exclusiveDmaPins = h.dmaPins.countP (·.exclusive)
  copyPins : object.copyPins = h.copyPins + h.sources
  retirements : object.retirementPins = h.retirements.length
  single : h.retirements.length ≤ 1
  shared : object.copyPins ≠ 0 → Shared object h
  granted : Granted object.lendState object h
  revoking : ∀ work ∈ h.retirements, ∀ loan, work.loan? = some loan →
    object.lendState = .revoking ∧ h.dmaPins = [] ∧ Granted loan.prior object h ∧
      loan.prior ≠ .revoking ∧ loan.prior ≠ .none
  fenced : object.lendState = .revoking → ∃ work ∈ h.retirements, work.loan?.isSome = true
  alone : object.exclusiveDmaPins ≠ 0 → object.mappings = [] ∧ object.lendState = .none ∧
    object.copyPins = 0 ∧ object.dmaPins = 1 ∧ object.retirementPins = 0
  kept : object.destroyWhenUnpinned = false

/-- Nothing is held on an object that does not exist, except what may create it. -/
structure Idle (h : Holders) : Prop where
  dmaPins : h.dmaPins = []
  copyPins : h.copyPins = 0
  sources : h.sources = 0
  retirements : h.retirements = []

namespace Retained

variable {object object' : MemoryObject} {h h' : Holders}

theorem new (hidle : Idle h) (owner : AddressSpaceId) (pages : ℕ) : Retained { owner, pages } h where
  dmaPins := by simp [hidle.dmaPins]
  exclusive := by simp [hidle.dmaPins]
  copyPins := by simp [hidle.copyPins, hidle.sources]
  retirements := by simp [hidle.retirements]
  single := by simp [hidle.retirements]
  shared hne := absurd rfl hne
  granted := trivial
  revoking work hmem := by simp [hidle.retirements] at hmem
  fenced := nofun
  alone hne := absurd rfl hne
  kept := rfl

variable (hr : Retained object h)
include hr

theorem no_dmaPins (hpins : object.dmaPins = 0) : h.dmaPins = [] :=
  length_eq_zero_iff.mp (hr.dmaPins.symm.trans hpins)

theorem no_retirements (hpins : object.retirementPins = 0) : h.retirements = [] :=
  length_eq_zero_iff.mp (hr.retirements.symm.trans hpins)

theorem idle (hdma : object.dmaPins = 0) (hcopy : object.copyPins = 0)
    (hret : object.retirementPins = 0) : Idle h := by
  have hcopies := hr.copyPins
  exact ⟨hr.no_dmaPins hdma, by omega, by omega, hr.no_retirements hret⟩

theorem not_revoking (hpins : object.retirementPins = 0) : object.lendState ≠ .revoking := by
  intro hrev
  obtain ⟨_, hwork, -⟩ := hr.fenced hrev
  rw [hr.no_retirements hpins] at hwork
  cases hwork

variable {work : RetirementWork}

/-- A retirement is the only one. -/
theorem retirements_eq (hmem : work ∈ h.retirements) : h.retirements = [work] := by
  obtain ⟨_, honly⟩ := length_eq_one_iff.mp (le_antisymm hr.single (length_pos_of_mem hmem))
  rw [honly] at hmem ⊢
  rw [mem_singleton.mp hmem]

/-- A loan is being revoked only as long as its revocation lasts, or was given up. -/
theorem not_revoking_of_mem (hwork : work ∈ h.retirements) (hloan : work.loan? = none) :
    object.lendState ≠ .revoking := by
  intro hrev
  obtain ⟨_, hmem, hsome⟩ := hr.fenced hrev
  rw [hr.retirements_eq hwork] at hmem
  cases mem_singleton.mp hmem
  rw [hloan] at hsome
  cases hsome

theorem not_exclusive (hpins : object.dmaPins = 0) : object.exclusiveDmaPins = 0 := by
  rw [hr.exclusive, hr.no_dmaPins hpins]
  rfl

omit hr

end Retained

variable {object object' : MemoryObject} {h h' : Holders}

/-- The mappings were there before, for the same address space and with the same access. -/
def FewerMappings (object' object : MemoryObject) : Prop :=
  ∀ mapping ∈ object'.mappings, ∃ old ∈ object.mappings,
    old.1 = mapping.1 ∧ old.2.writable = mapping.2.writable

theorem FewerMappings.refl : FewerMappings object object :=
  fun mapping hmap => ⟨mapping, hmap, rfl, rfl⟩

theorem Shared.mono (hs : Shared object h) (hmaps : FewerMappings object' object)
    (hdma : h'.dmaPins ⊆ h.dmaPins) : Shared object' h' := by
  refine ⟨fun mapping hmap => ?_, fun pin hpin => hs.dmaPins pin (hdma hpin)⟩
  obtain ⟨old, hold, -, hwr⟩ := hmaps mapping hmap
  exact hwr ▸ hs.mappings old hold

variable {lendState : LendState}

theorem Granted.mono (hg : Granted lendState object h) (hmaps : FewerMappings object' object)
    (hdma : h'.dmaPins ⊆ h.dmaPins) : Granted lendState object' h' := by
  cases lendState with
  | none | revoking => exact trivial
  | read => exact Shared.mono hg hmaps hdma
  | write =>
    refine ⟨fun mapping hmap => ?_, fun pin hpin => hg.2 pin (hdma hpin)⟩
    obtain ⟨old, hold, hasid, -⟩ := hmaps mapping hmap
    exact hasid ▸ hg.1 old hold

variable {asid : AddressSpaceId}

theorem fewerMappings_unmap : FewerMappings (object.unmap asid) object :=
  fun mapping hmap => ⟨mapping, mem_of_mem_filter hmap, rfl, rfl⟩

namespace MemorySystem

/-! ### Systems -/

/-- Every object is retained by what is held on it. -/
def Sane (s : MemorySystem) : Prop :=
  ∀ id, (∀ object, s.registry.objects id = some object → Retained object (s.held id)) ∧
    (s.registry.objects id = none → Idle (s.held id))

variable {s s' : MemorySystem} {id : ℕ}

theorem Sane.of_eq (hs : s.Sane) (hobjs : s'.registry.objects = s.registry.objects)
    (hheld : s'.held = s.held) : s'.Sane := by
  intro id
  rw [hobjs, hheld]
  exact hs id

variable {object : MemoryObject} {holders : Holders}

theorem Sane.change (hs : s.Sane) {changed : Option MemoryObject}
    (hobjs : s'.registry.objects = update s.registry.objects id changed)
    (hheld : s'.held = update s.held id holders)
    (hr : ∀ object, changed = some object → Retained object holders)
    (hidle : changed = none → Idle holders) : s'.Sane := by
  intro other
  rw [hobjs, hheld]
  by_cases hoth : other = id
  · subst hoth
    simp only [update_self]
    exact ⟨hr, hidle⟩
  · simp only [update_of_ne hoth]
    exact hs other

theorem Sane.replace (hs : s.Sane)
    (hobjs : s'.registry.objects = update s.registry.objects id (some object))
    (hheld : s'.held = update s.held id holders) (hr : Retained object holders) : s'.Sane :=
  hs.change hobjs hheld (fun _ h => some.inj h ▸ hr) nofun

theorem Sane.hold (hs : s.Sane)
    (hr : ∀ object, s.registry.objects id = some object → Retained object holders)
    (hidle : s.registry.objects id = none → Idle holders) : (s.setHolders id holders).Sane :=
  hs.change (update_eq_self id _).symm rfl hr hidle

theorem Sane.takeDeferred (hs : s.Sane) (id : ℕ) : s.takeDeferred id = s := by
  unfold MemorySystem.takeDeferred
  cases hobj : s.registry.objects id with
  | none => rfl
  | some object =>
    have hkept := ((hs id).1 object hobj).kept
    simp [hkept]

theorem sane_initial (hs : s.Initial) : s.Sane := by
  intro id
  rw [hs.objects, hs.held]
  exact ⟨fun _ => nofun, fun _ => ⟨rfl, rfl, rfl, rfl⟩⟩

/-! ### Checks -/

variable {asid : AddressSpaceId} {cap : ℕ} {entry : MemoryCap}

theorem lookup_ok (h : s.lookup asid cap = .ok entry) :
    s.cap? asid cap = some entry ∧ entry.deliveryPending = false := by
  obtain ⟨_, hfnd, h⟩ := bind_eq_ok.mp h
  obtain ⟨-, hfnd⟩ := ensure_bind_ok.mp hfnd
  obtain ⟨hpend, h⟩ := ensure_bind_ok.mp h
  cases h
  exact ⟨okOr_eq_ok.mp hfnd, hpend⟩

theorem lookupObject_ok {rights : MemoryObjectRights}
    (h : s.lookupObject asid cap rights = .ok (entry, object)) :
    s.cap? asid cap = some entry ∧ s.registry.objects entry.object = some object := by
  simp only [lookupObject, bind_eq_ok, okOr_eq_ok] at h
  obtain ⟨_, hlk, _, -, _, hobj, h⟩ := h
  cases h
  exact ⟨(lookup_ok hlk).1, hobj⟩

/-- What a mapping may find. -/
structure MayMap (object : MemoryObject) (asid : AddressSpaceId) (writable : Bool) : Prop where
  retirementPins : object.retirementPins = 0
  dmaPins : object.dmaPins = 0
  copyPins : writable = true → object.copyPins = 0
  lendState : object.checkMapLendState asid writable = .ok ()

theorem mappingAdmission_ok {base : ℕ} {writable : Bool}
    (h : s.mappingAdmission asid cap base writable = .ok (id, object)) :
    s.registry.objects id = some object ∧ MayMap object asid writable := by
  simp only [mappingAdmission, bind_eq_ok, ensure_eq_ok] at h
  obtain ⟨⟨_, _⟩, hlk, _, -, _, ⟨-, hret, hdma, hcopy⟩, ⟨⟩, hlend, _, -, h⟩ := h
  cases h
  exact ⟨(lookupObject_ok hlk).2, hret, hdma, hcopy, hlend⟩

/-- What a device may find. -/
structure MayPin (object : MemoryObject) (pin : DmaPin) : Prop where
  retirementPins : object.retirementPins = 0
  notRead : pin.writes = true → object.lendState.isRead = false
  notWritten : object.lendState.writtenByOther pin.asid pin.cap = false
  notExclusive : object.exclusiveDmaPins = 0
  copyPins : pin.writes = true → object.copyPins = 0
  alone : pin.exclusive = true → object.dmaPins = 0 ∧ object.copyPins = 0 ∧
    object.lendState.isActive = false ∧ object.mappings = []

theorem dmaAdmission_ok {pin : DmaPin} (h : s.dmaAdmission pin = .ok (id, object)) :
    s.registry.objects id = some object ∧ MayPin object pin := by
  simp only [dmaAdmission, bind_eq_ok, ensure_eq_ok] at h
  obtain ⟨_, -, ⟨_, _⟩, hlk, _, ⟨-, hret, -, hread, hwr⟩, _, ⟨hexc, hcopy, halone⟩, _, -, h⟩ := h
  cases h
  exact ⟨(lookupObject_ok hlk).2, hret, hread, hwr, hexc, hcopy, halone⟩

theorem copyAdmission_ok {owner : AddressSpaceId} (h : s.copyAdmission owner cap = .ok (id, object)) :
    s.registry.objects id = some object ∧ object.retirementPins = 0 ∧ object.dmaPins = 0 ∧
      (object.lendState = .none ∨ object.lendState.isRead = true) ∧ object.mappedWritable = false := by
  simp only [copyAdmission, bind_eq_ok, ensure_eq_ok] at h
  obtain ⟨⟨_, _⟩, hlk, _, -, _, ⟨-, hret, hlend, hdma⟩, _, hwr, _, -, h⟩ := h
  cases h
  exact ⟨(lookupObject_ok hlk).2, hret, hdma, hlend, hwr⟩

/-- What a move or a loan may find. -/
structure MayTransfer (object : MemoryObject) (loan : Option Bool) (prepared : Bool) : Prop where
  retirementPins : object.retirementPins = 0
  dmaPins : object.dmaPins = 0
  read : loan = some false →
    (object.lendState = .none ∨ object.lendState.isRead = true) ∧ object.mappedWritable = false
  whole : loan ≠ some false → object.lendState = .none ∧
    object.copyPins = (if prepared then 1 else 0) ∧ object.mappings = []

theorem isActive_eq_false : lendState.isActive = false ↔ lendState = .none := by
  cases lendState <;> simp [LendState.isActive]

theorem validateSourceTransfer_ok {target : AddressSpaceId}
    {loan : Option Bool} {prepared : Bool} {u : Unit}
    (h : object.validateSourceTransfer target loan prepared = .ok u) :
    MayTransfer object loan prepared := by
  obtain ⟨⟨-, hret, hdma⟩, h⟩ := ensure_bind_ok.mp h
  by_cases hloan : loan = some false
  · rw [if_pos hloan] at h
    obtain ⟨hlend, h⟩ := ensure_bind_ok.mp h
    obtain ⟨-, h⟩ := ensure_bind_ok.mp h
    obtain ⟨hwr, -⟩ := ensure_bind_ok.mp h
    exact ⟨hret, hdma, fun _ => ⟨hlend, hwr⟩, fun hne => absurd hloan hne⟩
  · rw [if_neg hloan] at h
    obtain ⟨⟨hlend, hcopy⟩, h⟩ := ensure_bind_ok.mp h
    have hmaps := ensure_eq_ok.mp h
    exact ⟨hret, hdma, fun heq => absurd heq hloan, fun _ => ⟨isActive_eq_false.mp hlend, hcopy, hmaps⟩⟩

end MemorySystem

/-! ### Changes of one object -/

open MemorySystem

variable {writable : Bool}

theorem checkMapLendState_read
    {borrowers : List (AddressSpaceId × ℕ)} (hst : object.lendState = .read borrowers)
    (h : object.checkMapLendState asid writable = .ok ()) : writable = false := by
  simp only [checkMapLendState, hst] at h
  cases writable with
  | false => rfl
  | true =>
    split at h
    · cases h
    · split at h <;> cases h

variable {borrower : AddressSpaceId} {cap : ℕ}

theorem checkMapLendState_write (hst : object.lendState = .write borrower cap)
    (h : object.checkMapLendState asid writable = .ok ()) : asid = borrower := by
  simp only [checkMapLendState, hst] at h
  split at h
  · cases h
  · split at h
    · rename_i heq
      exact heq.symm
    · cases h

theorem mem_of_lookup {mapping : MemoryMappingState}
    {mappings : List (AddressSpaceId × MemoryMappingState)} (h : mappings.lookup asid = some mapping) :
    (asid, mapping) ∈ mappings := by
  obtain ⟨_, _, heq, -⟩ := lookup_eq_some_iff.mp h
  rw [heq]
  exact mem_append_right _ mem_cons_self

variable (hr : Retained object h)
include hr

/-- A mapping that was admitted is compatible with the loans and pins. -/
theorem Retained.map {base : ℕ} (hmay : MayMap object asid writable) : Retained { object with
        mappings := (asid, ⟨base, 0, writable⟩) :: object.mappings
        retirementPins := object.retirementPins + 1 }
      { h with retirements := .install asid base :: h.retirements } := by
  have hnone := hr.no_retirements hmay.retirementPins
  have hexc := hr.not_exclusive hmay.dmaPins
  have hdma := hr.no_dmaPins hmay.dmaPins
  refine { hr with
    retirements := by simp [hr.retirements]
    single := by simp [hnone]
    shared := fun hcopy => ⟨fun mapping hmap => ?_, (hr.shared hcopy).dmaPins⟩
    granted := ?_
    revoking := fun work hmem loan hloan => by
      rw [hnone] at hmem
      cases mem_singleton.mp hmem
      cases hloan
    fenced := fun hrev => absurd hrev (hr.not_revoking hmay.retirementPins)
    alone := fun hne => absurd hexc hne }
  · rcases mem_cons.mp hmap with rfl | hmap
    · exact eq_false_iff.mpr fun hw => hcopy (hmay.copyPins hw)
    · exact (hr.shared hcopy).mappings mapping hmap
  · have hgr := hr.granted
    cases hst : object.lendState with
    | none | revoking => exact trivial
    | read =>
      rw [hst] at hgr
      have hread := checkMapLendState_read hst hmay.lendState
      exact ⟨forall_mem_cons.mpr ⟨hread, Shared.mappings hgr⟩, fun pin hpin => by simp [hdma] at hpin⟩
    | write =>
      rw [hst] at hgr
      have hborr := checkMapLendState_write hst hmay.lendState
      exact ⟨forall_mem_cons.mpr ⟨hborr, hgr.1⟩, fun pin hpin => by simp [hdma] at hpin⟩

variable {work : RetirementWork}

/-- The pin of a retirement goes on to other work, and mappings may have gone. -/
theorem Retained.proceed {next : RetirementWork} (hwork : work ∈ h.retirements)
    (hmaps : FewerMappings object' object)
    (hcoun : (object'.dmaPins, object'.exclusiveDmaPins, object'.copyPins, object'.retirementPins,
        object'.destroyWhenUnpinned) =
      (object.dmaPins, object.exclusiveDmaPins, object.copyPins, object.retirementPins,
        object.destroyWhenUnpinned)) (hgr : Granted object'.lendState object' h)
    (hnext : ∀ loan, next.loan? = some loan → work.loan? = some loan ∧ object'.lendState = .revoking)
    (hrev : object'.lendState = .revoking → next.loan?.isSome = true) :
    Retained object' { h with retirements := next :: h.retirements.erase work } := by
  simp only [Prod.mk.injEq] at hcoun
  obtain ⟨hdma, hexc, hcopy, hret, hkept⟩ := hcoun
  have honly := hr.retirements_eq hwork
  have hnil : h.retirements.erase work = [] := by simp [honly]
  have hone : h.retirements.length = 1 := by simp [honly]
  refine ⟨hdma.trans hr.dmaPins, hexc.trans hr.exclusive, hcopy.trans hr.copyPins, ?_, ?_,
    fun hne => ?_, hgr.mono .refl fun _ h => h,
    fun other hmem loan hloan => ?_, fun h => ?_, fun hne => ?_, hkept.trans hr.kept⟩
  · rw [hnil, hret, hr.retirements, hone]
    rfl
  · simp [hnil]
  · exact (hr.shared (hcopy ▸ hne)).mono hmaps fun _ h => h
  · rw [hnil] at hmem
    cases mem_singleton.mp hmem
    obtain ⟨hsame, hlend⟩ := hnext loan hloan
    obtain ⟨-, hpins, hprior, hkind⟩ := hr.revoking work hwork loan hsame
    exact ⟨hlend, hpins, hprior.mono hmaps fun _ h => h, hkind⟩
  · exact ⟨next, mem_cons_self, hrev h⟩
  · -- An exclusive pin excludes a retirement.
    have hpins := (hr.alone (hexc ▸ hne)).2.2.2.2
    rw [hr.retirements, hone] at hpins
    cases hpins

theorem Retained.claim (hpins : object.retirementPins = 0) (hexc : object.exclusiveDmaPins = 0)
    (hwork : work.loan? = none) :
    Retained { object with retirementPins := object.retirementPins + 1 }
      { h with retirements := work :: h.retirements } := by
  have hnone := hr.no_retirements hpins
  refine { hr with
    retirements := by simp [hr.retirements]
    single := by simp [hnone]
    shared := fun hcopy => { hr.shared hcopy with }
    granted := hr.granted.mono .refl fun _ h => h
    revoking := fun other hmem loan hloan => ?_
    fenced := fun hrev => absurd hrev (hr.not_revoking hpins)
    alone := fun hne => absurd hexc hne }
  rw [hnone] at hmem
  cases mem_singleton.mp hmem
  cases hwork.symm.trans hloan

theorem Retained.release (hwork : .release ∈ h.retirements) :
    Retained { object with retirementPins := object.retirementPins - 1 }
      { h with retirements := h.retirements.erase .release } := by
  have hnil : h.retirements.erase .release = [] := by simp [hr.retirements_eq hwork]
  have hlend := hr.not_revoking_of_mem hwork rfl
  refine { hr with
    retirements := ?_
    single := by simp [hnil]
    shared := fun hcopy => { hr.shared hcopy with }
    granted := hr.granted.mono .refl fun _ h => h
    revoking := fun loan hmem => by simp [hnil] at hmem
    fenced := fun hrev => absurd hrev hlend
    alone := fun hne => ?_ }
  · simp only [hnil, length_nil]
    have := hr.retirements
    have := hr.single
    omega
  · obtain ⟨hmaps, hnone, hcopy, hdma, hret⟩ := hr.alone hne
    exact ⟨hmaps, hnone, hcopy, hdma, by simp [hret]⟩

variable {pin : DmaPin}

theorem Retained.pinDma (hmay : MayPin object pin) : Retained { object with
        dmaPins := object.dmaPins + 1
        exclusiveDmaPins := object.exclusiveDmaPins + pin.exclusive.toNat }
      { h with dmaPins := pin :: h.dmaPins } := by
  have hnone := hr.no_retirements hmay.retirementPins
  refine { hr with
    dmaPins := by simp [hr.dmaPins]
    exclusive := ?_
    shared := fun hcopy => ⟨(hr.shared hcopy).mappings, fun pin' hpin' => ?_⟩
    granted := ?_
    revoking := fun loan hmem => by simp [hnone] at hmem
    alone := fun hne => ?_ }
  · rw [hr.exclusive]
    cases hexc : pin.exclusive <;> simp [hexc]
  · rcases mem_cons.mp hpin' with rfl | hpin'
    · exact eq_false_iff.mpr fun hwrites => hcopy (hmay.copyPins hwrites)
    · exact (hr.shared hcopy).dmaPins pin' hpin'
  · have hgr := hr.granted
    have hread := hmay.notRead
    have hwr := hmay.notWritten
    cases hst : object.lendState with
    | none | revoking => exact trivial
    | read =>
      rw [hst] at hgr hread
      have hshared : Shared object h := hgr
      refine ⟨hshared.mappings, forall_mem_cons.mpr ⟨?_, hshared.dmaPins⟩⟩
      exact eq_false_iff.mpr fun hwrites => nomatch hread hwrites
    | write =>
      rw [hst] at hgr hwr
      refine ⟨hgr.1, forall_mem_cons.mpr ⟨?_, hgr.2⟩⟩
      simp only [LendState.writtenByOther, or_eq_false_iff, bne_eq_false_iff_eq] at hwr
      exact ⟨hwr.1.symm, hwr.2.symm⟩
  · -- No pin was exclusive, so this one is, and found the object free.
    have hzero := hmay.notExclusive
    have hexc : pin.exclusive = true := by
      cases hpin : pin.exclusive with
      | true => rfl
      | false => simp [hpin, hzero] at hne
    obtain ⟨hdma, hcopy, hlend, hmaps⟩ := hmay.alone hexc
    exact ⟨hmaps, isActive_eq_false.mp hlend, hcopy, by simp [hdma], hmay.retirementPins⟩

theorem Retained.unpinDma (hpin : pin ∈ h.dmaPins) : Retained { object with
        dmaPins := object.dmaPins - 1
        exclusiveDmaPins := object.exclusiveDmaPins - pin.exclusive.toNat }
      { h with dmaPins := h.dmaPins.erase pin } := by
  refine { hr with
    dmaPins := by rw [length_erase_of_mem hpin, ← hr.dmaPins]
    exclusive := ?_
    shared := fun hcopy => (hr.shared hcopy).mono .refl erase_subset
    granted := hr.granted.mono .refl erase_subset
    revoking := fun work hmem loan hloan => ?_
    alone := fun hne => ?_ }
  · have hcnt := (perm_cons_erase hpin).countP_eq (·.exclusive)
    rw [countP_cons] at hcnt
    rw [hr.exclusive, hcnt]
    cases hexc : pin.exclusive <;> simp
  · rw [(hr.revoking work hmem loan hloan).2.1] at hpin
    cases hpin
  · -- The only pin of an exclusive object is the one that goes.
    have hold : object.exclusiveDmaPins ≠ 0 := fun hzero => hne (by simp [hzero])
    have hone := (hr.alone hold).2.2.2.1
    obtain ⟨_, honly⟩ := length_eq_one_iff.mp (hr.dmaPins.symm.trans hone)
    have hexc := hr.exclusive
    rw [honly] at hpin hexc
    obtain rfl := mem_singleton.mp hpin
    refine absurd ?_ hne
    cases hbool : pin.exclusive <;> simp [hbool, hexc]

theorem Retained.shared_of_not_writable
    (hdma : object.dmaPins = 0) (hwr : object.mappedWritable = false) : Shared object h := by
  refine ⟨fun mapping hmap => ?_, by simp [hr.no_dmaPins hdma]⟩
  exact eq_false_iff.mpr (any_eq_false.mp hwr mapping hmap)

/-- The same accesses, for an object that has the same mappings. -/
theorem Retained.revoking_mono (hmaps : object'.mappings = object.mappings)
    (hdma : h'.dmaPins = h.dmaPins) (work : RetirementWork) (hwork : work ∈ h.retirements)
    (loan : LoanRevocation) (hloan : work.loan? = some loan) :
    object.lendState = .revoking ∧ h'.dmaPins = [] ∧ Granted loan.prior object' h' ∧
      loan.prior ≠ .revoking ∧ loan.prior ≠ .none := by
  obtain ⟨hrev, hnil, hgr, hpri⟩ := hr.revoking work hwork loan hloan
  exact ⟨hrev, hdma.trans hnil, hgr.mono (fun mapping h => ⟨mapping, hmaps ▸ h, rfl, rfl⟩)
    fun _ h => hdma ▸ h, hpri⟩

/-- The wait of a close and the root of a transfer are nobody's access. -/
theorem Retained.relabel (closeInterest : Option ℕ) (transferRoot : Option AddressSpaceHandle) :
    Retained { object with closeInterest, transferRoot } h :=
  { hr with
    shared := fun hcopy => { hr.shared hcopy with }
    granted := hr.granted.mono .refl fun _ h => h
    revoking := hr.revoking_mono rfl rfl }

omit hr

section Copies

variable {copyPins : ℕ} {transfers : List PreparedTransfer}

theorem Retained.addCopy (hr : Retained object h) (hret : object.retirementPins = 0)
    (hdma : object.dmaPins = 0) (hwr : object.mappedWritable = false)
    (hpins : copyPins + Holders.sources { h with transfers } = h.copyPins + h.sources + 1) :
    Retained { object with copyPins := object.copyPins + 1 } { h with copyPins, transfers } := by
  have hnone := hr.no_retirements hret
  refine { hr with
    copyPins := ?_
    shared := fun _ => (hr.shared_of_not_writable hdma hwr).mono .refl fun _ h => h
    granted := hr.granted.mono .refl fun _ h => h
    revoking := fun loan hmem => by simp [hnone] at hmem
    alone := fun hne => absurd (hr.not_exclusive hdma) hne }
  rw [hr.copyPins]
  exact hpins.symm

theorem Retained.dropCopy (hr : Retained object h)
    (hpins : copyPins + Holders.sources { h with transfers } + 1 = h.copyPins + h.sources) :
    Retained { object with copyPins := object.copyPins - 1 } { h with copyPins, transfers } := by
  refine { hr with
    copyPins := ?_
    shared := fun hne => (hr.shared fun hzero => hne ?_).mono .refl fun _ h => h
    granted := hr.granted.mono .refl fun _ h => h
    revoking := hr.revoking_mono rfl rfl
    alone := fun hne => ?_ }
  · rw [hr.copyPins, ← hpins]
    rfl
  · simp [hzero]
  · obtain ⟨hmaps, hlend, hcopy, hdma, hret⟩ := hr.alone hne
    exact ⟨hmaps, hlend, by simp [hcopy], hdma, hret⟩

end Copies

namespace MemorySystem

variable {s s' : MemorySystem} {id : ℕ}

/-! ### Operations -/

variable (hs : s.Sane)
include hs

theorem Sane.setTransfers {transfers : List PreparedTransfer}
    (hsrcs : Holders.sources { s.held id with transfers } = (s.held id).sources) :
    Sane (s.setHolders id { s.held id with transfers }) := by
  refine hs.hold (fun object hobj => ?_) (fun hnone => ?_)
  · have hr := (hs id).1 object hobj
    exact { hr with
      copyPins := hr.copyPins.trans (by rw [hsrcs])
      shared := fun hcopy => { hr.shared hcopy with }
      granted := hr.granted.mono .refl fun _ h => h
      revoking := hr.revoking_mono rfl rfl }
  · have hidle := (hs id).2 hnone
    exact ⟨hidle.dmaPins, hidle.copyPins, hsrcs.trans hidle.sources, hidle.retirements⟩

/-- The object of a retirement exists. -/
theorem Sane.retained_of_mem (hwork : work ∈ (s.held id).retirements) :
    ∃ object, s.registry.objects id = some object ∧ Retained object (s.held id) := by
  cases hobj : s.registry.objects id with
  | none =>
    rw [((hs id).2 hobj).retirements] at hwork
    cases hwork
  | some object => exact ⟨object, rfl, (hs id).1 object hobj⟩

omit hs in
/-- What a live address space asks for, on the object that it is admitted to. -/
theorem admitted_ok {admission : Except MemoryObjectError (ℕ × MemoryObject)}
    {f : ℕ × MemoryObject → MemorySystem} (h : (do
      let handle ← okOr (s.roots asid) MemoryObjectError.addressSpaceMissing
      ensure (s.sameNamespace handle) MemoryObjectError.addressSpaceMissing
      let admitted ← admission
      return f admitted) = .ok s') : ∃ admitted, admission = .ok admitted ∧ s' = f admitted := by
  obtain ⟨_, -, h⟩ := okOr_bind_ok.mp h
  obtain ⟨-, h⟩ := ensure_bind_ok.mp h
  obtain ⟨admitted, hadm, h⟩ := bind_eq_ok.mp h
  cases h
  exact ⟨admitted, hadm, rfl⟩

theorem Sane.publishMapping (asid : AddressSpaceId) (cap base : ℕ) (writable : Bool) :
    (orElse (s.publishMapping asid cap base writable) s).Sane := by
  refine orElse_of hs fun _ h => ?_
  obtain ⟨⟨id, object⟩, hadm, rfl⟩ := admitted_ok h
  obtain ⟨hobj, hmay⟩ := mappingAdmission_ok hadm
  exact hs.replace rfl rfl (((hs id).1 object hobj).map hmay)

theorem Sane.proceed {next : RetirementWork} (hwork : work ∈ (s.held id).retirements)
    (hloan : next.loan? = work.loan?) : Sane (s.setHolders id { s.held id with
      retirements := next :: (s.held id).retirements.erase work }) := by
  obtain ⟨object, hobj, hr⟩ := hs.retained_of_mem hwork
  have hrep := hr.proceed hwork .refl rfl hr.granted
    (fun loan h => ⟨hloan.symm.trans h, (hr.revoking work hwork loan (hloan.symm.trans h)).1⟩)
    (fun hrev => by
      rw [hloan, ← ne_none_iff_isSome]
      exact fun hnone => hr.not_revoking_of_mem hwork hnone hrev)
  exact hs.hold (by simpa [hobj] using hrep) (by simp [hobj])

theorem Sane.recordMapping {base : ℕ}
    (hwork : .install asid base ∈ (s.held id).retirements) (installed : ℕ) (outcome : MapOutcome) :
    (s.recordMapping id asid base installed outcome).Sane := by
  obtain ⟨object, hobj, hr⟩ := hs.retained_of_mem hwork
  have hlend := hr.not_revoking_of_mem hwork rfl
  simp only [MemorySystem.recordMapping, setHolders, hobj]
  generalize hgen : (if outcome = .unmapFailed then RetirementWork.retained none else .release) = next
  have hnone : next.loan? = none := by
    subst hgen
    split <;> rfl
  have hnext : ∀ loan, next.loan? ≠ some loan := by simp [hnone]
  have hheld := hs.proceed hwork hnone
  split
  · exact hheld
  rename_i mapping hmap
  split
  · exact hheld
  split
  · exact hs.replace rfl rfl (hr.proceed hwork fewerMappings_unmap rfl
      (hr.granted.mono fewerMappings_unmap fun _ h => h) (fun loan h => absurd h (hnext loan))
      (fun h => absurd h hlend))
  · have hfew : FewerMappings { object with mappings :=
        (asid, { mapping with installedPages := installed }) :: (object.unmap asid).mappings } object :=
      forall_mem_cons.mpr ⟨⟨(asid, mapping), mem_of_lookup hmap, rfl, rfl⟩, fewerMappings_unmap⟩
    exact hs.replace rfl rfl (hr.proceed hwork hfew rfl (hr.granted.mono hfew fun _ h => h)
      (fun loan h => absurd h (hnext loan)) (fun h => absurd h hlend))

theorem Sane.claimUnmap (asid : AddressSpaceId) (cap : ℕ) :
    (orElse (s.claimUnmap asid cap) s).Sane := by
  refine orElse_of hs fun _ h => ?_
  simp only [MemorySystem.claimUnmap, bind_eq_ok, okOr_eq_ok, ensure_eq_ok] at h
  obtain ⟨entry, -, object, hobj, _, hpins, _, hmapped, h⟩ := h
  cases h
  have hr := (hs entry.object).1 object hobj
  have hexc : object.exclusiveDmaPins = 0 := by
    by_contra hne
    simp [isMapped, (hr.alone hne).1] at hmapped
  exact hs.replace rfl rfl (hr.claim hpins hexc rfl)

theorem Sane.finishUnmap (hwork : .unmap asid ∈ (s.held id).retirements) {confirmed : Bool}
    (h : s.finishUnmap id asid confirmed = some s') : s'.Sane := by
  obtain ⟨_, hobj, hr⟩ := hs.retained_of_mem hwork
  have hlend := hr.not_revoking_of_mem hwork rfl
  simp only [MemorySystem.finishUnmap, hobj, bind_eq_bind, bind_some] at h
  cases confirmed with
  | true =>
    obtain ⟨_, -, h⟩ := bind_eq_some_iff.mp h
    cases h
    exact hs.replace rfl rfl (hr.proceed hwork fewerMappings_unmap rfl
      (hr.granted.mono fewerMappings_unmap fun _ h => h) nofun (fun h => absurd h hlend))
  | false =>
    cases h
    exact hs.proceed hwork rfl

/-- An object and what is held of it change, and it is not destroyed late. -/
theorem Sane.replaceDeferred {holders : Holders} (hr : Retained object holders) :
    let after := (s.setObject id (some object)).setHolders id holders
    (after.takeDeferred id).Sane ∧ after.takeDeferred id = after := by
  intro after
  have hrel : after.Sane := hs.replace rfl rfl hr
  rw [hrel.takeDeferred]
  exact ⟨hrel, rfl⟩

theorem Sane.releasePin (hwork : .release ∈ (s.held id).retirements)
    (h : s.releasePin id = some s') : s'.Sane ∧ ∃ object, s.registry.objects id = some object ∧
      s' = (s.setObject id (some { object with
        retirementPins := object.retirementPins - 1 })).setHolders id
        { s.held id with retirements := (s.held id).retirements.erase .release } := by
  obtain ⟨object, hobj, hr⟩ := hs.retained_of_mem hwork
  simp only [MemorySystem.releasePin, hobj, bind_eq_bind, bind_some] at h
  obtain ⟨_, hpins, h⟩ := bind_eq_some_iff.mp h
  obtain ⟨-, rfl⟩ := checkedSub_eq_some.mp hpins
  cases h
  obtain ⟨hrel, heq⟩ := hs.replaceDeferred (hr.release hwork)
  exact ⟨hrel, object, hobj, heq⟩

theorem Sane.pinForDma (pin : DmaPin) : (orElse (s.pinForDma pin) s).Sane := by
  refine orElse_of hs fun _ h => ?_
  obtain ⟨⟨id, object⟩, hadm, rfl⟩ := admitted_ok h
  obtain ⟨hobj, hmay⟩ := dmaAdmission_ok hadm
  exact hs.replace rfl rfl (((hs id).1 object hobj).pinDma hmay)

theorem Sane.unpinDma (hpin : pin ∈ (s.held id).dmaPins)
    (h : s.unpinDma id pin = some s') : s'.Sane ∧ ∃ object, s.registry.objects id = some object ∧
      s' = (s.setObject id (some { object with
        dmaPins := object.dmaPins - 1
        exclusiveDmaPins := object.exclusiveDmaPins - pin.exclusive.toNat })).setHolders id
        { s.held id with dmaPins := (s.held id).dmaPins.erase pin } := by
  cases hobj : s.registry.objects id with
  | none =>
    rw [((hs id).2 hobj).dmaPins] at hpin
    cases hpin
  | some object =>
    have hr := (hs id).1 object hobj
    simp only [MemorySystem.unpinDma, hobj, bind_eq_bind, bind_some] at h
    obtain ⟨_, hpins, h⟩ := bind_eq_some_iff.mp h
    obtain ⟨-, rfl⟩ := checkedSub_eq_some.mp hpins
    obtain ⟨_, hexc, h⟩ := bind_eq_some_iff.mp h
    obtain ⟨-, rfl⟩ := checkedSub_eq_some.mp hexc
    cases h
    obtain ⟨hrel, heq⟩ := hs.replaceDeferred (hr.unpinDma hpin)
    exact ⟨hrel, object, rfl, heq⟩

theorem Sane.pinForCopy (owner : AddressSpaceId) (cap : ℕ) :
    (orElse (s.pinForCopy owner cap) s).Sane := by
  refine orElse_of hs fun _ h => ?_
  obtain ⟨⟨id, object⟩, hadm, rfl⟩ := admitted_ok h
  obtain ⟨hobj, hret, hdma, -, hwr⟩ := copyAdmission_ok hadm
  refine hs.replace rfl rfl (((hs id).1 object hobj).addCopy hret hdma hwr ?_)
  simp only [Holders.sources]
  omega

theorem Sane.unpinCopy (hpin : (s.held id).copyPins ≠ 0) (h : s.unpinCopy id = some s') :
    s'.Sane ∧ ∃ object, s.registry.objects id = some object ∧
      s' = (s.setObject id (some { object with copyPins := object.copyPins - 1 })).setHolders id
        { s.held id with copyPins := (s.held id).copyPins - 1 } := by
  cases hobj : s.registry.objects id with
  | none => exact absurd ((hs id).2 hobj).copyPins hpin
  | some object =>
    have hr := (hs id).1 object hobj
    simp only [MemorySystem.unpinCopy, hobj, bind_eq_bind, bind_some] at h
    obtain ⟨_, hpins, h⟩ := bind_eq_some_iff.mp h
    obtain ⟨-, rfl⟩ := checkedSub_eq_some.mp hpins
    cases h
    have hret : Retained { object with copyPins := object.copyPins - 1 }
        { s.held id with copyPins := (s.held id).copyPins - 1 } := by
      refine hr.dropCopy ?_
      simp only [Holders.sources]
      omega
    obtain ⟨hrel, heq⟩ := hs.replaceDeferred hret
    exact ⟨hrel, object, rfl, heq⟩

/-! ### Transfers -/

variable {destination : Preparing}

omit hs in
theorem install_frame {payload : MemoryCap} (h : s.install destination payload = some s') :
    s'.registry.objects = s.registry.objects ∧ s'.held = s.held := by
  simp only [install] at h
  split at h
  · cases h
  · cases h
    exact ⟨rfl, rfl⟩

variable {object : MemoryObject}

omit hs in
theorem insertObject_eq (h : s.insertObject id object = some s') :
    s.registry.objects id = none ∧ s' = s.setObject id (some object) := by
  unfold insertObject at h
  split at h
  · cases h
  · rename_i hnone
    cases h
    exact ⟨not_isSome_iff_eq_none.mp hnone, rfl⟩

variable {owner : AddressSpaceId} {pages : ℕ}

theorem Sane.insertObject (h : s.insertObject id { owner, pages } = some s') : s'.Sane := by
  obtain ⟨hnone, rfl⟩ := insertObject_eq h
  exact hs.replace rfl (update_eq_self id s.held).symm (Retained.new ((hs id).2 hnone) _ _)

theorem Sane.allocate {active : Bool}
    (h : s.allocate destination pages active = some s') : s'.Sane := by
  unfold MemorySystem.allocate at h
  simp only at h
  split at h
  · cases h
    exact hs.of_eq rfl rfl
  rename_i hres
  simp only [allocateObjectId, bind_eq_ok] at hres
  obtain ⟨_, -, _, -, _, -, _, -, hres⟩ := hres
  cases hres
  split at h
  · cases h
  · cases h
    exact hs.of_eq rfl rfl
  · obtain ⟨t₁, hinse, h⟩ := bind_eq_some_iff.mp h
    obtain ⟨_, hins, h⟩ := bind_eq_some_iff.mp h
    cases h
    have hs₁ : t₁.Sane := by
      refine Sane.insertObject ?_ hinse
      exact hs.of_eq rfl rfl
    obtain ⟨hobjs, hheld⟩ := install_frame hins
    exact hs₁.of_eq hobjs hheld

omit hs

variable {loan : Option Bool} {cap : ℕ} {readOnly : Bool}

theorem transferAdmission_ok {target : AddressSpaceId} {entry : MemoryCap}
    (h : s.transferAdmission owner cap target loan readOnly = .ok (entry, object)) :
    s.cap? owner cap = some entry ∧ entry.transferInFlight = false ∧
      s.registry.objects entry.object = some object ∧ object.owner = owner ∧
      MayTransfer object loan false := by
  simp only [transferAdmission, bind_eq_ok, ensure_eq_ok, okOr_eq_ok] at h
  obtain ⟨_, hlk, _, hfly, _, -, _, hobj, _, hown, _, hval, _, -, h⟩ := h
  cases h
  exact ⟨(lookup_ok hlk).1, hfly, hobj, hown, validateSourceTransfer_ok hval⟩

/-- Whatever is prepared finds no writer. -/
theorem MayTransfer.not_writable {prepared : Bool}
    (h : MayTransfer object loan prepared) : object.mappedWritable = false := by
  by_cases hloan : loan = some false
  · exact (h.read hloan).2
  · simp [mappedWritable, (h.whole hloan).2.2]

/-- What the preparation of a move or a loan has done. -/
structure PreparedFrom (s s' : MemorySystem) (destination : Preparing) (owner : AddressSpaceId)
    (cap : ℕ) (loan : Option Bool) (readOnly : Bool) (entry : MemoryCap) (object : MemoryObject)
    (t : PreparedTransfer) : Prop where
  admission : s.transferAdmission owner cap destination.handle.id loan readOnly = .ok (entry, object)
  root : ∃ source, t.source? = some source ∧ s.roots owner = some source.handle ∧
    source.owner = owner ∧ source.cap = cap ∧ source.entry = entry ∧
    s'.registry.objects = Function.update s.registry.objects entry.object (some { object with
      copyPins := object.copyPins + 1, transferRoot := some source.handle })
  transfer : t.target = destination.handle.id ∧ t.destination = destination ∧ t.committed = false ∧
    t.object = entry.object ∧ (∀ source rights, t.payload = .move source rights → loan = none) ∧
    ∀ source write, t.payload = .loan source write → loan = some write
  held : s'.held = Function.update s.held entry.object { s.held entry.object with
    transfers := t :: (s.held entry.object).transfers }
  caps : ∃ ns, s.registry.caps owner = some ns ∧
    s'.registry.caps = (s.setCap owner ns cap (some { entry with transferInFlight := true })).registry.caps
  rest : (s'.roots, s'.preparing, s'.waiters, s'.nextInterest, s'.closed) =
    (s.roots, s.preparing.erase destination, s.waiters, s.nextInterest, s.closed)
  apart : loan.isSome = true → owner ≠ destination.handle.id

theorem prepareSourceTransfer_ok
    (h : s.prepareSourceTransfer destination owner cap loan readOnly = .ok s') :
    ∃ entry object t, PreparedFrom s s' destination owner cap loan readOnly entry object t := by
  simp only [prepareSourceTransfer, bind_eq_ok, ensure_eq_ok, okOr_eq_ok] at h
  obtain ⟨_, hap, handle, hroot, _, -, ⟨entry, object⟩, hadm, h⟩ := h
  split at h
  · cases h
  rename_i escrow _ _
  obtain ⟨ns, hns, h⟩ := okOr_bind_ok.mp h
  cases h
  refine ⟨entry, object, _, hadm, ⟨⟨owner, handle, cap, entry, escrow⟩, ?_, hroot, rfl, rfl, rfl,
    rfl⟩, ⟨rfl, rfl, rfl, ?_, ?_, ?_⟩, rfl, ⟨ns, hns, rfl⟩, rfl, hap⟩
  · cases loan <;> rfl
  · cases loan <;> rfl
  · cases loan with
    | none => exact fun _ _ _ => rfl
    | some => rintro _ _ ⟨⟩
  · cases loan with
    | none => rintro _ _ ⟨⟩
    | some =>
      rintro _ _ ⟨⟩
      rfl

theorem Sane.prepareSourceTransfer (hs : s.Sane) (destination : Preparing) (owner : AddressSpaceId)
    (cap : ℕ) (loan : Option Bool) (readOnly : Bool) :
    (orElse (s.prepareSourceTransfer destination owner cap loan readOnly)
      (s.finishPreparing destination)).Sane := by
  refine orElse_of (hs.of_eq rfl rfl) fun _ h => ?_
  obtain ⟨_, object, _, hprp⟩ := prepareSourceTransfer_ok h
  obtain ⟨-, -, hobj, -, hmay⟩ := transferAdmission_ok hprp.admission
  obtain ⟨source, hsrc, -, -, -, -, hobjs⟩ := hprp.root
  refine hs.replace hobjs hprp.held ((((hs _).1 object hobj).addCopy hmay.retirementPins
    hmay.dmaPins hmay.not_writable ?_).relabel object.closeInterest (some source.handle))
  simp only [Holders.sources, countP_cons, hsrc, isSome_some, if_pos]
  omega

theorem Sane.prepareCopy (hs : s.Sane) (destination : Preparing) (id : ℕ) :
    (orElse (s.prepareCopy destination id) (s.finishPreparing destination)).Sane := by
  refine orElse_of (hs.of_eq rfl rfl) fun _ h => ?_
  obtain ⟨⟨object, t⟩, halc, h⟩ := bind_eq_ok.mp h
  obtain ⟨_, -, halc⟩ := okOr_bind_ok.mp halc
  cases halc
  cases h
  exact hs.setTransfers (countP_cons_of_neg false_ne_true)

end MemorySystem

/-! ### Commits -/

/-- A move, or a loan with its kind. -/
def PreparedTransfer.loan (t : PreparedTransfer) : Option Bool :=
  match t.payload with
  | .loan _ write => some write
  | _ => none

namespace Holders

variable {h : Holders} {t t' : PreparedTransfer}

def commit (h : Holders) (t : PreparedTransfer) : Holders :=
  { h with transfers := { t with committed := true } :: h.transfers.erase t }

theorem sources_commit (ht : t ∈ h.transfers) : (h.commit t).sources = h.sources := by
  have hcnt := (perm_cons_erase ht).countP_eq (·.source?.isSome)
  simp only [sources, commit]
  rw [hcnt, countP_cons, countP_cons]
  rfl

theorem two_le_sources (ht : t ∈ h.transfers) (ht' : t' ∈ h.transfers) (hne : t' ≠ t)
    (hsrc : t.source?.isSome = true) (hsrc' : t'.source?.isSome = true) : 2 ≤ h.sources := by
  have hcnt := (perm_cons_erase ht).countP_eq (·.source?.isSome)
  have hrest : 0 < (h.transfers.erase t).countP (·.source?.isSome) :=
    countP_pos_iff.mpr ⟨t', (mem_erase_of_ne hne).mpr ht', hsrc'⟩
  rw [countP_cons, if_pos hsrc] at hcnt
  simp only [sources]
  omega

theorem sources_drop (ht : t ∈ h.transfers) :
    Holders.sources { h with transfers := h.transfers.erase t } + t.source?.isSome.toNat = h.sources := by
  have hcnt := (perm_cons_erase ht).countP_eq (·.source?.isSome)
  simp only [sources]
  cases hsome : t.source?.isSome <;> simp [hsome] at hcnt ⊢ <;> omega

end Holders

/-- The payload of a transfer moves the object or lends it. -/
theorem Retained.commit (hr : Retained object h)
    {t : PreparedTransfer} (ht : t ∈ h.transfers) (hret : object.retirementPins = 0)
    (hdma : object.dmaPins = 0) (owner : AddressSpaceId)
    (hgr : Granted lendState object h) (hlend : lendState ≠ .revoking) :
    Retained { object with owner, lendState } (h.commit t) := by
  have hnone := hr.no_retirements hret
  refine { hr with
    copyPins := by rw [Holders.sources_commit ht]; exact hr.copyPins
    shared := fun hcopy => { hr.shared hcopy with }
    granted := hgr.mono .refl fun _ h => h
    revoking := fun work hmem => ?_
    fenced := fun hrev => absurd hrev hlend
    alone := fun hne => absurd (hr.not_exclusive hdma) hne }
  rw [Holders.commit, hnone] at hmem
  cases hmem

theorem publishRead_eq {lendState' : LendState}
    (h : lendState.publishRead borrower cap = some lendState') :
    ∃ borrowers, lendState' = .read borrowers := by
  cases lendState with
  | none => exact ⟨_, (some.inj h).symm⟩
  | revoking => cases h
  | read =>
    simp only [LendState.publishRead] at h
    split at h
    · cases h
    · exact ⟨_, (some.inj h).symm⟩
  | write => cases h

namespace MemorySystem

variable {s s' : MemorySystem} {id : ℕ} {t t' : PreparedTransfer} {deliveryPending : Bool}

/-- What becomes of the object of a transfer. -/
def Payload (s : MemorySystem) (t : PreparedTransfer) (object' : MemoryObject) : Prop :=
  match t.payload with
  | .copy _ pages => s.registry.objects t.object = none ∧ object' = { owner := t.target, pages }
  | .move _ _ => ∃ object, s.registry.objects t.object = some object ∧
      object' = { object with owner := t.target }
  | .loan _ write => ∃ object lendState, s.registry.objects t.object = some object ∧
      object' = { object with lendState } ∧
      t.lend write object.lendState = some lendState

/-- What is published goes into the system without the source of a move. -/
theorem publishPayload_install (h : s.publishPayload deliveryPending t = some s') :
    ∃ s₀ object' payload s₁, s.Payload t object' ∧ payload.object = t.object ∧
      payload.transferInFlight = false ∧
      (s₀.setObject t.object (some object')).install t.destination payload = some s₁ ∧
      s' = s₁.markCommitted t ∧ ((∀ source rights, t.payload ≠ .move source rights) ∧ s₀ = s ∨
        ∃ source rights ns, t.payload = .move source rights ∧
          s.registry.caps source.owner = some ns ∧ s₀ = s.setCap source.owner ns source.cap none) := by
  unfold publishPayload at h
  simp only [Payload, object, PreparedPayload.object]
  cases hpay : t.payload with
  | move source rights =>
    simp only [hpay, bind_eq_bind, bind_eq_some_iff] at h
    obtain ⟨ns, hns, _, -, object, hobj, s₁, hins, h⟩ := h
    cases h
    refine ⟨_, _, _, s₁, ⟨object, hobj, rfl⟩, ?_, ?_, hins, rfl,
      .inr ⟨source, rights, ns, rfl, hns, rfl⟩⟩ <;> rfl
  | copy =>
    simp only [hpay] at h
    obtain ⟨_, hinse, h⟩ := bind_eq_some_iff.mp h
    obtain ⟨s₂, hins, h⟩ := bind_eq_some_iff.mp h
    cases h
    obtain ⟨hnone, rfl⟩ := insertObject_eq hinse
    exact ⟨s, _, _, s₂, ⟨hnone, rfl⟩, rfl, rfl, hins, rfl, .inl ⟨nofun, rfl⟩⟩
  | loan =>
    simp only [hpay] at h
    obtain ⟨object, hobj, h⟩ := bind_eq_some_iff.mp h
    obtain ⟨lendState, hlend, h⟩ := bind_eq_some_iff.mp h
    obtain ⟨s₁, hins, h⟩ := bind_eq_some_iff.mp h
    cases h
    refine ⟨s, _, _, s₁, ⟨object, lendState, hobj, rfl, hlend⟩, ?_, ?_, hins, rfl,
      .inl ⟨nofun, rfl⟩⟩ <;> rfl

theorem publishPayload_spec (h : s.publishPayload deliveryPending t = some s') :
    ∃ object', s'.registry.objects = update s.registry.objects t.object (some object') ∧
      s'.held = update s.held t.object ((s.held t.object).commit t) ∧ s.Payload t object' := by
  obtain ⟨s₀, object', _, _, hpay, -, -, hins, rfl, hbef⟩ := publishPayload_install h
  obtain ⟨hobjs, hheld⟩ := install_frame hins
  have hsame : s₀.registry.objects = s.registry.objects ∧ s₀.held = s.held := by
    rcases hbef with ⟨-, rfl⟩ | ⟨source, rights, ns, -, -, rfl⟩ <;> exact ⟨rfl, rfl⟩
  refine ⟨object', hobjs.trans ?_, ?_, hpay⟩
  · simp only [setObject, hsame.1]
  · simp only [markCommitted, setHolders, hheld]
    simp only [setObject, hsame.2]
    rfl

/-- A transfer that is held and has passed the checks of a commit. -/
structure Admitted (s : MemorySystem) (t : PreparedTransfer) : Prop where
  held : t ∈ (s.held t.object).transfers
  source : t.source?.isSome = true → ∃ object, s.registry.objects t.object = some object ∧
    MayTransfer object t.loan true

variable {u : Unit} {source : PreparedSource}

theorem validateSource_ok {target : AddressSpaceId} {loan : Option Bool}
    (h : s.validateSource source target loan = .ok u) :
    ∃ stored object, s.cap? source.owner source.cap = some stored ∧
      s.registry.objects source.entry.object = some object ∧ stored.object = source.entry.object ∧
      stored.transferInFlight = true ∧ object.owner = source.owner ∧ MayTransfer object loan true := by
  simp only [validateSource, bind_eq_ok, okOr_eq_ok, ensure_eq_ok] at h
  obtain ⟨_, -, stored, hsto, object, hobj, _, ⟨hsame, -, hfly, hown⟩, h⟩ := h
  exact ⟨stored, object, hsto, hobj, hsame, hfly, hown, validateSourceTransfer_ok h⟩

theorem validateTransfer_ok (h : s.validateTransfer t = .ok u) :
    t.committed = false ∧ ∀ source, t.source? = some source →
      s.validateSource source t.target t.loan = .ok () := by
  obtain ⟨⟨hcom, -⟩, h⟩ := ensure_bind_ok.mp h
  obtain ⟨-, h⟩ := ensure_bind_ok.mp h
  refine ⟨hcom, fun source hsrc => ?_⟩
  cases hpay : t.payload with
  | copy =>
    simp [source?, PreparedPayload.source?, hpay] at hsrc
  | move | loan =>
    simp only [source?, PreparedPayload.source?, hpay, some.injEq] at hsrc
    subst hsrc
    simpa [hpay, loan] using h

theorem object_eq_of_source (h : t.source? = some source) : t.object = source.entry.object := by
  unfold source? PreparedPayload.source? at h
  unfold object PreparedPayload.object
  split at h
  · cases h
    simp
  · cases h
    simp
  · cases h

theorem admitted_of_validate (hheld : t ∈ (s.held t.object).transfers)
    (h : s.validateTransfer t = .ok u) : s.Admitted t := by
  refine ⟨hheld, fun hsrc => ?_⟩
  obtain ⟨source, hsrc⟩ := isSome_iff_exists.mp hsrc
  obtain ⟨-, object, -, hobj, -, -, -, hmay⟩ := validateSource_ok ((validateTransfer_ok h).2 source hsrc)
  exact ⟨object, (object_eq_of_source hsrc) ▸ hobj, hmay⟩

/-- Anything but a read loan is the only source that is prepared on its object. -/
theorem Sane.whole_alone (hs : s.Sane) (ht : s.Admitted t) (ht' : t' ∈ (s.held t.object).transfers)
    (hne : t' ≠ t) (hsrc : t.source?.isSome = true) (hsrc' : t'.source?.isSome = true) :
    t.loan = some false := by
  obtain ⟨object, hobj, hmay⟩ := ht.source hsrc
  by_contra hloan
  have hone := (hmay.whole hloan).2.1
  have hcopies := ((hs t.object).1 object hobj).copyPins
  have htwo := Holders.two_le_sources ht.held ht' hne hsrc hsrc'
  simp only [if_true] at hone
  omega

theorem Sane.publishPayload (hs : s.Sane) (ht : s.Admitted t)
    (h : s.publishPayload deliveryPending t = some s') : s'.Sane := by
  obtain ⟨_, hobjs, hheld, hpay⟩ := publishPayload_spec h
  refine hs.replace hobjs hheld ?_
  have hsrc := ht.source
  cases hcase : t.payload with
  | copy =>
    simp only [Payload, hcase] at hpay
    obtain ⟨hnone, rfl⟩ := hpay
    have hidle := (hs t.object).2 hnone
    have hidle' : Idle ((s.held t.object).commit t) :=
      ⟨hidle.dmaPins, hidle.copyPins, (Holders.sources_commit ht.held).trans hidle.sources,
        hidle.retirements⟩
    exact Retained.new hidle' _ _
  | move =>
    simp only [Payload, hcase] at hpay
    obtain ⟨object, hobj, rfl⟩ := hpay
    obtain ⟨_, hsame, hmay⟩ := hsrc (by simp [source?, PreparedPayload.source?, hcase])
    cases hobj.symm.trans hsame
    have hr := (hs t.object).1 object hobj
    have hlend := (hmay.whole (by simp [loan, hcase])).1
    exact hr.commit ht.held hmay.retirementPins hmay.dmaPins t.target hr.granted (by simp [hlend])
  | loan source write =>
    simp only [Payload, hcase] at hpay
    obtain ⟨object, _, hobj, rfl, hlendState⟩ := hpay
    obtain ⟨_, hsame, hmay⟩ := hsrc (by simp [source?, PreparedPayload.source?, hcase])
    cases hobj.symm.trans hsame
    have hr := (hs t.object).1 object hobj
    have hdma := hr.no_dmaPins hmay.dmaPins
    cases write with
    | true =>
      cases hlendState
      have hmaps := (hmay.whole (by simp [loan, hcase])).2.2
      refine hr.commit ht.held hmay.retirementPins hmay.dmaPins object.owner ?_ nofun
      exact ⟨by simp [hmaps], by simp [hdma]⟩
    | false =>
      obtain ⟨_, rfl⟩ := publishRead_eq hlendState
      refine hr.commit ht.held hmay.retirementPins hmay.dmaPins object.owner ?_ nofun
      exact hr.shared_of_not_writable hmay.dmaPins hmay.not_writable

/-- The rest of a batch stays admitted. -/
theorem Sane.admitted_publishPayload (hs : s.Sane) (ht : s.Admitted t) (ht' : s.Admitted t')
    (hne : t' ≠ t) (h : s.publishPayload deliveryPending t = some s') : s'.Admitted t' := by
  obtain ⟨_, hobjs, hheld, hpay⟩ := publishPayload_spec h
  by_cases hsame : t'.object = t.object
  · have hmem' : t' ∈ (s.held t.object).transfers := hsame ▸ ht'.held
    constructor
    · rw [hheld, hsame, update_self]
      exact mem_cons_of_mem _ ((mem_erase_of_ne hne).mpr hmem')
    · intro hsrc'
      obtain ⟨_, hobj, hmay⟩ := ht'.source hsrc'
      rw [hsame] at hobj
      rw [hobjs, hsame, update_self]
      cases hcase : t.payload with
      | copy =>
        simp only [Payload, hcase] at hpay
        cases hobj.symm.trans hpay.1
      | move =>
        have hloan := hs.whole_alone ht hmem' hne
          (by simp [source?, PreparedPayload.source?, hcase]) hsrc'
        simp [loan, hcase] at hloan
      | loan source write =>
        have hsrc : t.source?.isSome = true := by
          simp [source?, PreparedPayload.source?, hcase]
        have hloan := hs.whole_alone ht hmem' hne hsrc hsrc'
        have hloan' := hs.whole_alone ht' (hsame ▸ ht.held) hne.symm hsrc' hsrc
        have hwr : write = false := by simpa [loan, hcase] using hloan
        subst hwr
        simp only [Payload, hcase] at hpay
        obtain ⟨_, _, hobj₁, rfl, hlendState⟩ := hpay
        cases hobj.symm.trans hobj₁
        obtain ⟨_, rfl⟩ := publishRead_eq hlendState
        refine ⟨_, rfl, hmay.retirementPins, hmay.dmaPins, fun _ => ⟨.inr rfl, hmay.not_writable⟩,
          fun hwh => absurd hloan' hwh⟩
  · constructor
    · rw [hheld, update_of_ne hsame]
      exact ht'.held
    · rw [hobjs, update_of_ne hsame]
      exact ht'.source

variable {transfers : List PreparedTransfer}

/-- A batch of admitted transfers keeps what each of them keeps. -/
theorem Sane.publishPayloads (hs : s.Sane) (hnd : transfers.Nodup)
    (hadm : ∀ t ∈ transfers, s.Admitted t) {P : MemorySystem → Prop}
    (hstep : ∀ {s s' t}, P s → s.Sane → t ∈ transfers → s.Admitted t →
      s.publishPayload deliveryPending t = some s' → P s') (hP : P s)
    (h : transfers.foldlM (fun (s : MemorySystem) t => s.publishPayload deliveryPending t) s = some s') :
    s'.Sane ∧ P s' := by
  induction transfers generalizing s with
  | nil =>
    cases h
    exact ⟨hs, hP⟩
  | cons t transfers ih =>
    obtain ⟨_, hpub, h⟩ := bind_eq_some_iff.mp h
    obtain ⟨hnot, hnd⟩ := nodup_cons.mp hnd
    obtain ⟨ht, hadm⟩ := forall_mem_cons.mp hadm
    refine ih (hs.publishPayload ht hpub) hnd (fun t' ht' => ?_)
      (fun hP hs ht' => hstep hP hs (mem_cons_of_mem _ ht')) (hstep hP hs mem_cons_self ht hpub) h
    refine hs.admitted_publishPayload ht (hadm t' ht') ?_ hpub
    rintro rfl
    exact hnot ht'

theorem forM_ok (h : transfers.forM s.validateTransfer = .ok u) :
    ∀ t ∈ transfers, s.validateTransfer t = .ok () := by
  induction transfers with
  | nil => exact fun _ h => absurd h not_mem_nil
  | cons t transfers ih =>
    obtain ⟨_, hfst, hrest⟩ := bind_eq_ok.mp h
    exact forall_mem_cons.mpr ⟨hfst, ih hrest⟩

variable {additional : List Reservation}

theorem commitTransfers_ok
    (h : s.commitTransfers transfers additional deliveryPending = some (.ok s')) :
    (∀ t ∈ transfers, s.validateTransfer t = .ok ()) ∧
      transfers.foldlM (fun (s : MemorySystem) t => s.publishPayload deliveryPending t)
        (s.authorize (.batch (publications transfers additional))) = some s' := by
  unfold commitTransfers at h
  split at h
  · cases h
  split at h
  · cases h
  rename_i hval
  split at h
  · cases h
  · cases h
  · obtain ⟨_, hfold, h⟩ := map_eq_some_iff.mp h
    cases h
    exact ⟨forM_ok hval, hfold⟩

theorem Sane.commitTransfers (hs : s.Sane) (hhs : s.HoldsBatch transfers additional)
    {result : Except MemoryObjectError MemorySystem}
    (h : s.commitTransfers transfers additional deliveryPending = some result) :
    (orElse result s).Sane := by
  cases result with
  | error => exact hs
  | ok =>
    obtain ⟨hval, hfold⟩ := commitTransfers_ok h
    have hs₁ : Sane (s.authorize (.batch (publications transfers additional))) := hs.of_eq rfl rfl
    refine (hs₁.publishPayloads hhs.1 (fun t ht => ?_) (P := fun _ => True) (fun h _ _ _ _ => h)
      trivial hfold).1
    exact admitted_of_validate (hhs.2.1 t ht) (hval t ht)

end MemorySystem

theorem Retained.revoke (hr : Retained object h)
    (hpins : object.retirementPins = 0) (hdma : object.dmaPins = 0) {loan : LoanRevocation}
    (hpri : loan.prior = object.lendState) (hlent : object.lendState ≠ .none) : Retained { object with
        retirementPins := object.retirementPins + 1
        lendState := .revoking }
      { h with retirements := .revoke loan :: h.retirements } := by
  have hnone := hr.no_retirements hpins
  refine { hr with
    retirements := by simp [hr.retirements]
    single := by simp [hnone]
    shared := fun hcopy => { hr.shared hcopy with }
    granted := trivial
    revoking := fun work hmem loan' hloan => ?_
    fenced := fun _ => ⟨.revoke loan, mem_cons_self, rfl⟩
    alone := fun hne => absurd (hr.not_exclusive hdma) hne }
  rw [hnone] at hmem
  cases mem_singleton.mp hmem
  cases hloan
  rw [hpri]
  exact ⟨rfl, hr.no_dmaPins hdma, hr.granted.mono .refl fun _ h => h, hr.not_revoking hpins, hlent⟩

theorem Granted.withoutBorrower (hg : Granted lendState object h) (borrower : AddressSpaceId) :
    Granted (lendState.withoutBorrower borrower) object h := by
  cases lendState with
  | none | revoking => exact trivial
  | read =>
    simp only [LendState.withoutBorrower]
    split
    · exact trivial
    · exact hg
  | write => exact trivial

theorem withoutBorrower_ne_revoking (lendState : LendState) (borrower : AddressSpaceId) :
    lendState.withoutBorrower borrower ≠ .revoking := by
  cases lendState with
  | read =>
    simp only [LendState.withoutBorrower]
    split <;> exact nofun
  | _ => exact nofun

namespace MemorySystem

variable {s s' : MemorySystem} {id : ℕ} {t t' : PreparedTransfer} {source : PreparedSource}

theorem clearFence_frame (h : s.clearFence source = some s') :
    s'.registry.objects = s.registry.objects ∧ s'.held = s.held ∧
      (s'.roots, s'.preparing, s'.waiters, s'.nextInterest, s'.closed) =
        (s.roots, s.preparing, s.waiters, s.nextInterest, s.closed) := by
  unfold clearFence at h
  split at h
  · cases h
    exact ⟨rfl, rfl, rfl⟩
  split at h
  · cases h
    exact ⟨rfl, rfl, rfl⟩
  split at h
  · cases h
    exact ⟨rfl, rfl, rfl⟩
  · split at h
    · cases h
    · cases h
      exact ⟨rfl, rfl, rfl⟩

theorem Sane.setRoot (hs : s.Sane) (id : ℕ) : Sane ((s.registry.objects id).elim s fun object =>
      s.setObject id (some { object with transferRoot := none })) := by
  cases hobj : s.registry.objects id with
  | none => exact hs
  | some object =>
    exact hs.replace rfl (update_eq_self id s.held).symm
      (((hs id).1 object hobj).relabel object.closeInterest none)

/-- The holders of the object of a transfer that is dropped. -/
def dropped (s : MemorySystem) (t : PreparedTransfer) : ℕ → Holders :=
  Function.update s.held t.object
    { s.held t.object with transfers := (s.held t.object).transfers.erase t }

/-- What is left after a transfer was dropped; a copy leaves the registry alone. -/
structure Dropped (s s' : MemorySystem) (t : PreparedTransfer) : Prop where
  held : s'.held = s.dropped t
  rest : (s'.roots, s'.preparing, s'.waiters, s'.nextInterest) =
    (s.roots, s.preparing, s.waiters, s.nextInterest)
  copy : t.source? = none → s'.registry = s.registry ∧ s'.closed = s.closed
  source : ∀ source, t.source? = some source → ∃ (object : MemoryObject) (fenced : MemorySystem),
    s.registry.objects t.object = some object ∧
    fenced.registry.objects = Function.update s.registry.objects t.object (some { object with
      closeInterest := none, copyPins := object.copyPins - 1 }) ∧
    fenced.registry.caps = s.registry.caps ∧
    (∃ cleared : MemorySystem, fenced.clearFence source = some cleared ∧ s'.registry.caps = cleared.registry.caps) ∧
    s'.registry.objects = Function.update s.registry.objects t.object (some { object with
      closeInterest := none, copyPins := object.copyPins - 1, transferRoot := none }) ∧
    s'.closed = object.closeInterest.toList ++ s.closed

variable (hs : s.Sane)
include hs

theorem Sane.dropTransfer (ht : t ∈ (s.held t.object).transfers)
    (h : s.dropTransfer t = some s') : s'.Sane ∧ Dropped s s' t := by
  have hdrop := Holders.sources_drop ht
  unfold MemorySystem.dropTransfer at h
  cases hsrc : t.source? with
  | none =>
    simp only [hsrc, isSome_none, toNat_false, add_zero] at h hdrop
    have hs₁ : Sane (s.setHolders t.object { s.held t.object with
        transfers := (s.held t.object).transfers.erase t }) := by
      exact hs.setTransfers hdrop
    cases h
    split
    · exact ⟨hs₁, rfl, rfl, fun _ => ⟨rfl, rfl⟩, fun source h => by cases hsrc.symm.trans h⟩
    · exact ⟨hs₁.of_eq rfl rfl, rfl, rfl, fun _ => ⟨rfl, rfl⟩,
        fun source h => by cases hsrc.symm.trans h⟩
  | some source =>
    simp only [hsrc, isSome_some, toNat_true] at h hdrop
    obtain ⟨object, hobj, h⟩ := bind_eq_some_iff.mp h
    obtain ⟨_, hpins, h⟩ := bind_eq_some_iff.mp h
    obtain ⟨-, rfl⟩ := checkedSub_eq_some.mp hpins
    have hobj : s.registry.objects t.object = some object := by
      split at hobj <;> exact hobj
    have hr := (hs t.object).1 object hobj
    obtain ⟨s₂, hfence, h⟩ := bind_eq_some_iff.mp h
    -- The pin and the transfer go together.
    generalize hs₁def : (if t.committed = true then
      s.setHolders t.object { s.held t.object with
        transfers := (s.held t.object).transfers.erase t }
      else (s.setHolders t.object { s.held t.object with
        transfers := (s.held t.object).transfers.erase t }).authorize
          (.rollback source.escrow true)) = s₁ at hfence
    have hfrm : (s₁.registry, s₁.held, s₁.roots, s₁.preparing, s₁.waiters, s₁.nextInterest, s₁.closed) =
        (s.registry, s.dropped t, s.roots, s.preparing, s.waiters, s.nextInterest, s.closed) := by
      subst hs₁def
      split <;> rfl
    simp only [Prod.mk.injEq] at hfrm
    obtain ⟨hreg, hheld₁, hrts, hprp, hwts, hnext, hcl⟩ := hfrm
    have hs₁ : Sane (s₁.setObject t.object (some { object with
        closeInterest := none, copyPins := object.copyPins - 1 })) := by
      refine hs.replace (by rw [← hreg]; rfl) hheld₁ ((hr.dropCopy ?_).relabel none object.transferRoot)
      omega
    rw [hs₁.takeDeferred] at hfence
    obtain ⟨hobjs, hheld, hrest⟩ := clearFence_frame hfence
    simp only [Prod.mk.injEq] at hrest
    have hs₃ := (hs₁.of_eq hobjs hheld).setRoot t.object
    have hlast : s₂.registry.objects t.object = some { object with
        closeInterest := none, copyPins := object.copyPins - 1 } := by
      rw [hobjs]
      exact update_self ..
    rw [hlast] at h hs₃
    have hupdate : s₂.registry.objects = update s.registry.objects t.object (some { object with
        closeInterest := none, copyPins := object.copyPins - 1 }) := by
      rw [hobjs, ← hreg]
      rfl
    have hdrp : Dropped s { s₂.setObject t.object (some { object with
        closeInterest := none, copyPins := object.copyPins - 1, transferRoot := none }) with
        closed := object.closeInterest.toList ++ s₂.closed } t := by
      refine ⟨hheld.trans hheld₁, ?_, fun h => (nomatch hsrc.symm.trans h), fun source' h => ?_⟩
      · simp only [setObject, hrest]
        simp [hrts, hprp, hwts, hnext]
      · cases hsrc.symm.trans h
        refine ⟨object, _, hobj, by rw [← hreg]; rfl, by rw [← hreg]; rfl,
          ⟨s₂, hfence, rfl⟩, ?_, ?_⟩
        · simp only [setObject, hupdate, update_idem]
        · simp only [setObject, hrest, hcl]
    cases h
    split
    · exact ⟨hs₃.of_eq rfl rfl, hdrp⟩
    · exact ⟨hs₃.of_eq rfl rfl, hdrp.held, hdrp.rest, hdrp.copy, hdrp.source⟩

omit hs in
theorem deliverOne_frame (asid : AddressSpaceId) (cap : ℕ) :
    (deliverOne asid s cap).registry.objects = s.registry.objects ∧
      (deliverOne asid s cap).held = s.held := by
  unfold deliverOne
  split
  · exact ⟨rfl, rfl⟩
  · split <;> exact ⟨rfl, rfl⟩

theorem Sane.deliverMemory (asid : AddressSpaceId) (caps : List ℕ) :
    (s.deliverMemory asid caps).Sane := by
  induction caps generalizing s with
  | nil => exact hs
  | cons cap caps ih =>
    obtain ⟨hobjs, hheld⟩ := deliverOne_frame (s := s) asid cap
    exact ih (hs.of_eq hobjs hheld)

/-! ### Revocation and close -/

theorem Sane.prepareRevocation (owner : AddressSpaceId) (cap : ℕ)
    (borrower : AddressSpaceId) (borrowerCap : ℕ) :
    (orElse (s.prepareRevocation owner cap borrower borrowerCap) s).Sane := by
  refine orElse_of hs fun _ h => ?_
  simp only [MemorySystem.prepareRevocation, bind_eq_ok, okOr_eq_ok, ensure_eq_ok] at h
  obtain ⟨entry, -, object, hobj, _, -, _, ⟨-, hret, hdma⟩, _, hlent, _, -, _, -, _, -, _, -, h⟩ := h
  cases h
  exact hs.replace rfl rfl (((hs entry.object).1 object hobj).revoke hret hdma rfl hlent)

variable {loan : LoanRevocation}

theorem Sane.cancelRevocation
    (hwork : .revoke loan ∈ (s.held id).retirements) (h : s.cancelRevocation id loan = some s') :
    s'.Sane := by
  obtain ⟨_, hobj, hr⟩ := hs.retained_of_mem hwork
  obtain ⟨-, -, hgr, hpri, -⟩ := hr.revoking _ hwork loan rfl
  simp only [MemorySystem.cancelRevocation, hobj, bind_eq_bind, bind_some] at h
  split at h
  · cases h
  · cases h
    refine hs.replace rfl rfl (hr.proceed hwork .refl rfl (hgr.mono .refl fun _ h => h)
      nofun (fun h => absurd h hpri))

theorem Sane.finishRevocation {confirmed : Bool} (hwork : .revoke loan ∈ (s.held id).retirements)
    (h : s.finishRevocation id loan confirmed = some s') : s'.Sane := by
  obtain ⟨_, hobj, hr⟩ := hs.retained_of_mem hwork
  obtain ⟨-, -, hgr, -⟩ := hr.revoking _ hwork loan rfl
  unfold MemorySystem.finishRevocation at h
  cases confirmed with
  | false =>
    cases h
    exact hs.proceed hwork rfl
  | true =>
    simp only [true_eq_false, if_false, hobj, bind_eq_bind, bind_some] at h
    obtain ⟨_, -, h⟩ := bind_eq_some_iff.mp h
    obtain ⟨_, -, h⟩ := bind_eq_some_iff.mp h
    obtain ⟨_, -, h⟩ := bind_eq_some_iff.mp h
    split at h
    · cases h
    · cases h
      refine hs.replace rfl rfl (hr.proceed hwork fewerMappings_unmap rfl
        ((hgr.withoutBorrower loan.borrower).mono fewerMappings_unmap fun _ h => h) nofun
        (fun h => absurd h (withoutBorrower_ne_revoking _ _)))

variable {asid : AddressSpaceId} {cap : ℕ} {result : Option MemorySystem} {P : MemorySystem → Prop}

theorem Sane.prepareCloseCap (h : s.prepareCloseCap asid cap = .ok s') : s'.Sane := by
  simp only [MemorySystem.prepareCloseCap, bind_eq_ok, okOr_eq_ok] at h
  obtain ⟨entry, -, object, hobj, _, -, h⟩ := h
  split at h
  · obtain ⟨-, h⟩ := ensure_bind_ok.mp h
    cases h
    exact hs.of_eq rfl rfl
  obtain ⟨⟨-, hdma, hcopy, hret⟩, h⟩ := ensure_bind_ok.mp h
  obtain ⟨-, h⟩ := ensure_bind_ok.mp h
  cases h
  exact hs.change rfl (update_eq_self entry.object s.held).symm (fun _ h => by cases h)
    fun _ => ((hs entry.object).1 object hobj).idle hdma hcopy hret

theorem Sane.closeNow (asid : AddressSpaceId) (cap : ℕ) : (s.closeNow asid cap).Sane := by
  unfold MemorySystem.closeNow
  split
  · exact hs
  · split
    · exact hs
    · rename_i h
      exact hs.prepareCloseCap h

theorem Sane.close (h : s.close asid cap = some s') : s'.Sane := by
  unfold MemorySystem.close at h
  split at h
  · cases h
    exact hs.closeNow asid cap
  · obtain ⟨_, -, h⟩ := bind_eq_some_iff.mp h
    obtain ⟨_, -, h⟩ := bind_eq_some_iff.mp h
    obtain ⟨_, -, h⟩ := bind_eq_some_iff.mp h
    cases h
    exact hs.of_eq rfl rfl

theorem Sane.closeRetry (closer : Closer) : (s.closeRetry closer).Sane := by
  unfold MemorySystem.closeRetry
  split
  · exact hs.of_eq rfl rfl
  split
  · exact (hs.closeNow closer.asid closer.cap).of_eq rfl rfl
  · split
    · exact hs.of_eq rfl rfl
    · split
      · exact hs
      · exact hs.of_eq rfl rfl

theorem Sane.closeRegister {closer : Closer} (h : s.closeRegister closer = some s') : s'.Sane := by
  unfold MemorySystem.closeRegister at h
  split at h
  · cases h
    exact hs
  obtain ⟨object, hobj, h⟩ := bind_eq_some_iff.mp h
  split at h
  · cases h
    exact hs.of_eq rfl rfl
  · cases h
    exact hs.replace rfl (update_eq_self closer.object s.held).symm
      (((hs _).1 object hobj).relabel (some s.nextInterest) object.transferRoot)

/-! ### Runs -/

omit hs in
/-- A request without its token changes nothing. -/
theorem of_guard {c : Prop} [Decidable c]
    (hs : P s) (h : (if c then some s else result) = some s') (hok : ¬ c → result = some s' → P s') :
    P s' := by
  split at h
  · cases h
    exact hs
  · next hc => exact hok hc h

omit hs in
theorem of_token {c : Prop} [Decidable c]
    (hs : P s) (h : (if ¬ c then some s else result) = some s') (hok : c → result = some s' → P s') :
    P s' :=
  of_guard hs h fun hc => hok (not_not.mp hc)

theorem Sane.step {operation : MemoryOperation} (h : s.step operation = some s') : s'.Sane := by
  cases operation with
  | publishMapping =>
    cases h
    exact hs.publishMapping _ _ _ _
  | recordMapping id asid base installed outcome =>
    refine of_token hs h fun hwork h => ?_
    cases h
    exact hs.recordMapping hwork installed outcome
  | claimUnmap =>
    cases h
    exact hs.claimUnmap _ _
  | finishUnmap => exact of_token hs h fun hwork h => hs.finishUnmap hwork h
  | releasePin => exact of_token hs h fun hwork h => (hs.releasePin hwork h).1
  | pinForDma pin =>
    cases h
    exact hs.pinForDma pin
  | unpinDma => exact of_token hs h fun hpin h => (hs.unpinDma hpin h).1
  | pinForCopy =>
    cases h
    exact hs.pinForCopy _ _
  | unpinCopy => exact of_guard hs h fun hpin h => (hs.unpinCopy hpin h).1
  | admitCapability asid admitted =>
    cases h
    refine orElse_of hs fun _ hadmit => ?_
    unfold admitCapability at hadmit
    split at hadmit
    · cases hadmit
    · split at hadmit
      · cases hadmit
      · cases hadmit
        exact hs.of_eq rfl rfl
  | finishPreparing =>
    refine of_token hs h fun _ h => ?_
    cases h
    exact hs.of_eq rfl rfl
  | allocate => exact of_token hs h fun _ h => hs.allocate h
  | prepareSourceTransfer =>
    refine of_token hs h fun _ h => ?_
    cases h
    exact hs.prepareSourceTransfer _ _ _ _ _
  | prepareCopy =>
    refine of_guard hs h fun _ h => ?_
    cases h
    exact hs.prepareCopy _ _
  | commitTransfers =>
    refine of_token hs h fun hhs h => ?_
    obtain ⟨_, hcm, rfl⟩ := map_eq_some_iff.mp h
    exact hs.commitTransfers hhs hcm
  | dropTransfer => exact of_token hs h fun ht h => (hs.dropTransfer ht h).1
  | deliverMemory =>
    cases h
    exact hs.deliverMemory _ _
  | prepareRevocation =>
    cases h
    exact hs.prepareRevocation _ _ _ _
  | cancelRevocation => exact of_token hs h hs.cancelRevocation
  | finishRevocation => exact of_token hs h hs.finishRevocation
  | close => exact hs.close h
  | closeRetry closer =>
    refine of_token hs h fun _ h => ?_
    cases h
    exact hs.closeRetry closer
  | closeRegister => exact of_token hs h fun _ h => hs.closeRegister h
  | authorize =>
    cases h
    exact hs.of_eq rfl rfl

theorem Sane.run {operations : List MemoryOperation} (h : s.run operations = some s') : s'.Sane := by
  induction operations generalizing s with
  | nil =>
    cases h
    exact hs
  | cons operation operations ih =>
    obtain ⟨_, hstep, h⟩ := bind_eq_some_iff.mp h
    exact ih (hs.step hstep) h

omit hs

/-! ### Exclusion -/

variable {len : ℕ}

theorem writeBytes_ok (h : s.writeBytes asid cap len = .ok id) :
    ∃ object, s.registry.objects id = some object ∧ object.retirementPins = 0 ∧ object.copyPins = 0 ∧
      object.lendState.isRead = false ∧ object.lendState.writtenByOther asid cap = false := by
  simp only [writeBytes, bind_eq_ok, ensure_eq_ok] at h
  obtain ⟨⟨_, object⟩, hlk, _, ⟨-, hret, hcopy, hread, -, hwr⟩, _, -, h⟩ := h
  cases h
  exact ⟨object, (lookupObject_ok hlk).2, hret, hcopy, hread, hwr⟩

theorem snapshotBytes_ok (h : s.snapshotBytes asid cap len = .ok id) :
    ∃ object, s.registry.objects id = some object ∧ object.retirementPins = 0 ∧
      object.lendState.writtenByOther asid cap = false := by
  simp only [snapshotBytes, bind_eq_ok, ensure_eq_ok] at h
  obtain ⟨⟨_, object⟩, hlk, _, ⟨-, hret, -, hwr⟩, _, -, h⟩ := h
  cases h
  exact ⟨object, (lookupObject_ok hlk).2, hret, hwr⟩

/-- Nobody but the borrower has access to an object that is lent for writing. -/
structure WriteLoan (s : MemorySystem) (id : ℕ) (object : MemoryObject)
    (borrower : AddressSpaceId) (cap : ℕ) : Prop where
  mappings : ∀ mapping ∈ object.mappings, mapping.1 = borrower
  dmaPins : ∀ pin ∈ (s.held id).dmaPins, pin.asid = borrower ∧ pin.cap = cap
  noMapping : ∀ asid cap base writable found,
    s.mappingAdmission asid cap base writable = .ok (id, found) → asid = borrower
  noPin : ∀ pin found, s.dmaAdmission pin = .ok (id, found) → pin.asid = borrower ∧ pin.cap = cap
  noWrite : ∀ asid cap' len, s.writeBytes asid cap' len = .ok id → asid = borrower ∧ cap' = cap
  noSnapshot : ∀ asid cap' len, s.snapshotBytes asid cap' len = .ok id → asid = borrower ∧ cap' = cap

/-- Nobody writes to an object that has readers. -/
structure ReadOnly (s : MemorySystem) (id : ℕ) (object : MemoryObject) : Prop where
  mappings : ∀ mapping ∈ object.mappings, mapping.2.writable = false
  dmaPins : ∀ pin ∈ (s.held id).dmaPins, pin.writes = false
  noMapping : ∀ asid cap base found, s.mappingAdmission asid cap base true ≠ .ok (id, found)
  noPin : ∀ pin found, pin.writes = true → s.dmaAdmission pin ≠ .ok (id, found)
  noWrite : ∀ asid cap len, s.writeBytes asid cap len ≠ .ok id

/-- No access to the object starts: no mapping, no pin, no access of the kernel, and no transfer is
prepared or committed. -/
structure Fenced (s : MemorySystem) (id : ℕ) : Prop where
  noMapping : ∀ asid cap base writable found,
    s.mappingAdmission asid cap base writable ≠ .ok (id, found)
  noDmaPin : ∀ pin found, s.dmaAdmission pin ≠ .ok (id, found)
  noCopyPin : ∀ owner cap found, s.copyAdmission owner cap ≠ .ok (id, found)
  noWrite : ∀ asid cap len, s.writeBytes asid cap len ≠ .ok id
  noSnapshot : ∀ asid cap len, s.snapshotBytes asid cap len ≠ .ok id
  noTransfer : ∀ owner cap target loan readOnly entry found, entry.object = id →
    s.transferAdmission owner cap target loan readOnly ≠ .ok (entry, found)
  noCommit : ∀ t, t.object = id → t.source?.isSome = true → s.validateTransfer t ≠ .ok ()

/-- The loans of an object; those that it had stay while one of them is being revoked. -/
def Lent (s : MemorySystem) (id : ℕ) (object : MemoryObject) (loans : LendState) : Prop :=
  object.lendState = loans ∨
    ∃ work ∈ (s.held id).retirements, ∃ loan, work.loan? = some loan ∧ loan.prior = loans

/-- The rules of access, for an object of a system. -/
structure Exclusion (s : MemorySystem) (id : ℕ) (object : MemoryObject) : Prop where
  writeLoan : ∀ borrower cap, s.Lent id object (.write borrower cap) →
    s.WriteLoan id object borrower cap
  /-- While there is a read loan, a copy pin or a transfer. -/
  readers : (∃ borrowers, s.Lent id object (.read borrowers)) ∨ (s.held id).copyPins ≠ 0 ∨
    (∃ t ∈ (s.held id).transfers, t.source?.isSome = true) → s.ReadOnly id object
  exclusive : ∀ pin ∈ (s.held id).dmaPins, pin.exclusive = true →
    (s.held id).dmaPins = [pin] ∧ object.mappings = [] ∧ object.lendState = .none ∧
      (s.held id).copyPins = 0 ∧ (∀ t ∈ (s.held id).transfers, t.source? = none) ∧
      (s.held id).retirements = []
  /-- While a loan is being revoked, until the last pin of the revocation is released. -/
  revoking : object.lendState = .revoking ∨ (s.held id).retirements ≠ [] → s.Fenced id
  /-- What is being revoked is a read loan or a write loan, and no device has access. -/
  revoked : object.lendState = .revoking → (s.held id).dmaPins = [] ∧
    ((∃ borrowers, s.Lent id object (.read borrowers)) ∨
      ∃ borrower cap, s.Lent id object (.write borrower cap))

variable {object : MemoryObject}

theorem Sane.writeLoan_lent (hs : s.Sane) (hobj : s.registry.objects id = some object)
    (hlend : object.lendState = .write borrower cap) : s.WriteLoan id object borrower cap := by
  have hgr := ((hs id).1 object hobj).granted
  rw [hlend] at hgr
  have hown : ∀ asid cap', object.lendState.writtenByOther asid cap' = false →
      asid = borrower ∧ cap' = cap := by
    intro asid cap' h
    rw [hlend] at h
    simp only [LendState.writtenByOther, or_eq_false_iff, bne_eq_false_iff_eq] at h
    exact ⟨h.1.symm, h.2.symm⟩
  refine ⟨hgr.1, hgr.2, ?_, ?_, ?_, ?_⟩
  · intro asid cap' base writable found h
    obtain ⟨hfnd, hmay⟩ := mappingAdmission_ok h
    cases hobj.symm.trans hfnd
    exact checkMapLendState_write hlend hmay.lendState
  · intro pin found h
    obtain ⟨hfnd, hmay⟩ := dmaAdmission_ok h
    cases hobj.symm.trans hfnd
    exact hown pin.asid pin.cap hmay.notWritten
  · intro asid cap' len h
    obtain ⟨_, hfnd, -, -, -, hwr⟩ := writeBytes_ok h
    cases hobj.symm.trans hfnd
    exact hown asid cap' hwr
  · intro asid cap' len h
    obtain ⟨_, hfnd, -, hwr⟩ := snapshotBytes_ok h
    cases hobj.symm.trans hfnd
    exact hown asid cap' hwr

theorem Sane.readOnly (hs : s.Sane) (hobj : s.registry.objects id = some object)
    (hreaders : object.lendState.isRead = true ∨ object.copyPins ≠ 0) : s.ReadOnly id object := by
  have hr := (hs id).1 object hobj
  have hshared : Shared object (s.held id) := by
    rcases hreaders with hread | hcopy
    · have hgr := hr.granted
      cases hlend : object.lendState with
      | read =>
        rw [hlend] at hgr
        exact hgr
      | _ => simp [hlend, LendState.isRead] at hread
    · exact hr.shared hcopy
  refine ⟨hshared.mappings, hshared.dmaPins, ?_, ?_, ?_⟩
  · intro asid cap base found h
    obtain ⟨hfnd, hmay⟩ := mappingAdmission_ok h
    cases hobj.symm.trans hfnd
    rcases hreaders with hread | hcopy
    · cases hlend : object.lendState with
      | read => cases checkMapLendState_read hlend hmay.lendState
      | _ => simp [hlend, LendState.isRead] at hread
    · exact hcopy (hmay.copyPins rfl)
  · intro pin found hwrites h
    obtain ⟨hfnd, hmay⟩ := dmaAdmission_ok h
    cases hobj.symm.trans hfnd
    rcases hreaders with hread | hcopy
    · cases hread.symm.trans (hmay.notRead hwrites)
    · exact hcopy (hmay.copyPins hwrites)
  · intro asid cap len h
    obtain ⟨_, hfnd, -, hcopy, hread, -⟩ := writeBytes_ok h
    cases hobj.symm.trans hfnd
    rcases hreaders with hread' | hcopy'
    · cases hread.symm.trans hread'
    · exact hcopy' hcopy

theorem fenced_of_retirement (hobj : s.registry.objects id = some object)
    (hpins : object.retirementPins ≠ 0) : s.Fenced id := by
  refine ⟨?_, ?_, ?_, ?_, ?_, ?_, ?_⟩
  · intro asid cap base writable found h
    obtain ⟨hfnd, hmay⟩ := mappingAdmission_ok h
    cases hobj.symm.trans hfnd
    exact hpins hmay.retirementPins
  · intro pin found h
    obtain ⟨hfnd, hmay⟩ := dmaAdmission_ok h
    cases hobj.symm.trans hfnd
    exact hpins hmay.retirementPins
  · intro owner cap found h
    obtain ⟨hfnd, hret, -⟩ := copyAdmission_ok h
    cases hobj.symm.trans hfnd
    exact hpins hret
  · intro asid cap len h
    obtain ⟨_, hfnd, hret, -⟩ := writeBytes_ok h
    cases hobj.symm.trans hfnd
    exact hpins hret
  · intro asid cap len h
    obtain ⟨_, hfnd, hret, -⟩ := snapshotBytes_ok h
    cases hobj.symm.trans hfnd
    exact hpins hret
  · rintro _ _ _ _ _ _ _ rfl h
    obtain ⟨-, -, hfnd, -, hmay⟩ := transferAdmission_ok h
    cases hobj.symm.trans hfnd
    exact hpins hmay.retirementPins
  · rintro t rfl hsrc h
    obtain ⟨source, hsrc⟩ := isSome_iff_exists.mp hsrc
    obtain ⟨-, _, -, hfnd, -, -, -, hmay⟩ :=
      validateSource_ok ((validateTransfer_ok h).2 source hsrc)
    rw [object_eq_of_source hsrc] at hobj
    cases hobj.symm.trans hfnd
    exact hpins hmay.retirementPins

theorem Sane.fenced (hs : s.Sane) (hobj : s.registry.objects id = some object)
    (hne : (s.held id).retirements ≠ []) : s.Fenced id := by
  refine fenced_of_retirement hobj ?_
  rw [((hs id).1 object hobj).retirements]
  exact fun h => hne (length_eq_zero_iff.mp h)

/-- A loan that is being revoked leaves the mappings of its borrower, and nobody gets more. -/
theorem Sane.writeLoan (hs : s.Sane) (hobj : s.registry.objects id = some object)
    (hlent : s.Lent id object (.write borrower cap)) : s.WriteLoan id object borrower cap := by
  rcases hlent with hlend | ⟨work, hwork, loan, hloan, hprior⟩
  · exact hs.writeLoan_lent hobj hlend
  · have hfenced := hs.fenced hobj (ne_nil_of_mem hwork)
    obtain ⟨-, -, hgr, -⟩ := ((hs id).1 object hobj).revoking work hwork loan hloan
    rw [hprior] at hgr
    exact ⟨hgr.1, hgr.2, fun _ _ _ _ _ h => (hfenced.noMapping _ _ _ _ _ h).elim,
      fun _ _ h => (hfenced.noDmaPin _ _ h).elim, fun _ _ _ h => (hfenced.noWrite _ _ _ h).elim,
      fun _ _ _ h => (hfenced.noSnapshot _ _ _ h).elim⟩

theorem Sane.readOnly_lent {borrowers : List (AddressSpaceId × ℕ)} (hs : s.Sane)
    (hobj : s.registry.objects id = some object) (hlent : s.Lent id object (.read borrowers)) :
    s.ReadOnly id object := by
  rcases hlent with hlend | ⟨work, hwork, loan, hloan, hprior⟩
  · exact hs.readOnly hobj (.inl (by rw [hlend]; rfl))
  · have hfenced := hs.fenced hobj (ne_nil_of_mem hwork)
    obtain ⟨-, -, hgr, -⟩ := ((hs id).1 object hobj).revoking work hwork loan hloan
    rw [hprior] at hgr
    exact ⟨hgr.mappings, hgr.dmaPins, fun _ _ _ _ => hfenced.noMapping _ _ _ _ _,
      fun _ _ _ => hfenced.noDmaPin _ _, hfenced.noWrite⟩

theorem Sane.exclusion (hs : s.Sane)
    (hobj : s.registry.objects id = some object) : s.Exclusion id object := by
  have hr := (hs id).1 object hobj
  refine ⟨fun borrower cap hlent => hs.writeLoan hobj hlent, fun hread => ?_,
    fun pin hpin hexc => ?_, fun hrev => ?_, fun hrev => ?_⟩
  · rcases hread with ⟨_, hlent⟩ | hheld
    · exact hs.readOnly_lent hobj hlent
    refine hs.readOnly hobj (.inr ?_)
    rw [hr.copyPins]
    rcases hheld with _ | ⟨t, ht, hsrc⟩
    · omega
    · have hpos : 0 < (s.held id).sources := countP_pos_iff.mpr ⟨t, ht, hsrc⟩
      omega
  · have hpos : 0 < (s.held id).dmaPins.countP (·.exclusive) := countP_pos_iff.mpr ⟨pin, hpin, hexc⟩
    obtain ⟨hmaps, hlend, _, hdma, hret⟩ := hr.alone (by rw [hr.exclusive]; omega)
    obtain ⟨_, honly⟩ := length_eq_one_iff.mp (hr.dmaPins.symm.trans hdma)
    rw [honly] at hpin ⊢
    obtain rfl := mem_singleton.mp hpin
    have hcopies := hr.copyPins
    refine ⟨rfl, hmaps, hlend, by omega, fun t ht => ?_, hr.no_retirements hret⟩
    have hnone : (s.held id).sources = 0 := by omega
    exact not_isSome_iff_eq_none.mp (countP_eq_zero.mp hnone t ht)
  · refine hs.fenced hobj ?_
    rcases hrev with hlend | hne
    · obtain ⟨_, hwork, -⟩ := hr.fenced hlend
      exact ne_nil_of_mem hwork
    · exact hne
  · obtain ⟨work, hwork, hloan⟩ := hr.fenced hrev
    obtain ⟨loan, hloan⟩ := isSome_iff_exists.mp hloan
    obtain ⟨-, hpins, -, hrevoking, hnone⟩ := hr.revoking work hwork loan hloan
    refine ⟨hpins, ?_⟩
    cases hprior : loan.prior with
    | none => exact absurd hprior hnone
    | revoking => exact absurd hprior hrevoking
    | read borrowers => exact .inl ⟨borrowers, .inr ⟨work, hwork, loan, hloan, hprior⟩⟩
    | write borrower cap => exact .inr ⟨borrower, cap, .inr ⟨work, hwork, loan, hloan, hprior⟩⟩

/-- In every state that a run reaches the accesses to every object are compatible. -/
theorem access_is_exclusive (hs : s.Initial) (operations : List MemoryOperation)
    (h : s.run operations = some s') (object : MemoryObject)
    (hobject : s'.registry.objects id = some object) : s'.Exclusion id object :=
  ((sane_initial hs).run h).exclusion hobject

/-- The first space allocates a page and lends it to the second for writing. -/
def lendingRun : List MemoryOperation :=
  let source : PreparedSource := ⟨1, ⟨1, 1⟩, 1, ⟨1, .all, false, false⟩, ⟨1, 1, .memory, 0⟩⟩
  let t : PreparedTransfer := ⟨2, ⟨⟨2, 1, .memory, 1⟩, ⟨2, 1⟩⟩, .loan source true, false⟩
  [.admitCapability 1 true, .allocate ⟨⟨1, 1, .memory, 0⟩, ⟨1, 1⟩⟩ 1 true, .admitCapability 2 true,
    .prepareSourceTransfer t.destination 1 1 (some true) false, .commitTransfers [t] [] false,
    .dropTransfer { t with committed := true }, .publishMapping 2 1 4096 true]

theorem access_is_exclusive_lent : ∃ s object, twoSpaces.run lendingRun = some s ∧
    s.registry.objects 1 = some object ∧ object.lendState = .write 2 1 ∧ s.Exclusion 1 object := by
  have hrun : (twoSpaces.run lendingRun).bind (fun s => s.registry.objects 1) = some
      { owner := 1, pages := 1, mappings := [(2, ⟨4096, 0, true⟩)], lendState := .write 2 1
        retirementPins := 1 } := by
    decide
  obtain ⟨s, hs, hobj⟩ := bind_eq_some_iff.mp hrun
  exact ⟨s, _, hs, hobj, rfl, access_is_exclusive initial_twoSpaces lendingRun hs _ hobj⟩

end MemorySystem

end Charlotte.Kernel
