import Charlotte.Kernel.TransferSteps

/-!
# Closes under transfer

A run in which no transfer of an object is prepared while a committed move of it is still held never
stops at a close, and a close is woken by its own transfer.
-/

namespace Charlotte.Kernel

open Lib List Option

namespace MemorySystem

variable {s s' : MemorySystem} {id : ℕ}

/-- The move of a page from the first space to the second. -/
def pageMove : PreparedTransfer :=
  ⟨2, ⟨⟨2, 1, .memory, 1⟩, ⟨2, 1⟩⟩,
    .move ⟨1, ⟨1, 1⟩, 1, ⟨1, .all, false, false⟩, ⟨1, 1, .memory, 0⟩⟩ .all, false⟩

/-- The page is moved. -/
def movingRun : List MemoryOperation :=
  [.admitCapability 1 true, .allocate ⟨⟨1, 1, .memory, 0⟩, ⟨1, 1⟩⟩ 1 true, .admitCapability 2 true,
    .prepareSourceTransfer pageMove.destination 1 1 none false, .commitTransfers [pageMove] [] false]

/-- The second space lends the page back for reading before the transfer of the first is dropped. -/
def overtakingRun : List MemoryOperation := movingRun ++
  [.admitCapability 1 true, .prepareSourceTransfer ⟨⟨1, 2, .memory, 0⟩, ⟨1, 1⟩⟩ 2 1 (some false) false,
    .dropTransfer { pageMove with committed := true }]

/-- The capability of the second space is in flight, its root is gone, and its close panics. -/
theorem overtaken_close_panics : ∃ s, twoSpaces.run overtakingRun = some s ∧
    s.transferInFlight 2 1 = true ∧ (s.registry.objects 1).bind (·.transferRoot) = none ∧
    s.step (.close 2 1) = none := by
  have hrun : (twoSpaces.run overtakingRun).map (fun s => (s.transferInFlight 2 1,
      (s.registry.objects 1).bind (·.transferRoot), (s.step (.close 2 1)).isNone)) =
      some (true, none, true) := by
    decide
  obtain ⟨s, hs, h⟩ := map_eq_some_iff.mp hrun
  simp only [Prod.mk.injEq, isNone_iff_eq_none] at h
  exact ⟨s, hs, h⟩

/-! ### Wake-ups -/

theorem orElse_closed {result : Except MemoryObjectError MemorySystem} {fallback : MemorySystem}
    (hfall : fallback.closed = s.closed) (h : ∀ s', result = .ok s' → s'.closed = s.closed) :
    (orElse result fallback).closed = s.closed :=
  orElse_of (P := fun s' => s'.closed = s.closed) hfall h

theorem closed_takeDeferred : (s.takeDeferred id).closed = s.closed := by
  unfold takeDeferred
  split
  · rfl
  · split
    · rfl
    · rfl

variable {destination : Preparing}

theorem closed_install {payload : MemoryCap}
    (h : s.install destination payload = some s') : s'.closed = s.closed := by
  obtain ⟨-, -, -, hrest⟩ := install_caps h
  simp only [Prod.mk.injEq] at hrest
  exact hrest.2.2.2.1

theorem closed_allocate {pages : ℕ} {active : Bool}
    (h : s.allocate destination pages active = some s') : s'.closed = s.closed := by
  unfold allocate at h
  simp only at h
  split at h
  · cases h
    rfl
  rename_i hres
  simp only [bind_eq_ok, allocateObjectId] at hres
  repeat' obtain ⟨_, hres⟩ := hres
  split at h
  · cases h
  · cases h
    rfl
  · obtain ⟨_, hinse, h⟩ := bind_eq_some_iff.mp h
    obtain ⟨_, hins, h⟩ := bind_eq_some_iff.mp h
    cases h
    obtain ⟨-, rfl⟩ := insertObject_eq hinse
    have hcl := closed_install hins
    exact hcl

theorem closed_commitTransfers {transfers : List PreparedTransfer} {additional : List Reservation}
    {deliveryPending : Bool}
    (h : s.commitTransfers transfers additional deliveryPending = some (.ok s')) :
    s'.closed = s.closed := by
  have hfold := (commitTransfers_ok h).2
  have hauth : (s.authorize (.batch (publications transfers additional))).closed = s.closed := rfl
  rw [← hauth]
  generalize s.authorize (.batch (publications transfers additional)) = s₁ at hfold
  clear h hauth
  induction transfers generalizing s₁ with
  | nil =>
    cases hfold
    rfl
  | cons t transfers ih =>
    obtain ⟨s₂, hpub, hfold⟩ := bind_eq_some_iff.mp hfold
    have hrest := (publishPayload_delivered hpub).rest
    simp only [Prod.mk.injEq] at hrest
    exact (ih s₂ hfold).trans hrest.2.2.2.1

variable {asid : AddressSpaceId} {cap : ℕ}

theorem closed_prepareCloseCap (h : s.prepareCloseCap asid cap = .ok s') : s'.closed = s.closed := by
  simp only [prepareCloseCap, bind_eq_ok] at h
  obtain ⟨_, -, _, -, _, -, h⟩ := h
  split at h
  · simp only [bind_eq_ok] at h
    repeat' obtain ⟨_, h⟩ := h
    rfl
  · simp only [bind_eq_ok] at h
    repeat' obtain ⟨_, h⟩ := h
    rfl

theorem closed_closeNow (asid : AddressSpaceId) (cap : ℕ) :
    (s.closeNow asid cap).closed = s.closed := by
  unfold closeNow
  split
  · rfl
  · split
    · rfl
    · rename_i h
      exact closed_prepareCloseCap h

theorem closed_closeRetry (closer : Closer) : (s.closeRetry closer).closed = s.closed := by
  unfold closeRetry
  split
  · rfl
  split
  · exact closed_closeNow _ _
  · split
    · rfl
    · split
      · rfl
      · rfl

theorem closed_deliverMemory (asid : AddressSpaceId) (caps : List ℕ) :
    (s.deliverMemory asid caps).closed = s.closed := by
  induction caps generalizing s with
  | nil => rfl
  | cons cap caps ih =>
    refine ih.trans ?_
    unfold deliverOne
    split
    · rfl
    · split
      · rfl
      · rfl

variable {operation : MemoryOperation}

theorem quiet_guard {c : Prop} [Decidable c] {result : Option MemorySystem}
    (h : (if c then some s else result) = some s') (hok : ¬ c → result = some s' → s'.closed = s.closed) :
    s'.closed = s.closed :=
  of_guard (P := fun s' => s'.closed = s.closed) rfl h hok

/-- Only the drop of a transfer wakes anybody. -/
theorem closed_step (h : s.step operation = some s')
    (hdrop : ∀ t, operation ≠ .dropTransfer t) : s'.closed = s.closed := by
  cases operation with
  | dropTransfer t => exact absurd rfl (hdrop t)
  | publishMapping | claimUnmap | pinForDma | pinForCopy | prepareRevocation =>
    cases h
    refine orElse_closed rfl fun s' h => ?_
    simp only [publishMapping, claimUnmap, pinForDma,
      pinForCopy, prepareRevocation, bind_eq_ok] at h
    repeat' obtain ⟨_, h⟩ := h
    rfl
  | releasePin | unpinDma | unpinCopy =>
    refine quiet_guard h fun _ h => ?_
    simp only [releasePin, unpinDma, unpinCopy, bind_eq_bind,
      bind_eq_some_iff] at h
    repeat' obtain ⟨_, h⟩ := h
    exact closed_takeDeferred
  | recordMapping =>
    refine quiet_guard h fun _ h => ?_
    cases h
    simp only [recordMapping]
    repeat' split
    all_goals rfl
  | finishUnmap =>
    refine quiet_guard h fun _ h => ?_
    obtain ⟨_, -, h⟩ := bind_eq_some_iff.mp h
    split at h
    · obtain ⟨_, -, h⟩ := bind_eq_some_iff.mp h
      cases h
      rfl
    · cases h
      rfl
  | cancelRevocation =>
    refine quiet_guard h fun _ h => ?_
    obtain ⟨_, -, h⟩ := bind_eq_some_iff.mp h
    split at h <;> cases h
    rfl
  | finishRevocation =>
    refine quiet_guard h fun _ h => ?_
    unfold finishRevocation at h
    split at h
    · cases h
      rfl
    simp only [bind_eq_bind, bind_eq_some_iff] at h
    obtain ⟨_, -, _, -, _, -, _, -, h⟩ := h
    split at h <;> cases h
    rfl
  | admitCapability =>
    cases h
    refine orElse_closed rfl fun s' h => ?_
    unfold admitCapability at h
    repeat' split at h
    all_goals cases h
    rfl
  | finishPreparing =>
    refine quiet_guard h fun _ h => ?_
    cases h
    rfl
  | allocate =>
    exact quiet_guard h fun _ h => closed_allocate h
  | prepareSourceTransfer =>
    refine quiet_guard h fun _ h => ?_
    cases h
    refine orElse_closed rfl fun s' h => ?_
    obtain ⟨_, _, _, hprp⟩ := prepareSourceTransfer_ok h
    have hrest := hprp.rest
    simp only [Prod.mk.injEq] at hrest
    simp only [hrest]
  | prepareCopy =>
    refine quiet_guard h fun _ h => ?_
    cases h
    refine orElse_closed rfl fun s' h => ?_
    obtain ⟨_, hres, h⟩ := bind_eq_ok.mp h
    obtain ⟨_, -, hres⟩ := okOr_bind_ok.mp hres
    cases hres
    cases h
    rfl
  | commitTransfers =>
    refine quiet_guard h fun _ h => ?_
    obtain ⟨_, hcm, rfl⟩ := map_eq_some_iff.mp h
    refine orElse_closed rfl fun s' h => ?_
    subst h
    exact closed_commitTransfers hcm
  | deliverMemory =>
    cases h
    exact closed_deliverMemory ..
  | close asid cap =>
    simp only [step, close] at h
    split at h
    · cases h
      exact closed_closeNow asid cap
    · obtain ⟨_, -, h⟩ := bind_eq_some_iff.mp h
      obtain ⟨_, -, h⟩ := bind_eq_some_iff.mp h
      obtain ⟨_, -, h⟩ := bind_eq_some_iff.mp h
      cases h
      rfl
  | closeRetry closer =>
    refine quiet_guard h fun _ h => ?_
    cases h
    exact closed_closeRetry closer
  | closeRegister =>
    refine quiet_guard h fun _ h => ?_
    simp only [closeRegister] at h
    split at h
    · cases h
      rfl
    · obtain ⟨_, -, h⟩ := bind_eq_some_iff.mp h
      split at h <;> cases h <;> rfl
  | authorize =>
    cases h
    rfl

/-! ### Steps and runs -/

variable (hs : s.Rooted)
include hs

theorem Rooted.admitCapability (asid : AddressSpaceId) (admitted : Bool) :
    (orElse (s.admitCapability asid admitted) s).Rooted := by
  refine orElse_of hs fun s' h => ?_
  unfold MemorySystem.admitCapability at h
  split at h
  · cases h
  rename_i handle hhd
  split at h
  · cases h
  cases h
  refine hs.frame { hs.same with preparing := fun destination hmem => ?_ }
  rcases mem_cons.mp hmem with rfl | hmem
  · rw [hs.placed.ids asid handle hhd]
    exact hhd
  · exact hs.placed.preparing destination hmem

theorem Rooted.step (hsane : s.Sane)
    (hser : s.Serial operation) (h : s.step operation = some s') : s'.Rooted := by
  cases operation with
  | publishMapping =>
    cases h
    exact hs.publishMapping ..
  | recordMapping =>
    refine of_token hs h fun _ h => ?_
    cases h
    exact hs.recordMapping ..
  | claimUnmap =>
    cases h
    exact hs.claimUnmap ..
  | finishUnmap => exact of_token hs h fun _ h => hs.finishUnmap h
  | releasePin =>
    refine of_token hs h fun hwork h => ?_
    obtain ⟨-, _, hobj, rfl⟩ := hsane.releasePin hwork h
    exact hs.replace hobj rfl rfl fun _ hmem => mem_of_mem_erase hmem
  | pinForDma pin =>
    cases h
    exact hs.pinForDma pin
  | unpinDma =>
    refine of_token hs h fun hpin h => ?_
    obtain ⟨-, _, hobj, rfl⟩ := hsane.unpinDma hpin h
    exact hs.replace hobj rfl rfl fun _ hmem => hmem
  | pinForCopy =>
    cases h
    exact hs.pinForCopy ..
  | unpinCopy =>
    refine of_guard hs h fun hpin h => ?_
    obtain ⟨-, _, hobj, rfl⟩ := hsane.unpinCopy hpin h
    exact hs.replace hobj rfl rfl fun _ hmem => hmem
  | admitCapability =>
    cases h
    exact hs.admitCapability ..
  | finishPreparing destination =>
    refine of_token hs h fun _ h => ?_
    cases h
    exact hs.finishPreparing destination
  | allocate => exact of_token hs h (hs.allocate hsane)
  | prepareSourceTransfer destination owner cap loan readOnly =>
    refine of_token hs h fun hdst h => ?_
    cases h
    cases hprp : s.prepareSourceTransfer destination owner cap loan readOnly with
    | error => exact hs.finishPreparing destination
    | ok => exact hs.prepareSourceTransfer hdst hser hprp
  | prepareCopy destination id =>
    refine of_guard hs h fun hdst h => ?_
    cases h
    cases hprp : s.prepareCopy destination id with
    | error => exact hs.finishPreparing destination
    | ok => exact hs.prepareCopy (not_not.mp (not_or.mp hdst).1) hprp
  | commitTransfers =>
    refine of_token hs h fun hhs h => ?_
    obtain ⟨_, hcm, rfl⟩ := map_eq_some_iff.mp h
    exact hs.commitTransfers hsane hhs hcm
  | dropTransfer t =>
    refine of_token hs h fun ht h => ?_
    have hd := (hsane.dropTransfer ht h).2
    cases hsrc : t.source? with
    | none => exact hs.dropCopy hd hsrc
    | some => exact hs.dropSource ht hd hsrc
  | deliverMemory =>
    cases h
    exact hs.deliverMemory ..
  | prepareRevocation =>
    cases h
    exact hs.prepareRevocation ..
  | cancelRevocation => exact of_token hs h hs.cancelRevocation
  | finishRevocation => exact of_token hs h (hs.finishRevocation hsane)
  | close => exact hs.close hsane h
  | closeRetry closer =>
    refine of_token hs h fun _ h => ?_
    cases h
    exact hs.closeRetry hsane closer
  | closeRegister => exact of_token hs h fun _ h => hs.closeRegister h
  | authorize operation =>
    cases h
    exact hs.authorize operation

omit hs

theorem rooted_initial (hs : s.Initial)
    (hids : ∀ asid handle, s.roots asid = some handle → handle.id = asid) : s.Rooted := by
  have hnone : ∀ asid cap, s.cap? asid cap = none := by
    intro asid cap
    simp [cap?, hs.caps]
  refine ⟨⟨hids, ?_, ?_, ?_⟩, ⟨?_, ?_, ?_, ?_⟩, ⟨?_, ?_, ?_, ?_⟩, ⟨?_, ?_⟩⟩
  · simp [hs.caps]
  · simp [hs.preparing]
  · simp [hs.held]
  · simp [hs.held]
  · simp [hs.held]
  · simp [hs.held, Holders.sources]
  · simp [hnone]
  · simp [hnone]
  · simp [hnone]
  · simp [hs.objects]
  · simp [hs.held]
  · simp [hs.objects]
  · simp [hs.waiters]

/-- Every step of the run is serial. -/
def SerialRun (s : MemorySystem) : List MemoryOperation → Prop
  | [] => True
  | operation :: operations => s.Serial operation ∧
      match s.step operation with
      | none => True
      | some s' => s'.SerialRun operations

instance decidableSerialRun (operations : List MemoryOperation) (s : MemorySystem) :
    Decidable (s.SerialRun operations) := by
  induction operations generalizing s with
  | nil => exact isTrue trivial
  | cons operation operations ih =>
    unfold SerialRun
    refine @instDecidableAnd _ _ _ ?_
    split
    · infer_instance
    · exact ih _

theorem Rooted.run (hs : s.Rooted) (hsane : s.Sane) {operations : List MemoryOperation}
    (hser : s.SerialRun operations) (h : s.run operations = some s') : s'.Rooted := by
  induction operations generalizing s with
  | nil =>
    cases h
    exact hs
  | cons operation operations ih =>
    obtain ⟨_, hstep, h⟩ := bind_eq_some_iff.mp h
    obtain ⟨hfst, hrest⟩ := hser
    rw [hstep] at hrest
    exact ih (hs.step hsane hfst hstep) (hsane.step hstep) hrest h

/-! ### Closing under a transfer -/

/-- Every close finds what it expects. -/
structure CloseSafe (s : MemorySystem) : Prop where
  /-- The root of the object is that of the namespace of the capability in flight. -/
  root : ∀ asid cap entry, s.cap? asid cap = some entry → entry.transferInFlight = true →
    ∃ object ns, s.registry.objects entry.object = some object ∧ s.registry.caps asid = some ns ∧
      object.transferRoot = some ns.handle
  close : ∀ asid cap, s.step (.close asid cap) ≠ none
  register : ∀ closer, s.step (.closeRegister closer) ≠ none
  /-- Who waits is woken by the drop of the transfer of its own capability. -/
  woken : ∀ operation s', s.step operation = some s' → ∀ waiter ∈ s.waiters,
    waiter.interest ∉ s.closed → waiter.interest ∈ s'.closed →
    ∃ t source, operation = .dropTransfer t ∧ t ∈ (s.held t.object).transfers ∧
      t.source? = some source ∧ t.object = waiter.closer.object ∧
      source.owner = waiter.closer.asid ∧ source.cap = waiter.closer.cap

theorem Rooted.root (hs : s.Rooted) {entry : MemoryCap}
    (hent : s.cap? asid cap = some entry) (hfly : entry.transferInFlight = true) :
    ∃ object ns, s.registry.objects entry.object = some object ∧ s.registry.caps asid = some ns ∧
      object.transferRoot = some ns.handle := by
  obtain ⟨t, ht, source, hsrc, rfl, rfl⟩ := (hs.guarded.flight asid cap entry hent hfly).inTransfer
  obtain ⟨hroot, object, hobj, htran⟩ := hs.guarded.roots entry.object t ht source hsrc
  obtain ⟨ns, hns, -⟩ := bind_eq_some_iff.mp hent
  have hhd := hs.placed.handles source.owner ns hns
  exact ⟨object, ns, hobj, hns, htran.trans (hroot.symm.trans hhd)⟩

theorem Rooted.close_ne_none (hs : s.Rooted) (asid : AddressSpaceId) (cap : ℕ) :
    s.close asid cap ≠ none := by
  unfold MemorySystem.close
  split
  · simp
  rename_i hfly
  cases hent : s.cap? asid cap with
  | none => simp [transferInFlight, hent] at hfly
  | some entry =>
    have hfly : entry.transferInFlight = true := by simpa [transferInFlight, hent] using hfly
    obtain ⟨_, _, hobj, -, hroot⟩ := hs.root hent hfly
    simp [hobj, hroot]

theorem Rooted.closeRegister_ne_none (hs : s.Rooted) (closer : Closer) :
    s.closeRegister closer ≠ none := by
  unfold MemorySystem.closeRegister
  split
  · simp
  rename_i hact
  obtain ⟨entry, hent, hboth⟩ := (Option.any_eq_true ..).mp (Bool.not_eq_false _ ▸ hact)
  simp only [Bool.and_eq_true, beq_iff_eq] at hboth
  obtain ⟨_, hobj⟩ := hs.named.exists_object _ _ entry hent
  rw [hboth.1] at hobj
  simp only [hobj, bind_eq_bind, bind_some]
  split <;> simp

theorem Rooted.closeSafe (hs : s.Rooted) (hsane : s.Sane) : s.CloseSafe := by
  refine ⟨fun _ _ _ => hs.root, hs.close_ne_none, fun closer => ?_, ?_⟩
  · simp only [MemorySystem.step]
    split
    · simp
    · exact hs.closeRegister_ne_none closer
  · intro operation s' h waiter hwt hopen hcl
    by_cases hdrop : ∃ t, operation = .dropTransfer t
    · obtain ⟨t, rfl⟩ := hdrop
      simp only [MemorySystem.step] at h
      split at h
      · cases h
        exact absurd hcl hopen
      · rename_i ht
        have ht := not_not.mp ht
        obtain ⟨source, hsrc, hrest⟩ := hs.woken ht (hsane.dropTransfer ht h).2 hwt hopen hcl
        exact ⟨t, source, rfl, ht, hsrc, hrest⟩
    · rw [closed_step h (not_exists.mp hdrop)] at hcl
      exact absurd hcl hopen

/-- In every state that a serial run reaches a close finds its root, and waits for its own transfer. -/
theorem close_is_safe (hs : s.Initial)
    (hids : ∀ asid handle, s.roots asid = some handle → handle.id = asid)
    (operations : List MemoryOperation) (hserial : s.SerialRun operations)
    (h : s.run operations = some s') : s'.CloseSafe := by
  have hsane := sane_initial hs
  exact ((rooted_initial hs hids).run hsane hserial h).closeSafe (hsane.run h)

/-- The second space lends the page back after the transfer of the first has been dropped. -/
def orderedRun : List MemoryOperation := movingRun ++
  [.dropTransfer { pageMove with committed := true }, .admitCapability 1 true,
    .prepareSourceTransfer ⟨⟨1, 2, .memory, 0⟩, ⟨1, 1⟩⟩ 2 1 (some false) false, .close 2 1]

theorem close_is_safe_ordered : ∃ s, twoSpaces.run orderedRun = some s ∧
    s.transferInFlight 2 1 = true ∧ s.closers = [⟨2, 1, 1⟩] ∧ s.CloseSafe := by
  have hrun : (twoSpaces.run orderedRun).map (fun s => (s.transferInFlight 2 1, s.closers)) =
      some (true, [⟨2, 1, 1⟩]) := by
    decide
  have hser : twoSpaces.SerialRun orderedRun := by
    decide
  obtain ⟨s, hs, h⟩ := map_eq_some_iff.mp hrun
  simp only [Prod.mk.injEq] at h
  refine ⟨s, hs, h.1, h.2, close_is_safe initial_twoSpaces ?_ orderedRun hser hs⟩
  intro asid handle hroot
  simp only [twoSpaces] at hroot
  split at hroot <;> cases hroot
  rfl

/-! ### Runs -/

/-- A run of the registry from a system without objects. -/
structure MemoryRun where
  start : MemorySystem
  initial : start.Initial
  operations : List MemoryOperation
  final : MemorySystem
  reached : start.run operations = some final

/-- The counters of an object are the numbers of what is held on it, and nothing is held on an
object that does not exist. -/
theorem MemoryRun.pins_keep_objects (r : MemoryRun) (id : ℕ) :
    (∀ object, r.final.registry.objects id = some object →
      object.dmaPins = (r.final.held id).dmaPins.length ∧
      object.exclusiveDmaPins = (r.final.held id).dmaPins.countP (·.exclusive) ∧
      object.copyPins = (r.final.held id).copyPins + (r.final.held id).sources ∧
      object.retirementPins = (r.final.held id).retirements.length ∧ object.retirementPins ≤ 1) ∧
    (r.final.registry.objects id = none →
      (r.final.held id).dmaPins = [] ∧ (r.final.held id).copyPins = 0 ∧
      (∀ t ∈ (r.final.held id).transfers, t.source? = none) ∧ (r.final.held id).retirements = []) := by
  have hsane := (sane_initial r.initial).run r.reached id
  refine ⟨fun object hobj => ?_, fun hnone => ?_⟩
  · have hr := hsane.1 object hobj
    exact ⟨hr.dmaPins, hr.exclusive, hr.copyPins, hr.retirements, hr.retirements ▸ hr.single⟩
  · have hidle := hsane.2 hnone
    refine ⟨hidle.dmaPins, hidle.copyPins, fun t ht => ?_, hidle.retirements⟩
    exact not_isSome_iff_eq_none.mp (countP_eq_zero.mp hidle.sources t ht)

/-- A run in which no transfer of an object is prepared while a committed move of it is held. -/
structure OrderedRun extends MemoryRun where
  spaces : ∀ asid handle, start.roots asid = some handle → handle.id = asid
  serial : start.SerialRun operations

/-- Every capability names an object that exists, its owner has one capability of it and all others
are its loans; and each object is in one transfer at most, which has its root and its fence. -/
theorem OrderedRun.ownership_is_linear (r : OrderedRun) : r.final.Named ∧ r.final.Guarded := by
  have hroot := rooted_initial r.initial r.spaces
  have hend := hroot.run (sane_initial r.initial) r.serial r.reached
  exact ⟨hend.named, hend.guarded⟩

/-- The run in which the page is lent back. -/
def lentBack : OrderedRun where
  start := twoSpaces
  initial := initial_twoSpaces
  operations := orderedRun
  final := (twoSpaces.run orderedRun).get (by decide)
  reached := (some_get _).symm
  spaces asid handle h := by
    simp only [twoSpaces] at h
    split at h <;> cases h
    rfl
  serial := by decide

end MemorySystem

end Charlotte.Kernel
