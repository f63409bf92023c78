import Charlotte.Kernel.CapabilitySystem
import Charlotte.Kernel.MemoryObject

/-!
# The registry of memory objects

Every operation is one hold of the lock of the registry, after
`catten/src/memory/object/*.rs`. What an operation leaves behind for a later hold (a pin, a prepared
transfer, a claimed mapping) is kept with the object that it retains. The work on page tables between
two holds is an outcome chosen by the environment, and so are the answers of the budgets. A step that
fails to yield a state is a panic.
-/

namespace Charlotte.Kernel

open Lib

structure MemoryCap where
  object : ℕ
  rights : MemoryObjectRights
  transferInFlight : Bool
  deliveryPending : Bool
  deriving DecidableEq

structure AddressSpaceCaps where
  handle : AddressSpaceHandle
  caps : ℕ → Option MemoryCap

structure MemoryObjectRegistry where
  nextObject : ℕ
  objects : ℕ → Option MemoryObject
  caps : AddressSpaceId → Option AddressSpaceCaps

/-- `cap_storage::Preparing`: a destination that is reserved and not yet visible. -/
structure Preparing where
  authority : Reservation
  handle : AddressSpaceHandle
  deriving DecidableEq

structure PreparedSource where
  owner : AddressSpaceId
  handle : AddressSpaceHandle
  cap : ℕ
  entry : MemoryCap
  escrow : SourceEscrow
  deriving DecidableEq

inductive PreparedPayload
  | move (source : PreparedSource) (rights : MemoryObjectRights)
  | copy (object pages : ℕ)
  | loan (source : PreparedSource) (write : Bool)
  deriving DecidableEq

structure PreparedTransfer where
  target : AddressSpaceId
  destination : Preparing
  payload : PreparedPayload
  committed : Bool
  deriving DecidableEq

namespace PreparedPayload

def source? : PreparedPayload → Option PreparedSource
  | .move source _ | .loan source _ => some source
  | .copy _ _ => none

def object : PreparedPayload → ℕ
  | .move source _ | .loan source _ => source.entry.object
  | .copy object _ => object

end PreparedPayload

namespace PreparedTransfer

variable (t : PreparedTransfer)

def source? : Option PreparedSource := t.payload.source?

def object : ℕ := t.payload.object

def publication : Publication where
  destination := t.destination.authority
  source :=
    match t.payload with
    | .move source _ => some (source.escrow, .revoke)
    | .loan source _ => some (source.escrow, .restore)
    | .copy _ _ => none

/-- The state of a lent object. -/
def lend (write : Bool) (lendState : LendState) : Option LendState :=
  if write then some (.write t.target t.destination.authority.cap)
  else lendState.publishRead t.target t.destination.authority.cap

end PreparedTransfer

/-- The access that a device has been given. -/
structure DmaPin where
  asid : AddressSpaceId
  cap : ℕ
  reads : Bool
  writes : Bool
  exclusive : Bool
  deriving DecidableEq

structure LoanRevocation where
  owner : AddressSpaceId
  ownerCap : ℕ
  borrower : AddressSpaceId
  borrowerCap : ℕ
  prior : LendState
  mapping : Option MemoryMappingState
  deriving DecidableEq

/-- What the holder of a `MappingRetirementPin` has to do next. -/
inductive RetirementWork
  | install (asid : AddressSpaceId) (base : ℕ)
  | unmap (asid : AddressSpaceId)
  | revoke (loan : LoanRevocation)
  /-- Only the pin is left to release. -/
  | release
  /-- The pin is kept for good, since nobody knows what the page tables hold; a revocation that was
  not confirmed leaves its loan. -/
  | retained (loan : Option LoanRevocation)
  deriving DecidableEq

/-- The loan that is being revoked. -/
def RetirementWork.loan? : RetirementWork → Option LoanRevocation
  | .revoke loan => some loan
  | .retained loan => loan
  | _ => none

/-- What retains an object. -/
structure Holders where
  dmaPins : List DmaPin := []
  copyPins : ℕ := 0
  transfers : List PreparedTransfer := []
  retirements : List RetirementWork := []

/-- A close that waits for a transfer. -/
structure Closer where
  asid : AddressSpaceId
  cap : ℕ
  object : ℕ
  deriving DecidableEq

structure Waiter where
  interest : ℕ
  closer : Closer
  deriving DecidableEq

/-- `roots` are the current address spaces, and `closed` are the lists of waiters that were woken. -/
structure MemorySystem where
  registry : MemoryObjectRegistry
  authority : CapabilitySystem
  roots : AddressSpaceId → Option AddressSpaceHandle
  accepting : AddressSpaceHandle → Bool
  held : ℕ → Holders
  preparing : List Preparing
  closers : List Closer
  waiters : List Waiter
  nextInterest : ℕ
  closed : List ℕ

namespace MemorySystem

variable (s : MemorySystem)

/-! ### Records -/

variable (asid : AddressSpaceId)

variable (cap : ℕ)

def cap? : Option MemoryCap :=
  (s.registry.caps asid).bind (·.caps cap)

variable (id : ℕ)

def setObject (object : Option MemoryObject) : MemorySystem :=
  { s with registry := { s.registry with objects := Function.update s.registry.objects id object } }

def setHolders (holders : Holders) : MemorySystem :=
  { s with held := Function.update s.held id holders }

def setCap (ns : AddressSpaceCaps) (cap : ℕ) (entry : Option MemoryCap) : MemorySystem :=
  let ns := { ns with caps := Function.update ns.caps cap entry }
  { s with registry := { s.registry with caps := Function.update s.registry.caps asid (some ns) } }

def authorize (operation : CapabilityOperation) : MemorySystem :=
  { s with authority := s.authority.step operation }

/-- Also finds what is queued and not yet received. -/
def lookupForCleanup : Except MemoryObjectError MemoryCap := do
  ensure (s.authority.tables.contains asid cap .memory = true) .unknownCapability
  okOr (s.cap? asid cap) .unknownCapability

def lookup : Except MemoryObjectError MemoryCap := do
  let entry ← s.lookupForCleanup asid cap
  ensure (entry.deliveryPending = false) .unknownCapability
  return entry

/-- A capability with the object that it names. -/
def lookupObject (rights : MemoryObjectRights) :
    Except MemoryObjectError (MemoryCap × MemoryObject) := do
  let entry ← s.lookup asid cap
  ensure (entry.rights.contains rights = true) .missingRight
  let object ← okOr (s.registry.objects entry.object) .unknownCapability
  return (entry, object)

def transferInFlight : Bool :=
  (s.cap? asid cap).any (·.transferInFlight)

/-- The namespace of the address space is that of the captured handle, if there is one. -/
def sameNamespace (handle : AddressSpaceHandle) : Prop :=
  ∀ ns ∈ s.registry.caps handle.id, ns.handle = handle

instance (handle : AddressSpaceHandle) : Decidable (s.sameNamespace handle) :=
  inferInstanceAs (Decidable (∀ ns ∈ s.registry.caps handle.id, ns.handle = handle))

/-- `retire_object`: every capability of the object goes, whatever its state. -/
def retireObject : MemorySystem :=
  { s with
    registry := { s.registry with
      objects := Function.update s.registry.objects id none
      caps := fun asid => (s.registry.caps asid).map fun ns =>
        { ns with caps := fun cap => (ns.caps cap).filter (·.object != id) } }
    authority := { s.authority with
      tables := { s.authority.tables with
        namespaces := fun asid => (s.authority.tables.namespaces asid).map fun table =>
          { table with objects := fun cap =>
              if (s.cap? asid cap).any (·.object == id) then none else table.objects cap } } } }

/-- `take_deferred_frames_if_unpinned`. -/
def takeDeferred : MemorySystem :=
  match s.registry.objects id with
  | none => s
  | some object =>
    if object.destroyWhenUnpinned = true ∧ object.dmaPins = 0 ∧ object.copyPins = 0 ∧
        object.retirementPins = 0 ∧ object.mappings = [] then
      s.retireObject id
    else s

/-! ### Mappings -/

def mappingAdmission (cap base : ℕ) (writable : Bool) :
    Except MemoryObjectError (ℕ × MemoryObject) := do
  let (entry, object) ← s.lookupObject asid cap (if writable then .onlyMapWrite else .onlyMapRead)
  ensure (validApplicationPages base object.pages) .mapFailed
  ensure (object.destroyWhenUnpinned = false ∧ object.retirementPins = 0 ∧ object.dmaPins = 0 ∧
    (writable = true → object.copyPins = 0)) .lendingActive
  object.checkMapLendState asid writable
  ensure (object.isMapped asid = false) .alreadyMapped
  return (entry.object, object)

/-- The second hold of `map_locked_with_preparation`, which repeats the checks of the first. -/
def publishMapping (cap base : ℕ) (writable : Bool) : Except MemoryObjectError MemorySystem := do
  let handle ← okOr (s.roots asid) .addressSpaceMissing
  ensure (s.sameNamespace handle) .addressSpaceMissing
  let (id, object) ← s.mappingAdmission asid cap base writable
  let holders := s.held id
  return (s.setObject id (some { object with
      mappings := (asid, ⟨base, 0, writable⟩) :: object.mappings
      retirementPins := object.retirementPins + 1 })).setHolders id
    { holders with retirements := .install asid base :: holders.retirements }

/-- How the page tables took a mapping. -/
inductive MapOutcome
  | mapped
  | mapFailed
  /-- The pages that were mapped could not be taken out again. -/
  | unmapFailed
  deriving DecidableEq

/-- The pages that were installed are recorded; a mapping that failed is taken out. -/
def recordMapping (asid : AddressSpaceId) (base installed : ℕ) (outcome : MapOutcome) :
    MemorySystem :=
  let holders := s.held id
  let next : RetirementWork := if outcome = .unmapFailed then .retained none else .release
  let s := s.setHolders id { holders with
    retirements := next :: holders.retirements.erase (.install asid base) }
  match s.registry.objects id with
  | none => s
  | some object =>
    match object.mappings.lookup asid with
    | none => s
    | some mapping =>
      if mapping.base ≠ base then s
      else if outcome = .mapFailed then s.setObject id (some (object.unmap asid))
      else s.setObject id (some { object with
        mappings := (asid, { mapping with installedPages := installed }) ::
          (object.unmap asid).mappings })

/-- The first hold of `unmap_with_invalidation`. -/
def claimUnmap : Except MemoryObjectError MemorySystem := do
  let entry ← s.lookup asid cap
  let object ← okOr (s.registry.objects entry.object) .unknownCapability
  ensure (object.retirementPins = 0) .lendingActive
  ensure (object.isMapped asid = true) .notMapped
  let holders := s.held entry.object
  return (s.setObject entry.object (some { object with
      retirementPins := object.retirementPins + 1 })).setHolders entry.object
    { holders with retirements := .unmap asid :: holders.retirements }

/-- The mapping is taken out once its pages are, or the pin is retained. A mapping that is gone by
then is a panic. -/
def finishUnmap (asid : AddressSpaceId) (confirmed : Bool) : Option MemorySystem := do
  let object ← s.registry.objects id
  let holders := s.held id
  let rest := holders.retirements.erase (.unmap asid)
  if confirmed then
    let _ ← object.mappings.lookup asid
    return (s.setObject id (some (object.unmap asid))).setHolders id
      { holders with retirements := .release :: rest }
  else
    return s.setHolders id { holders with retirements := .retained none :: rest }

/-- `MappingRetirementPin::release`. -/
def releasePin : Option MemorySystem := do
  let object ← s.registry.objects id
  let pins ← checkedSub object.retirementPins 1
  let holders := s.held id
  return ((s.setObject id (some { object with retirementPins := pins })).setHolders id
    { holders with retirements := holders.retirements.erase .release }).takeDeferred id

/-! ### Direct memory access -/

def dmaAdmission (pin : DmaPin) : Except MemoryObjectError (ℕ × MemoryObject) := do
  ensure (pin.reads = true ∨ pin.writes = true) .missingRight
  let (entry, object) ← s.lookupObject pin.asid pin.cap ⟨pin.reads, pin.writes, false⟩
  ensure (object.destroyWhenUnpinned = false ∧ object.retirementPins = 0 ∧
    object.lendState ≠ .revoking ∧ (pin.writes = true → object.lendState.isRead = false) ∧
    object.lendState.writtenByOther pin.asid pin.cap = false) .lendingActive
  ensure (object.exclusiveDmaPins = 0 ∧ (pin.writes = true → object.copyPins = 0) ∧
    (pin.exclusive = true → object.dmaPins = 0 ∧ object.copyPins = 0 ∧
      object.lendState.isActive = false ∧ object.mappings = [])) .lendingActive
  let _ ← okOr (checkedSucc object.dmaPins) .invalidLength
  return (entry.object, object)

def pinForDma (pin : DmaPin) : Except MemoryObjectError MemorySystem := do
  let handle ← okOr (s.roots pin.asid) .addressSpaceMissing
  ensure (s.sameNamespace handle) .addressSpaceMissing
  let (id, object) ← s.dmaAdmission pin
  let holders := s.held id
  return (s.setObject id (some { object with
      dmaPins := object.dmaPins + 1
      exclusiveDmaPins := object.exclusiveDmaPins + pin.exclusive.toNat })).setHolders id
    { holders with dmaPins := pin :: holders.dmaPins }

def unpinDma (pin : DmaPin) : Option MemorySystem := do
  let object ← s.registry.objects id
  let pins ← checkedSub object.dmaPins 1
  let exclusive ← checkedSub object.exclusiveDmaPins pin.exclusive.toNat
  let holders := s.held id
  return ((s.setObject id (some { object with dmaPins := pins, exclusiveDmaPins := exclusive })).setHolders
    id { holders with dmaPins := holders.dmaPins.erase pin }).takeDeferred id

/-! ### Copy pins -/

def copyAdmission (owner : AddressSpaceId) (cap : ℕ) :
    Except MemoryObjectError (ℕ × MemoryObject) := do
  let (entry, object) ← s.lookupObject owner cap .onlyMapRead
  ensure (object.owner = owner) .wrongOwner
  ensure (object.destroyWhenUnpinned = false ∧ object.retirementPins = 0 ∧
    (object.lendState = .none ∨ object.lendState.isRead = true) ∧ object.dmaPins = 0) .lendingActive
  ensure (object.mappedWritable = false) .alreadyMapped
  let _ ← okOr (checkedSucc object.copyPins) .invalidLength
  return (entry.object, object)

def pinForCopy (owner : AddressSpaceId) (cap : ℕ) : Except MemoryObjectError MemorySystem := do
  let handle ← okOr (s.roots owner) .addressSpaceMissing
  ensure (s.sameNamespace handle) .addressSpaceMissing
  let (id, object) ← s.copyAdmission owner cap
  let holders := s.held id
  return (s.setObject id (some { object with copyPins := object.copyPins + 1 })).setHolders id
    { holders with copyPins := holders.copyPins + 1 }

/-- `release_copy_pin_locked`. -/
def unpinCopy : Option MemorySystem := do
  let object ← s.registry.objects id
  let pins ← checkedSub object.copyPins 1
  let holders := s.held id
  return ((s.setObject id (some { object with copyPins := pins })).setHolders id
    { holders with copyPins := holders.copyPins - 1 }).takeDeferred id

/-! ### Kernel access -/

def snapshotBytes (cap len : ℕ) : Except MemoryObjectError ℕ := do
  let (entry, object) ← s.lookupObject asid cap .onlyMapRead
  ensure (object.destroyWhenUnpinned = false ∧ object.retirementPins = 0 ∧
    object.lendState ≠ .revoking ∧ object.lendState.writtenByOther asid cap = false) .lendingActive
  ensure (len ≠ 0 ∧ len ≤ object.pages * pageSize) .invalidLength
  return entry.object

def writeBytes (cap len : ℕ) : Except MemoryObjectError ℕ := do
  let (entry, object) ← s.lookupObject asid cap .onlyMapWrite
  ensure (object.destroyWhenUnpinned = false ∧ object.retirementPins = 0 ∧ object.copyPins = 0 ∧
    object.lendState.isRead = false ∧ object.lendState ≠ .revoking ∧
    object.lendState.writtenByOther asid cap = false) .lendingActive
  ensure (len ≠ 0 ∧ len ≤ object.pages * pageSize) .invalidLength
  return entry.object

/-! ### Destinations -/

/-- `admit_capability` and `Preparing::new`; `admitted` is the answer of the budgets. -/
def admitCapability (admitted : Bool) : Except MemoryObjectError MemorySystem :=
  match s.roots asid with
  | none => .error .addressSpaceMissing
  | some handle =>
    match (s.authority.tables.reserveCaptured asid .memory (some handle) admitted).1 with
    | .error error => .error (capabilityError error)
    | .ok token =>
      .ok { s.authorize (.reserve asid .memory (some handle) admitted) with
        preparing := ⟨token, handle⟩ :: s.preparing }

variable (destination : Preparing)

/-- `Preparing::finish` of a destination that was not published. -/
def finishPreparing : MemorySystem :=
  { s.authorize (.discard destination.authority) with
    preparing := s.preparing.erase destination }

def allocateObjectId : Except MemoryObjectError (ℕ × MemorySystem) := do
  let next ← okOr (checkedSucc s.registry.nextObject) .resourceLimit
  return (s.registry.nextObject, { s with registry := { s.registry with nextObject := next } })

/-- `AdmittedMap::insert` for objects. -/
def insertObject (object : MemoryObject) : Option MemorySystem :=
  if (s.registry.objects id).isSome then none else some (s.setObject id (some object))

/-- `Preparing::install`. -/
def install (payload : MemoryCap) : Option MemorySystem :=
  let ns := (s.registry.caps destination.handle.id).getD ⟨destination.handle, fun _ => none⟩
  if ns.handle ≠ destination.handle ∨ (ns.caps destination.authority.cap).isSome then none
  else some (s.setCap destination.handle.id ns destination.authority.cap (some payload))

/-- The last hold of `allocate`; `active` is the answer of the budget of the frames. -/
def allocate (pages : ℕ) (active : Bool) : Option MemorySystem :=
  let result : Except MemoryObjectError (ℕ × MemorySystem) := do
    ensure (pages ≠ 0 ∧ pages ≤ maxMemoryObjectPages) .invalidLength
    ensure (active = true) .addressSpaceMissing
    ensure (s.sameNamespace destination.handle) .addressSpaceMissing
    s.allocateObjectId
  match result with
  | .error _ => some (s.finishPreparing destination)
  | .ok (id, s) =>
    match s.authority.tables.publishBatch [⟨destination.authority, none⟩] with
    | none => none
    | some (.error _, _) => some (s.finishPreparing destination)
    | some (.ok _, _) => do
        let s ← (s.authorize (.batch [⟨destination.authority, none⟩])).insertObject id
          { owner := destination.handle.id, pages }
        let s ← s.install destination ⟨id, .all, false, false⟩
        return { s with preparing := s.preparing.erase destination }

/-! ### Transfers -/

/-- The checks of `prepare_source_transfer_with` before the escrow. -/
def transferAdmission (owner : AddressSpaceId) (cap : ℕ) (target : AddressSpaceId)
    (loan : Option Bool) (readOnly : Bool) : Except MemoryObjectError (MemoryCap × MemoryObject) := do
  let entry ← s.lookup owner cap
  ensure (entry.transferInFlight = false) .lendingActive
  let needed : MemoryObjectRights :=
    match loan with
    | some true => .onlyMapWrite
    | some false => .onlyMapRead
    | none => .onlyTransfer
  ensure (entry.rights.contains needed = true ∧
    (readOnly = true → entry.rights.contains .onlyMapRead = true)) .missingRight
  let object ← okOr (s.registry.objects entry.object) .unknownCapability
  ensure (object.owner = owner) .wrongOwner
  object.validateSourceTransfer target loan false
  let _ ← okOr (checkedSucc object.copyPins) .resourceLimit
  return (entry, object)

/-- A move or a loan. The source is fenced, pinned and put into escrow. -/
def prepareSourceTransfer (owner : AddressSpaceId) (cap : ℕ)
    (loan : Option Bool) (readOnly : Bool) : Except MemoryObjectError MemorySystem := do
  ensure (loan.isSome → owner ≠ destination.handle.id) .wrongOwner
  let handle ← okOr (s.roots owner) .addressSpaceMissing
  ensure (s.accepting handle = true ∧ s.accepting destination.handle = true) .addressSpaceMissing
  let (entry, object) ← s.transferAdmission owner cap destination.handle.id loan readOnly
  match s.authority.tables.escrowCaptured owner cap .memory (some handle) with
  | .error error => .error (capabilityError error)
  | .ok (escrow, _) =>
    let ns ← okOr (s.registry.caps owner) .unknownCapability
    let source : PreparedSource := ⟨owner, handle, cap, entry, escrow⟩
    let payload : PreparedPayload :=
      match loan with
      | some write => .loan source write
      | none => .move source (if readOnly then .onlyMapRead else entry.rights)
    let holders := s.held entry.object
    let s := (s.authorize (.escrow owner cap .memory (some handle))).setObject entry.object
      (some { object with copyPins := object.copyPins + 1, transferRoot := some handle })
    let s := s.setCap owner ns cap (some { entry with transferInFlight := true })
    let s := s.setHolders entry.object { holders with
      transfers := ⟨destination.handle.id, destination, payload, false⟩ :: holders.transfers }
    return { s with preparing := s.preparing.erase destination }

/-- The last hold of `prepare_copy_with`, while the pin on the source `id` is held. -/
def prepareCopy (id : ℕ) : Except MemoryObjectError MemorySystem := do
  let pages := (s.registry.objects id).elim 0 (·.pages)
  let (object, s) ← s.allocateObjectId
  let holders := s.held object
  let s := s.setHolders object { holders with
    transfers := ⟨destination.handle.id, destination, .copy object pages, false⟩ ::
      holders.transfers }
  return { s with preparing := s.preparing.erase destination }

/-- The checks of a commit for the source of one transfer. -/
def validateSource (source : PreparedSource) (target : AddressSpaceId) (loan : Option Bool) :
    Except MemoryObjectError Unit := do
  ensure (s.accepting source.handle = true) .addressSpaceMissing
  let stored ← okOr (s.cap? source.owner source.cap) .addressSpaceMissing
  let object ← okOr (s.registry.objects source.entry.object) .addressSpaceMissing
  ensure (stored.object = source.entry.object ∧ stored.rights = source.entry.rights ∧
    stored.transferInFlight = true ∧ object.owner = source.owner) .addressSpaceMissing
  object.validateSourceTransfer target loan true

/-- The checks of a commit for one transfer; the admission of the frames of a copy stays active. -/
def validateTransfer (t : PreparedTransfer) : Except MemoryObjectError Unit := do
  ensure (t.committed = false ∧ s.accepting t.destination.handle = true) .addressSpaceMissing
  ensure (s.sameNamespace t.destination.handle) .addressSpaceMissing
  match t.payload with
  | .copy _ _ => return ()
  | .move source _ => s.validateSource source t.target none
  | .loan source write => s.validateSource source t.target (some write)

/-- The transfer is marked as committed. -/
def markCommitted (t : PreparedTransfer) : MemorySystem :=
  let holders := s.held t.object
  s.setHolders t.object { holders with
    transfers := { t with committed := true } :: holders.transfers.erase t }

/-- The payload of one transfer, after its authority has been published. -/
def publishPayload (deliveryPending : Bool) (t : PreparedTransfer) : Option MemorySystem :=
  match t.payload with
  | .move source rights => do
      let ns ← s.registry.caps source.owner
      let _ ← ns.caps source.cap
      let s := s.setCap source.owner ns source.cap none
      let object ← s.registry.objects source.entry.object
      let s := s.setObject source.entry.object (some { object with owner := t.target })
      let s ← s.install t.destination ⟨source.entry.object, rights, false, deliveryPending⟩
      return s.markCommitted t
  | .copy id pages => do
      let s ← s.insertObject id { owner := t.target, pages }
      let s ← s.install t.destination ⟨id, .all, false, deliveryPending⟩
      return s.markCommitted t
  | .loan source write => do
      let object ← s.registry.objects source.entry.object
      let lendState ← t.lend write object.lendState
      let s := s.setObject source.entry.object (some { object with lendState })
      let s ← s.install t.destination
        ⟨source.entry.object, if write then ⟨true, true, false⟩ else .onlyMapRead, false, false⟩
      return s.markCommitted t

def publications (transfers : List PreparedTransfer) (additional : List Reservation) :
    List Publication :=
  additional.map (fun destination => ⟨destination, none⟩) ++ transfers.map (·.publication)

/-- `commit_transfers_with_delivery`. -/
def commitTransfers (transfers : List PreparedTransfer) (additional : List Reservation)
    (deliveryPending : Bool) : Option (Except MemoryObjectError MemorySystem) :=
  if 2 ^ 64 ≤ transfers.length + additional.length then some (.error .resourceLimit)
  else
    match transfers.forM s.validateTransfer with
    | .error error => some (.error error)
    | .ok _ =>
      match s.authority.tables.publishBatch (publications transfers additional) with
      | none => none
      | some (.error error, _) => some (.error (capabilityError error))
      | some (.ok _, _) =>
        (transfers.foldlM (fun (s : MemorySystem) t => s.publishPayload deliveryPending t)
          (s.authorize (.batch (publications transfers additional)))).map .ok

/-- The fence of a source is lifted, if the source is still there. -/
def clearFence (source : PreparedSource) : Option MemorySystem :=
  match s.registry.caps source.owner with
  | none => some s
  | some ns =>
    match ns.caps source.cap with
    | none => some s
    | some entry =>
      if entry.object ≠ source.entry.object then some s
      else if entry.transferInFlight = false then none
      else some (s.setCap source.owner ns source.cap (some { entry with transferInFlight := false }))

/-- `PreparedTransfer::drop`. -/
def dropTransfer (t : PreparedTransfer) : Option MemorySystem :=
  let holders := s.held t.object
  let s := s.setHolders t.object { holders with transfers := holders.transfers.erase t }
  let finish := fun (s : MemorySystem) =>
    if t.committed then s else s.authorize (.discard t.destination.authority)
  match t.source? with
  | none => some (finish s)
  | some source => do
      let s := if t.committed then s else s.authorize (.rollback source.escrow true)
      let object ← s.registry.objects t.object
      let pins ← checkedSub object.copyPins 1
      let s := (s.setObject t.object (some { object with
        closeInterest := none, copyPins := pins })).takeDeferred t.object
      let s ← s.clearFence source
      let s := (s.registry.objects t.object).elim s fun object =>
        s.setObject t.object (some { object with transferRoot := none })
      return finish { s with closed := object.closeInterest.toList ++ s.closed }

/-- `deliver_memory` for one capability. -/
def deliverOne (s : MemorySystem) (cap : ℕ) : MemorySystem :=
  match s.registry.caps asid with
  | none => s
  | some ns =>
    match ns.caps cap with
    | none => s
    | some entry => s.setCap asid ns cap (some { entry with deliveryPending := false })

def deliverMemory (caps : List ℕ) : MemorySystem :=
  caps.foldl (deliverOne asid) s

/-! ### Revocation of loans -/

def prepareRevocation (owner : AddressSpaceId) (cap : ℕ) (borrower : AddressSpaceId)
    (borrowerCap : ℕ) : Except MemoryObjectError MemorySystem := do
  let entry ← s.lookup owner cap
  let object ← okOr (s.registry.objects entry.object) .unknownCapability
  ensure (object.owner = owner) .wrongOwner
  ensure (object.destroyWhenUnpinned = false ∧ object.retirementPins = 0 ∧ object.dmaPins = 0)
    .lendingActive
  ensure (object.lendState ≠ .none) .notLent
  ensure (object.lendState ≠ .revoking) .lendingActive
  ensure (object.lendState.referencesCap borrower borrowerCap = true) .unknownCapability
  let lent ← s.lookup borrower borrowerCap
  ensure (lent.object = entry.object) .unknownCapability
  let holders := s.held entry.object
  return (s.setObject entry.object (some { object with
      retirementPins := object.retirementPins + 1
      lendState := .revoking })).setHolders entry.object
    { holders with retirements := .revoke ⟨owner, cap, borrower, borrowerCap, object.lendState,
        object.mappings.lookup borrower⟩ :: holders.retirements }

/-- `cancel_prepared`, before anything has been detached. -/
def cancelRevocation (loan : LoanRevocation) : Option MemorySystem := do
  let object ← s.registry.objects id
  if object.lendState ≠ .revoking ∨ object.mappings.lookup loan.borrower ≠ loan.mapping then none
  else
    let holders := s.held id
    return (s.setObject id (some { object with lendState := loan.prior })).setHolders id
      { holders with retirements := .release :: holders.retirements.erase (.revoke loan) }

/-- The last hold of `LoanRevocation::finish`, or the pin is retained. -/
def finishRevocation (loan : LoanRevocation) (confirmed : Bool) : Option MemorySystem :=
  let holders := s.held id
  let rest := holders.retirements.erase (.revoke loan)
  if confirmed = false then
    some (s.setHolders id { holders with retirements := .retained (some loan) :: rest })
  else do
    let object ← s.registry.objects id
    let owned ← (s.lookup loan.owner loan.ownerCap).toOption
    let lent ← (s.lookup loan.borrower loan.borrowerCap).toOption
    let ns ← s.registry.caps loan.borrower
    if owned.object ≠ id ∨ lent.object ≠ id ∨ object.lendState ≠ .revoking ∨
        object.mappings.lookup loan.borrower ≠ loan.mapping ∨
        loan.prior.referencesCap loan.borrower loan.borrowerCap = false then none
    else
      let s := s.setObject id (some { object.unmap loan.borrower with
        lendState := loan.prior.withoutBorrower loan.borrower })
      let s := s.setCap loan.borrower ns loan.borrowerCap none
      let s := s.authorize (.detach loan.borrower loan.borrowerCap .memory)
      return s.setHolders id { holders with retirements := .release :: rest }

/-! ### Closing -/

/-- `prepare_close_cap`; the object goes with the capability of its owner. -/
def prepareCloseCap : Except MemoryObjectError MemorySystem := do
  let entry ← s.lookupForCleanup asid cap
  let object ← okOr (s.registry.objects entry.object) .unknownCapability
  let ns ← okOr (s.registry.caps asid) .unknownCapability
  let closed := (s.setCap asid ns cap none).authorize (.detach asid cap .memory)
  if object.owner ≠ asid then
    ensure (object.lendState.referencesCap asid cap = false) .lendingActive
    return closed
  else
    ensure (object.lendState.isActive = false ∧ object.dmaPins = 0 ∧ object.copyPins = 0 ∧
      object.retirementPins = 0) .lendingActive
    ensure (object.mappings = []) .alreadyMapped
    return closed.setObject entry.object none

/-- A capability that is not in flight is looked up and closed. -/
def closeNow : MemorySystem :=
  match s.lookup asid cap with
  | .error _ => s
  | .ok _ =>
    match s.prepareCloseCap asid cap with
    | .error _ => s
    | .ok s => s

/-- The first hold of `close_cap`. A close of a capability under transfer expects the root of the
transfer, and waits. -/
def close : Option MemorySystem :=
  if s.transferInFlight asid cap = false then some (s.closeNow asid cap)
  else do
    let entry ← s.cap? asid cap
    let object ← s.registry.objects entry.object
    let _ ← object.transferRoot
    return { s with closers := ⟨asid, cap, entry.object⟩ :: s.closers }

/-- The first hold of the loop of a waiting close. -/
def closeRetry (closer : Closer) : MemorySystem :=
  match (s.cap? closer.asid closer.cap).filter (·.object == closer.object) with
  | none => { s with closers := s.closers.erase closer }
  | some entry =>
    if entry.transferInFlight = false then
      { s.closeNow closer.asid closer.cap with closers := s.closers.erase closer }
    else
      match s.registry.objects closer.object with
      | none => { s with closers := s.closers.erase closer }
      | some object =>
        match object.closeInterest with
        | none => s
        | some interest => { s with waiters := ⟨interest, closer⟩ :: s.waiters }

/-- Its second hold, with a list of waiters prepared. -/
def closeRegister (closer : Closer) : Option MemorySystem :=
  if (s.cap? closer.asid closer.cap).any
      (fun entry => entry.object == closer.object && entry.transferInFlight) = false then some s
  else do
    let object ← s.registry.objects closer.object
    match object.closeInterest with
    | some interest => return { s with waiters := ⟨interest, closer⟩ :: s.waiters }
    | none =>
      return { s.setObject closer.object (some { object with
          closeInterest := some s.nextInterest }) with
        waiters := ⟨s.nextInterest, closer⟩ :: s.waiters
        nextInterest := s.nextInterest + 1 }

end MemorySystem

/-! ### Runs -/

inductive MemoryOperation
  | publishMapping (asid : AddressSpaceId) (cap base : ℕ) (writable : Bool)
  | recordMapping (id : ℕ) (asid : AddressSpaceId) (base installed : ℕ)
      (outcome : MemorySystem.MapOutcome)
  | claimUnmap (asid : AddressSpaceId) (cap : ℕ)
  | finishUnmap (id : ℕ) (asid : AddressSpaceId) (confirmed : Bool)
  | releasePin (id : ℕ)
  | pinForDma (pin : DmaPin)
  | unpinDma (id : ℕ) (pin : DmaPin)
  | pinForCopy (owner : AddressSpaceId) (cap : ℕ)
  | unpinCopy (id : ℕ)
  | admitCapability (asid : AddressSpaceId) (admitted : Bool)
  | finishPreparing (destination : Preparing)
  | allocate (destination : Preparing) (pages : ℕ) (active : Bool)
  | prepareSourceTransfer (destination : Preparing) (owner : AddressSpaceId) (cap : ℕ)
      (loan : Option Bool) (readOnly : Bool)
  | prepareCopy (destination : Preparing) (id : ℕ)
  | commitTransfers (transfers : List PreparedTransfer) (additional : List Reservation)
      (deliveryPending : Bool)
  | dropTransfer (transfer : PreparedTransfer)
  | deliverMemory (asid : AddressSpaceId) (caps : List ℕ)
  | prepareRevocation (owner : AddressSpaceId) (cap : ℕ) (borrower : AddressSpaceId)
      (borrowerCap : ℕ)
  | cancelRevocation (id : ℕ) (loan : LoanRevocation)
  | finishRevocation (id : ℕ) (loan : LoanRevocation) (confirmed : Bool)
  | close (asid : AddressSpaceId) (cap : ℕ)
  | closeRetry (closer : Closer)
  | closeRegister (closer : Closer)
  /-- Another part of the kernel uses the capability table. -/
  | authorize (operation : CapabilityOperation)

namespace MemorySystem

variable (s : MemorySystem)

/-- An operation that is refused changes nothing. -/
def orElse (result : Except MemoryObjectError MemorySystem) (unchanged : MemorySystem) : MemorySystem :=
  match result with
  | .error _ => unchanged
  | .ok s => s

theorem orElse_of {P : MemorySystem → Prop} {result : Except MemoryObjectError MemorySystem}
    {unchanged : MemorySystem} (hunc : P unchanged) (hok : ∀ s, result = .ok s → P s) :
    P (orElse result unchanged) := by
  cases result with
  | error => exact hunc
  | ok s => exact hok s rfl

/-- The transfers and the other authority of a batch are held, each once. -/
def HoldsBatch (transfers : List PreparedTransfer) (additional : List Reservation) : Prop :=
  transfers.Nodup ∧ (∀ t ∈ transfers, t ∈ (s.held t.object).transfers) ∧
    s.authority.Holds (publications transfers additional)

instance (transfers : List PreparedTransfer) (additional : List Reservation) :
    Decidable (s.HoldsBatch transfers additional) :=
  inferInstanceAs (Decidable (_ ∧ _ ∧ _))

/-- One operation. What is not held cannot be used. -/
def step (s : MemorySystem) : MemoryOperation → Option MemorySystem
  | .publishMapping asid cap base writable => some (orElse (s.publishMapping asid cap base writable) s)
  | .recordMapping id asid base installed outcome =>
    if .install asid base ∉ (s.held id).retirements then some s
    else some (s.recordMapping id asid base installed outcome)
  | .claimUnmap asid cap => some (orElse (s.claimUnmap asid cap) s)
  | .finishUnmap id asid confirmed =>
    if .unmap asid ∉ (s.held id).retirements then some s else s.finishUnmap id asid confirmed
  | .releasePin id => if .release ∉ (s.held id).retirements then some s else s.releasePin id
  | .pinForDma pin => some (orElse (s.pinForDma pin) s)
  | .unpinDma id pin => if pin ∉ (s.held id).dmaPins then some s else s.unpinDma id pin
  | .pinForCopy owner cap => some (orElse (s.pinForCopy owner cap) s)
  | .unpinCopy id => if (s.held id).copyPins = 0 then some s else s.unpinCopy id
  | .admitCapability asid admitted => some (orElse (s.admitCapability asid admitted) s)
  | .finishPreparing destination =>
    if destination ∉ s.preparing then some s else some (s.finishPreparing destination)
  | .allocate destination pages active =>
    if destination ∉ s.preparing then some s else s.allocate destination pages active
  | .prepareSourceTransfer destination owner cap loan readOnly =>
    if destination ∉ s.preparing then some s
    else some (orElse (s.prepareSourceTransfer destination owner cap loan readOnly)
      (s.finishPreparing destination))
  | .prepareCopy destination id =>
    if destination ∉ s.preparing ∨ (s.held id).copyPins = 0 then some s
    else some (orElse (s.prepareCopy destination id) (s.finishPreparing destination))
  | .commitTransfers transfers additional deliveryPending =>
    if ¬ s.HoldsBatch transfers additional then some s
    else (s.commitTransfers transfers additional deliveryPending).map fun result => orElse result s
  | .dropTransfer transfer =>
    if transfer ∉ (s.held transfer.object).transfers then some s else s.dropTransfer transfer
  | .deliverMemory asid caps => some (s.deliverMemory asid caps)
  | .prepareRevocation owner cap borrower borrowerCap =>
    some (orElse (s.prepareRevocation owner cap borrower borrowerCap) s)
  | .cancelRevocation id loan =>
    if .revoke loan ∉ (s.held id).retirements then some s else s.cancelRevocation id loan
  | .finishRevocation id loan confirmed =>
    if .revoke loan ∉ (s.held id).retirements then some s else s.finishRevocation id loan confirmed
  | .close asid cap => s.close asid cap
  | .closeRetry closer => if closer ∉ s.closers then some s else some (s.closeRetry closer)
  | .closeRegister closer => if closer ∉ s.closers then some s else s.closeRegister closer
  | .authorize operation => some (s.authorize operation)

def run (s : MemorySystem) (operations : List MemoryOperation) : Option MemorySystem :=
  operations.foldlM step s

/-- No object and no token yet. -/
structure Initial (s : MemorySystem) : Prop where
  objects : s.registry.objects = fun _ => none
  caps : s.registry.caps = fun _ => none
  held : s.held = fun _ => {}
  preparing : s.preparing = []
  closers : s.closers = []
  waiters : s.waiters = []
  closed : s.closed = []

/-- Two address spaces that have no memory yet. -/
def twoSpaces : MemorySystem where
  registry := ⟨1, fun _ => none, fun _ => none⟩
  authority := CapabilitySystem.new.run [.attach 1 (some ⟨1, 1⟩), .attach 2 (some ⟨2, 1⟩)]
  roots asid := if asid = 1 ∨ asid = 2 then some ⟨asid, 1⟩ else none
  accepting _ := true
  held _ := {}
  preparing := []
  closers := []
  waiters := []
  nextInterest := 0
  closed := []

theorem initial_twoSpaces : twoSpaces.Initial := ⟨rfl, rfl, rfl, rfl, rfl, rfl, rfl⟩

end MemorySystem

end Charlotte.Kernel
