import Charlotte.Lib.Checks

/-!
# The capability table of the kernel

One namespace of capabilities per address space, after `catten/src/capability.rs`. Every
function here is one hold of the table's lock. The identity of a namespace is the account
object that it shares with the tokens taken from it; accounts are numbered in the order
in which they are made, and capabilities are numbers too. The charge of a record is left out but for its refusal.
-/

namespace Charlotte.Kernel

open Lib

abbrev AddressSpaceId := ℕ

def kernelAsid : AddressSpaceId := 0

structure AddressSpaceHandle where
  id : AddressSpaceId
  generation : ℕ
  deriving DecidableEq

inductive ObjectKind
  | ipc
  | memory
  | completion
  | device
  | mailbox
  | systemObserver
  deriving DecidableEq

inductive EntryState
  | staged
  | live
  | escrow
  deriving DecidableEq

structure Entry where
  kind : ObjectKind
  state : EntryState
  deriving DecidableEq

inductive AllocationError
  | identityExhausted
  | resourceLimit
  | retired
  | unknownCapability
  deriving DecidableEq

structure AddressSpaceCapabilities where
  nextSerial : ℕ
  addressSpace : Option AddressSpaceHandle
  account : ℕ
  accepting : Bool
  objects : ℕ → Option Entry

structure Reservation where
  owner : AddressSpaceId
  cap : ℕ
  kind : ObjectKind
  account : ℕ
  deriving DecidableEq

structure SourceEscrow where
  owner : AddressSpaceId
  cap : ℕ
  kind : ObjectKind
  account : ℕ
  deriving DecidableEq

inductive SourceDisposition
  | revoke
  | restore
  deriving DecidableEq

structure Publication where
  destination : Reservation
  source : Option (SourceEscrow × SourceDisposition)
  deriving DecidableEq

/-- `CAPABILITIES`, and the number of the next account. -/
structure CapabilityTables where
  namespaces : AddressSpaceId → Option AddressSpaceCapabilities
  nextAccount : ℕ

namespace CapabilityTables

def new : CapabilityTables := ⟨fun _ => none, 0⟩

variable (t : CapabilityTables)

variable (owner : AddressSpaceId)

def setNamespace (table : Option AddressSpaceCapabilities) : CapabilityTables :=
  { t with namespaces := Function.update t.namespaces owner table }

/-- The record of a capability is replaced or taken out. -/
def setEntry (table : AddressSpaceCapabilities)
    (cap : ℕ) (entry : Option Entry) : CapabilityTables :=
  t.setNamespace owner (some { table with objects := Function.update table.objects cap entry })

/-- The namespace of an address space, if it is the one with this account. -/
def captured (account : ℕ) : Option AddressSpaceCapabilities :=
  (t.namespaces owner).filter fun table => table.account == account

/-! ### Namespaces -/

/-- `publish_into`; the namespace must not exist. -/
def attach (identity : Option AddressSpaceHandle) : CapabilityTables :=
  { t.setNamespace owner (some ⟨1, identity, t.nextAccount, true, fun _ => none⟩) with
    nextAccount := t.nextAccount + 1 }

def retireAddressSpace : CapabilityTables :=
  match t.namespaces owner with
  | none => t
  | some table => t.setNamespace owner (some { table with accepting := false })

def closeAddressSpace : CapabilityTables :=
  t.setNamespace owner none

/-- Only the namespace of this handle is taken out, and only after its retirement. -/
def detachAddressSpace (handle : AddressSpaceHandle) : CapabilityTables :=
  match t.namespaces handle.id with
  | none => t
  | some table =>
    if table.addressSpace ≠ some handle ∨ table.accepting = true then t
    else t.setNamespace handle.id none

/-! ### Reservations -/

/-- `charlotte_lifecycle::claim_generation`. -/
def claimGeneration (next : ℕ) : Option (ℕ × ℕ) :=
  if next = 0 ∨ next = 2 ^ 64 - 1 then none else some (next, next + 1)

/-- `PreparingRecord::insert` and the token; `admitted` is the answer of the budgets. -/
def insertRecord (table : AddressSpaceCapabilities)
    (kind : ObjectKind) (admitted : Bool) : Except AllocationError (Reservation × CapabilityTables) := do
  ensure (table.accepting = true) .retired
  ensure (admitted = true) .resourceLimit
  let (cap, next) ← okOr (claimGeneration table.nextSerial) .identityExhausted
  return (⟨owner, cap, kind, table.account⟩,
    t.setEntry owner { table with nextSerial := next } cap (some ⟨kind, .staged⟩))

/-- `reserve_prepared_captured`. The namespaces of the kernel and of raw fixtures, which have no
handle, are made here when they are missing. -/
def reserveCaptured (kind : ObjectKind) (identity : Option AddressSpaceHandle) (admitted : Bool) :
    Except AllocationError Reservation × CapabilityTables :=
  let identity := if owner = kernelAsid then none else identity
  match t.namespaces owner with
  | none =>
    if identity.isSome then (.error .retired, t)
    else
      let t := t.attach owner none
      match t.namespaces owner with
      | none => (.error .retired, t)
      | some table =>
        match t.insertRecord owner table kind admitted with
        | .error error => (.error error, t)
        | .ok (token, t) => (.ok token, t)
  | some table =>
    if table.addressSpace ≠ identity then (.error .retired, t)
    else
      match t.insertRecord owner table kind admitted with
      | .error error => (.error error, t)
      | .ok (token, t) => (.ok token, t)

/-- `discard_captured`: the record goes if it is still in the state of the token. -/
def discardCaptured (cap account : ℕ) (state : EntryState) : CapabilityTables :=
  match t.captured owner account with
  | none => t
  | some table =>
    match table.objects cap with
    | none => t
    | some entry => if entry.state = state then t.setEntry owner table cap none else t

variable (cap : ℕ)

/-- The record of a token, if its namespace and state allow the transition to `live`. -/
def admissible (kind : ObjectKind) (account : ℕ) (state : EntryState) (allowRetired : Bool) :
    Except AllocationError AddressSpaceCapabilities := do
  let table ← okOr (t.captured owner account) .retired
  ensure (allowRetired = true ∨ table.accepting = true) .retired
  ensure (table.objects cap = some ⟨kind, state⟩) .unknownCapability
  return table

/-- `Reservation::publish`; a token that fails is dropped, which discards its record. -/
def publish (token : Reservation) :
    Except AllocationError ℕ × CapabilityTables :=
  match t.admissible token.owner token.cap token.kind token.account .staged false with
  | .ok table => (.ok token.cap, t.setEntry token.owner table token.cap (some ⟨token.kind, .live⟩))
  | .error error => (.error error, t.discardCaptured token.owner token.cap token.account .staged)

/-! ### Escrow -/

def escrowCaptured (kind : ObjectKind) (identity : Option AddressSpaceHandle) :
    Except AllocationError (SourceEscrow × CapabilityTables) := do
  let identity := if owner = kernelAsid then none else identity
  let table ← okOr (t.namespaces owner) .unknownCapability
  ensure (table.addressSpace = identity ∧ table.accepting = true) .retired
  ensure (table.objects cap = some ⟨kind, .live⟩) .unknownCapability
  return (⟨owner, cap, kind, table.account⟩, t.setEntry owner table cap (some ⟨kind, .escrow⟩))

/-- `restore_inner`; a token that fails is dropped, which revokes its record. -/
def restoreInner (token : SourceEscrow) (allowRetired : Bool) :
    Except AllocationError ℕ × CapabilityTables :=
  match t.admissible token.owner token.cap token.kind token.account .escrow allowRetired with
  | .ok table => (.ok token.cap, t.setEntry token.owner table token.cap (some ⟨token.kind, .live⟩))
  | .error error => (.error error, t.discardCaptured token.owner token.cap token.account .escrow)

def rollback (token : SourceEscrow) :
    Except AllocationError ℕ × CapabilityTables :=
  t.restoreInner token true

/-! ### Batches -/

/-- The checks of the first pass for one publication. -/
def validate (publication : Publication) : Except AllocationError Unit := do
  let destination := publication.destination
  let _ ← t.admissible destination.owner destination.cap destination.kind destination.account .staged
    false
  match publication.source with
  | none => return ()
  | some (source, _) =>
    let _ ← t.admissible source.owner source.cap source.kind source.account .escrow false
    return ()

/-- The record of a capability changes; `none` is an unwrap that panics. -/
def update? (change : Entry → Option Entry) : Option CapabilityTables := do
  let table ← t.namespaces owner
  let entry ← table.objects cap
  return t.setEntry owner table cap (change entry)

def goLive (entry : Entry) : Option Entry := some { entry with state := .live }

/-- The second pass for one publication. -/
def publishOne (publication : Publication) : Option CapabilityTables := do
  let t ← t.update? publication.destination.owner publication.destination.cap goLive
  match publication.source with
  | none => return t
  | some (source, .revoke) => t.update? source.owner source.cap fun _ => none
  | some (source, .restore) => t.update? source.owner source.cap goLive

/-- `publish_batch`. The outer option is `none` if the second pass panics. -/
def publishBatch (batch : List Publication) :
    Option (Except AllocationError Unit × CapabilityTables) :=
  match batch.forM t.validate with
  | .error error => some (.error error, t)
  | .ok () => (batch.foldlM publishOne t).map fun t => (.ok (), t)

/-! ### Queries and removal -/

def contains (kind : ObjectKind) : Bool :=
  ((t.namespaces owner).bind (·.objects cap)) == some ⟨kind, .live⟩

/-- `retire_record`; the table and whether a record was taken. -/
def retireRecord (kind : ObjectKind) (accepts : EntryState → Bool) : Bool × CapabilityTables :=
  match t.namespaces owner with
  | none => (false, t)
  | some table =>
    match table.objects cap with
    | none => (false, t)
    | some entry =>
      if entry.kind = kind ∧ accepts entry.state = true then (true, t.setEntry owner table cap none)
      else (false, t)

/-- Also `remove`. -/
def detach (kind : ObjectKind) : Bool × CapabilityTables :=
  t.retireRecord owner cap kind (· == .live)

def detachForTeardown (kind : ObjectKind) : Bool × CapabilityTables :=
  t.retireRecord owner cap kind (· != .staged)

end CapabilityTables

end Charlotte.Kernel
