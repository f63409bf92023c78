import Charlotte.Kernel.CapabilityTable

/-!
# Memory objects

The records of `catten/src/memory/object.rs` and the checks that read a single object. The frames of
an object are its number of pages; what is in them is left out.
-/

namespace Charlotte.Kernel

open Lib

/-- Why a request is refused. -/
inductive MemoryObjectError
  | unknownCapability
  | wrongOwner
  | alreadyMapped
  | notMapped
  | invalidLength
  | addressSpaceMissing
  | mapFailed
  | missingRight
  | lendingActive
  | notLent
  | resourceLimit
  deriving DecidableEq

def capabilityError : AllocationError → MemoryObjectError
  | .retired => .addressSpaceMissing
  | .unknownCapability => .unknownCapability
  | _ => .resourceLimit

def pageSize : ℕ := 4096

def maxMemoryObjectPages : ℕ := 16384

/-- `checked_add(1)` of a machine word. -/
def checkedSucc (n : ℕ) : Option ℕ :=
  if n + 1 < 2 ^ 64 then some (n + 1) else none

/-- `checked_sub` of a machine word. -/
def checkedSub (n k : ℕ) : Option ℕ :=
  if n < k then none else some (n - k)

theorem checkedSub_eq_some {n k m : ℕ} : checkedSub n k = some m ↔ k ≤ n ∧ m = n - k := by
  unfold checkedSub
  split
  · rename_i h
    exact ⟨nofun, fun h' => absurd h'.1 (Nat.not_le.mpr h)⟩
  · rename_i h
    exact ⟨fun h' => ⟨Nat.not_lt.mp h, (Option.some.inj h').symm⟩, fun h' => congrArg some h'.2.symm⟩

/-! ### User addresses -/

/-- The end of user space. -/
def userEnd : ℕ := 2 ^ 47

def stackBase : ℕ := 0x01000000

/-- Sixty-four stacks of sixty-four pages, each with a guard page. -/
def stackEnd : ℕ := stackBase + 64 * ((64 + 1) * pageSize)

def validRange (start len : ℕ) : Prop :=
  pageSize ≤ start ∧ len ≠ 0 ∧ start + len ≤ userEnd

def overlapsStack (start len : ℕ) : Prop :=
  2 ^ 64 ≤ start + len ∨ start < stackEnd ∧ stackBase < start + len

/-- `valid_application_pages`. -/
def validApplicationPages (start pages : ℕ) : Prop :=
  start % pageSize = 0 ∧ pages * pageSize < 2 ^ 64 ∧ validRange start (pages * pageSize) ∧
    ¬ overlapsStack start (pages * pageSize)

instance (start pages : ℕ) : Decidable (validApplicationPages start pages) := by
  unfold validApplicationPages validRange overlapsStack
  infer_instance

/-! ### Rights -/

/-- What a capability allows. -/
structure MemoryObjectRights where
  mapRead : Bool
  mapWrite : Bool
  transfer : Bool
  deriving DecidableEq

namespace MemoryObjectRights

def all : MemoryObjectRights := ⟨true, true, true⟩

def onlyMapRead : MemoryObjectRights := ⟨true, false, false⟩

def onlyMapWrite : MemoryObjectRights := ⟨false, true, false⟩

def onlyTransfer : MemoryObjectRights := ⟨false, false, true⟩

def contains (rights other : MemoryObjectRights) : Bool :=
  (!other.mapRead || rights.mapRead) && (!other.mapWrite || rights.mapWrite) &&
    (!other.transfer || rights.transfer)

end MemoryObjectRights

/-! ### Loans -/

/-- To whom an object is lent. -/
inductive LendState
  | none
  /-- New access is fenced off while the mapping of the borrower is removed. -/
  | revoking
  | read (borrowers : List (AddressSpaceId × ℕ))
  | write (borrower : AddressSpaceId) (cap : ℕ)
  deriving DecidableEq

namespace LendState

def isActive : LendState → Bool
  | .none => false
  | _ => true

def isRead : LendState → Bool
  | .read _ => true
  | _ => false

variable (borrower : AddressSpaceId)

def hasReader : LendState → Bool
  | .read borrowers => (borrowers.lookup borrower).isSome
  | _ => false

/-- Fails where the source is unreachable or would replace a borrower. -/
def publishRead (cap : ℕ) : LendState → Option LendState
  | .none => some (.read [(borrower, cap)])
  | .read borrowers =>
    if (borrowers.lookup borrower).isSome then Option.none
    else some (.read ((borrower, cap) :: borrowers))
  | _ => Option.none

def referencesCap (asid : AddressSpaceId) (cap : ℕ) : LendState → Bool
  | .none => false
  | .revoking => true
  | .read borrowers => borrowers.lookup asid == some cap
  | .write borrower lent => borrower == asid && lent == cap

/-- Held by somebody else than this capability. -/
def writtenByOther (asid : AddressSpaceId) (cap : ℕ) : LendState → Bool
  | .write borrower lent => borrower != asid || lent != cap
  | _ => false

/-- What remains of a loan after one borrower has been revoked. -/
def withoutBorrower : LendState → LendState
  | .read borrowers =>
    let rest := borrowers.filter (·.1 != borrower)
    if rest.isEmpty then .none else .read rest
  | _ => .none

end LendState

/-! ### Objects -/

/-- Where an address space has an object. -/
structure MemoryMappingState where
  base : ℕ
  installedPages : ℕ
  writable : Bool
  deriving DecidableEq

/-- `close_interest` is the number of the list of waiters. -/
structure MemoryObject where
  owner : AddressSpaceId
  pages : ℕ
  mappings : List (AddressSpaceId × MemoryMappingState) := []
  lendState : LendState := .none
  dmaPins : ℕ := 0
  exclusiveDmaPins : ℕ := 0
  copyPins : ℕ := 0
  retirementPins : ℕ := 0
  destroyWhenUnpinned : Bool := false
  closeInterest : Option ℕ := none
  transferRoot : Option AddressSpaceHandle := none
  deriving DecidableEq

namespace MemoryObject

variable (object : MemoryObject)

def mappedWritable : Bool :=
  object.mappings.any (·.2.writable)

/-- The address space has a mapping. -/
def isMapped (asid : AddressSpaceId) : Bool :=
  (object.mappings.lookup asid).isSome

/-- The mapping of an address space is taken out. -/
def unmap (asid : AddressSpaceId) : MemoryObject :=
  { object with mappings := object.mappings.filter (·.1 != asid) }

/-- What a loan leaves its owner and its borrowers to map. -/
def checkMapLendState (asid : AddressSpaceId) (writable : Bool) :
    Except MemoryObjectError Unit :=
  if object.owner = asid then
    match object.lendState with
    | .none => .ok ()
    | .read _ => if writable then .error .lendingActive else .ok ()
    | _ => .error .lendingActive
  else
    match object.lendState with
    | .read borrowers =>
      if (borrowers.lookup asid).isSome then
        if writable then .error .missingRight else .ok ()
      else .error .wrongOwner
    | .write borrower _ => if borrower = asid then .ok () else .error .wrongOwner
    | _ => .error .wrongOwner

/-- `loan` is absent for a move, and says for a loan whether it can write. -/
def validateSourceTransfer (target : AddressSpaceId) (loan : Option Bool)
    (prepared : Bool) : Except MemoryObjectError Unit := do
  ensure (object.destroyWhenUnpinned = false ∧ object.retirementPins = 0 ∧ object.dmaPins = 0)
    .lendingActive
  if loan = some false then
    ensure (object.lendState = .none ∨ object.lendState.isRead = true) .lendingActive
    ensure (object.lendState.hasReader target = false) .lendingActive
    ensure (object.mappedWritable = false) .alreadyMapped
    ensure (prepared = true → object.copyPins ≠ 0) .lendingActive
  else
    ensure (object.lendState.isActive = false ∧ object.copyPins = if prepared then 1 else 0)
      .lendingActive
    ensure (object.mappings = []) .alreadyMapped

end MemoryObject

end Charlotte.Kernel
