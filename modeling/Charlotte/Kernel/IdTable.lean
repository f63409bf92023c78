import Charlotte.Lib.Checks

/-!
# Tables of reusable identifiers

Address spaces and threads are named by an index into an `IdTable`. A slot is reused after
its element is gone, with the next generation. A lease keeps a slot's element in place, a
closing token is the authority to retire the slot, and a retirement token gives the slot of
a detached element back. The tokens are linear values: what the caller does with one is to
present it to a table, which consumes it whatever the answer is, or to drop it.

The payload and the slot state of the source are two vectors that grow together; here a slot
holds both. The three capacities are kept, because no step after publication may allocate.
-/

namespace Charlotte.Kernel

open Lib

/-- One more than the largest value of a machine word. -/
def wordLimit : ℕ := 2 ^ 64

inductive IdTableError where
  | idNotActive
  | allocationFailed
  | capacityChanged
  | wrongRetirement
  | leased
  | leaseLimit
  | wrongLease
  | closing
  deriving DecidableEq, Repr

inductive TokenKind where
  | lease
  | closing
  | retirement
  deriving DecidableEq, Repr

/-- `SlotLease`, `ClosingSlot` and `SlotRetirement`, bound to one generation of one slot of
one table. -/
structure SlotToken where
  kind : TokenKind
  table : ℕ
  id : ℕ
  generation : ℕ
  deriving DecidableEq, Repr

structure Slot (T : Type) where
  element : Option T
  generation : ℕ
  retiring : Bool
  leases : ℕ
  closing : Bool
  cleanupSealed : Bool
  deriving DecidableEq

/-- The free identifiers are a stack, its top first. -/
structure IdTable (T : Type) where
  slots : List (Slot T)
  availableIds : List ℕ
  listCapacity : ℕ
  slotsCapacity : ℕ
  availableCapacity : ℕ
  identity : ℕ
  deriving DecidableEq

/-- Storage for a larger table, allocated outside the table's serialisation. All three
buffers have the capacity that was asked for. -/
structure PreparedGrowth where
  table : ℕ
  capacity : ℕ
  installed : Bool
  deriving DecidableEq, Repr

namespace IdTable

variable {T : Type}

def new (identity : ℕ) : IdTable T := ⟨[], [], 0, 0, 0, identity⟩

variable (t : IdTable T)

variable (id : ℕ)

/-- The slot of an active element. -/
def active : Except IdTableError (Slot T) := do
  let slot ← okOr (t.slots[id]?) .idNotActive
  ensure (slot.element.isSome = true) .idNotActive
  return slot

def setSlot (slot : Slot T) : IdTable T :=
  { t with slots := t.slots.set id slot }

/-- Push on the stack of free identifiers; the room for it has been checked. -/
def release : IdTable T := { t with availableIds := id :: t.availableIds }

def takeElement : Except IdTableError (T × IdTable T) := do
  let slot ← t.active id
  ensure (slot.closing = false) .closing
  ensure (slot.leases = 0) .leased
  ensure (t.availableIds.length ≠ t.availableCapacity) .allocationFailed
  let element ← okOr slot.element .idNotActive
  return (element, (t.setSlot id { slot with element := none }).release id)

/-- One more lease of a slot, unless the count is exhausted. -/
def addLease (slot : Slot T) : Except IdTableError (SlotToken × IdTable T) := do
  ensure (slot.leases + 1 < wordLimit) .leaseLimit
  return (⟨.lease, t.identity, id, slot.generation⟩, t.setSlot id { slot with leases := slot.leases + 1 })

def lease (id generation : ℕ) : Except IdTableError (SlotToken × IdTable T) := do
  let slot ← t.active id
  ensure (slot.generation = generation) .wrongLease
  ensure (slot.closing = false) .closing
  t.addLease id slot

variable (token : SlotToken)

/-- The slot of an active element that a lease or closing token names. -/
def named (error : IdTableError) : Except IdTableError (Slot T) := do
  ensure (token.table = t.identity) error
  let slot ← okOr (t.active token.id).toOption error
  ensure (slot.generation = token.generation) error
  return slot

def finishLease : Except IdTableError (IdTable T) := do
  let slot ← t.named token .wrongLease
  ensure (slot.retiring = false ∧ slot.leases ≠ 0) .wrongLease
  return t.setSlot token.id { slot with leases := slot.leases - 1 }

def validateClosing : Except IdTableError (Slot T) := do
  let slot ← t.named token .wrongRetirement
  ensure (slot.closing = true ∧ slot.retiring = false) .wrongRetirement
  return slot

/-- A closing owner may keep a peer in place, closing or not, until either is sealed. -/
def leaseForClose (owner : SlotToken) (peer generation : ℕ) :
    Except IdTableError (SlotToken × IdTable T) := do
  let slot ← t.validateClosing owner
  ensure (slot.cleanupSealed = false) .closing
  let peerSlot ← t.active peer
  ensure (peerSlot.generation = generation) .wrongLease
  ensure (peerSlot.cleanupSealed = false) .closing
  t.addLease peer peerSlot

def sealClose : Except IdTableError (IdTable T) := do
  let slot ← t.validateClosing token
  ensure (slot.leases = 0) .leased
  return t.setSlot token.id { slot with cleanupSealed := true }

def beginClose (id generation : ℕ) : Except IdTableError (SlotToken × IdTable T) := do
  let slot ← t.active id
  ensure (slot.generation = generation) .wrongRetirement
  ensure (slot.closing = false) .closing
  ensure (t.slots.length ≤ t.availableCapacity) .allocationFailed
  return (⟨.closing, t.identity, id, generation⟩, t.setSlot id { slot with closing := true })

/-- The element is detached; the slot stays retained until its retirement is finished. -/
def retireClosing : Except IdTableError (T × SlotToken × IdTable T) := do
  let slot ← t.validateClosing token
  ensure (slot.cleanupSealed = true) .closing
  ensure (slot.leases = 0) .leased
  ensure (t.slots.length ≤ t.availableCapacity) .allocationFailed
  let element ← okOr slot.element .idNotActive
  return (element, { token with kind := .retirement },
    t.setSlot token.id { slot with element := none, retiring := true })

def finishRetirement : Except IdTableError (IdTable T) := do
  ensure (token.table = t.identity) .wrongRetirement
  let slot ← okOr (t.slots[token.id]?) .wrongRetirement
  ensure (slot.retiring = true ∧ slot.generation = token.generation ∧ slot.leases = 0) .wrongRetirement
  ensure (t.availableIds.length ≠ t.availableCapacity) .allocationFailed
  return (t.setSlot token.id
    { slot with retiring := false, closing := false, cleanupSealed := false }).release token.id

def hasInsertionCapacity : Bool :=
  t.slots.length < t.listCapacity && t.slots.length < t.slotsCapacity &&
    t.slots.length < t.availableCapacity

/-- The capacity to prepare, when there is neither a free slot nor room for one. `amount` says whether
the bytes of that many elements can be counted. -/
def growthRequest (amount : ℕ → Bool) : Except IdTableError (Option ℕ) :=
  if t.availableIds ≠ [] ∨ t.hasInsertionCapacity then .ok none
  else do
    let capacity := (max (t.slots.length + 1) 4).nextPowerOfTwo
    ensure (capacity < wordLimit ∧ amount capacity) .allocationFailed
    return some capacity

def installGrowth (growth : PreparedGrowth) :
    Except IdTableError (IdTable T × PreparedGrowth) := do
  ensure (growth.installed = false ∧ growth.table = t.identity) .allocationFailed
  ensure (t.slots.length < growth.capacity) .capacityChanged
  return ({ t with listCapacity := growth.capacity, slotsCapacity := growth.capacity,
                   availableCapacity := growth.capacity }, { growth with installed := true })

/-- Insertion into the slot on top of the stack, or else into a new one. `none` is a failed
assertion (a retained slot is reused, an index is out of bounds) or a push that would have to
allocate. -/
def place (element : T) : Option (ℕ × IdTable T) :=
  match t.availableIds with
  | id :: rest => do
      let slot ← t.slots[id]?
      if slot.retiring = false ∧ slot.closing = false ∧ slot.leases = 0 then
        some (id, { t with
          availableIds := rest
          slots := t.slots.set id { slot with generation := slot.generation + 1, element := some element } })
      else none
  | [] =>
    if t.slots.length < t.listCapacity ∧ t.slots.length < t.slotsCapacity then
      some (t.slots.length, { t with slots := t.slots ++ [⟨some element, 1, false, 0, false, false⟩] })
    else none

/-- `try_insert_from`: the answer, the table and the growth that was offered. -/
def tryInsertFrom (element : T) (growth : Option PreparedGrowth) :
    Option (Except IdTableError ℕ × IdTable T × Option PreparedGrowth) :=
  match t.availableIds with
  | id :: _ => do
      let slot ← t.slots[id]?
      if slot.generation + 1 = wordLimit then some (.error .allocationFailed, t, growth)
      else (t.place element).map fun placed => (.ok placed.1, placed.2, growth)
  | [] =>
    if t.hasInsertionCapacity then
      (t.place element).map fun placed => (.ok placed.1, placed.2, growth)
    else match growth with
      | none => some (.error .capacityChanged, t, none)
      | some growth => match t.installGrowth growth with
          | .error error => some (.error error, t, some growth)
          | .ok (t, growth) =>
            (t.place element).map fun placed => (.ok placed.1, placed.2, some growth)

/-- `Vec::try_reserve`: the capacity afterwards. `spare` is what the allocator answers when it
is asked: nothing, or how much it gives beyond what is needed. -/
def tryReserve (capacity length additional : ℕ) (spare : Option ℕ) : Option ℕ :=
  if length + additional ≤ capacity then some capacity else spare.map (length + additional + ·)

/-- `try_add_element`: a table that allocates its own storage before the insertion. Storage
reserved before a failure stays. -/
def tryAddElement (element : T) (list slots available : Option ℕ) :
    Option (Except IdTableError ℕ × IdTable T) :=
  match t.availableIds with
  | _ :: _ => (t.tryInsertFrom element none).map fun answer => (answer.1, answer.2.1)
  | [] =>
    if wordLimit ≤ t.slots.length + 1 then some (.error .allocationFailed, t)
    else match tryReserve t.listCapacity t.slots.length 1 list with
      | none => some (.error .allocationFailed, t)
      | some listCapacity =>
        match tryReserve t.slotsCapacity t.slots.length 1 slots with
        | none => some (.error .allocationFailed, { t with listCapacity })
        | some slotsCapacity =>
          match tryReserve t.availableCapacity 0 (t.slots.length + 1) available with
          | none => some (.error .allocationFailed, { t with listCapacity, slotsCapacity })
          | some availableCapacity =>
            (({ t with listCapacity, slotsCapacity, availableCapacity } :
              IdTable T).tryInsertFrom element none).map fun answer => (answer.1, answer.2.1)

end IdTable

/-- What an (identifier, generation) pair of a table was given to. -/
structure Name (T : Type) where
  table : ℕ
  id : ℕ
  generation : ℕ
  element : T
  deriving DecidableEq

/-- The tables, the tokens and prepared storage their callers hold, and every name that was
given out. -/
structure IdTables (T : Type) where
  tables : ℕ → Option (IdTable T)
  nextIdentity : ℕ
  held : List SlotToken
  growths : List PreparedGrowth
  names : List (Name T)

inductive IdRequest (T : Type) where
  | newTable
  | dropTable (table : ℕ)
  | tryAddElement (table : ℕ) (element : T) (list slots available : Option ℕ)
  | prepareGrowth (table : ℕ) (amount : ℕ → Bool)
  | tryInsertPrepared (table : ℕ) (element : T) (growth : Option ℕ)
  | takeElement (table id : ℕ)
  | lease (table id generation : ℕ)
  | leaseForClose (table : ℕ) (owner : SlotToken) (peer generation : ℕ)
  | finishLease (table : ℕ) (token : SlotToken)
  | sealClose (table : ℕ) (token : SlotToken)
  | beginClose (table id generation : ℕ)
  | retireClosing (table : ℕ) (token : SlotToken)
  | finishRetirement (table : ℕ) (token : SlotToken)
  | abandon (token : SlotToken)

/-- The table a request goes to. -/
def IdRequest.table {T : Type} : IdRequest T → Option ℕ
  | .newTable | .abandon _ => none
  | .dropTable table | .tryAddElement table .. | .prepareGrowth table _ | .tryInsertPrepared table ..
  | .takeElement table _ | .lease table .. | .leaseForClose table .. | .finishLease table _
  | .sealClose table _ | .beginClose table .. | .retireClosing table _ | .finishRetirement table _ =>
    some table

inductive IdAnswer (T : Type) where
  | done
  | inserted (id : ℕ)
  | taken (element : T)
  | token (token : SlotToken)
  | refused (error : IdTableError)
  deriving DecidableEq

namespace IdTables

variable {T : Type}

def start : IdTables T := ⟨fun _ => none, 1, [], [], []⟩

variable (w : IdTables T)

def setTable (t : IdTable T) : IdTables T :=
  { w with tables := Function.update w.tables t.identity (some t) }

/-- Log what the new element of a table is called. -/
def logName (t : IdTable T) (element : T) : Except IdTableError ℕ → IdTables T
  | .error _ => w
  | .ok id => match t.slots[id]? with
      | some slot => { w with names := ⟨t.identity, id, slot.generation, element⟩ :: w.names }
      | none => w

def answerOf : Except IdTableError ℕ → IdAnswer T
  | .error error => .refused error
  | .ok id => .inserted id

/-- The caller's token is used up, whatever the table answers. -/
def consume (token : SlotToken) : IdTables T := { w with held := w.held.erase token }

def hold (token : SlotToken) : IdTables T := { w with held := token :: w.held }

/-- A request that hands out a token. -/
def handOut : Except IdTableError (SlotToken × IdTable T) → IdAnswer T × IdTables T
  | .error error => (.refused error, w)
  | .ok (token, t) => (.token token, (w.setTable t).hold token)

/-- A request that only changes the table. -/
def change : Except IdTableError (IdTable T) → IdAnswer T × IdTables T
  | .error error => (.refused error, w)
  | .ok t => (.done, w.setTable t)

/-- A caller presents only what it holds, of the kind the operation takes. -/
def presents (kind : TokenKind) (token : SlotToken) : Prop :=
  token ∈ w.held ∧ token.kind = kind

instance (w : IdTables T) (kind : TokenKind) (token : SlotToken) : Decidable (w.presents kind token) :=
  inferInstanceAs (Decidable (_ ∧ _))

/-- One request to an existing table. -/
def serve (t : IdTable T) : IdRequest T → Option (IdAnswer T × IdTables T)
  | .tryAddElement _ element list slots available =>
    (t.tryAddElement element list slots available).map fun (answer, t') =>
      (answerOf answer, (w.setTable t').logName t' element answer)
  | .prepareGrowth _ amount => match t.growthRequest amount with
      | .error error => some (.refused error, w)
      | .ok none => some (.done, w)
      | .ok (some capacity) => some (.done, { w with growths := w.growths ++ [⟨t.identity, capacity, false⟩] })
  | .tryInsertPrepared _ element growth => do
      let (answer, t', growth') ← t.tryInsertFrom element (growth.bind (w.growths[·]?))
      let growths := match growth, growth' with
        | some index, some growth' => w.growths.set index growth'
        | _, _ => w.growths
      some (answerOf answer, { (w.setTable t').logName t' element answer with growths })
  | .takeElement _ id => match t.takeElement id with
      | .error error => some (.refused error, w)
      | .ok (element, t') => some (.taken element, w.setTable t')
  | .lease _ id generation => some (w.handOut (t.lease id generation))
  | .leaseForClose _ owner peer generation =>
    if w.presents .closing owner then some (w.handOut (t.leaseForClose owner peer generation))
    else some (.done, w)
  | .finishLease _ token =>
    if w.presents .lease token then some ((w.consume token).change (t.finishLease token))
    else some (.done, w)
  | .sealClose _ token =>
    if w.presents .closing token then some (w.change (t.sealClose token)) else some (.done, w)
  | .beginClose _ id generation => some (w.handOut (t.beginClose id generation))
  | .retireClosing _ token =>
    if w.presents .closing token then
      some ((w.consume token).handOut ((t.retireClosing token).map fun retired => retired.2))
    else some (.done, w)
  | .finishRetirement _ token =>
    if w.presents .retirement token then some ((w.consume token).change (t.finishRetirement token))
    else some (.done, w)
  | .newTable | .dropTable _ | .abandon _ => some (.done, w)

/-- A request is served by the table it goes to. Identities are never given out twice; a
counter that is exhausted ends the kernel, so no request comes after it. -/
def step (request : IdRequest T) : Option (IdAnswer T × IdTables T) :=
  match request with
  | .newTable =>
    some (.done, { w with tables := Function.update w.tables w.nextIdentity (some (.new w.nextIdentity))
                          nextIdentity := w.nextIdentity + 1 })
  | .dropTable table => some (.done, { w with tables := Function.update w.tables table none })
  | .abandon token => some (.done, w.consume token)
  | request => match request.table.bind w.tables with
      | none => some (.done, w)
      | some t => w.serve t request

/-- The requests served one after the other; `none` when one of them fails an assertion. -/
def run (w : IdTables T) : List (IdRequest T) → Option (IdTables T)
  | [] => some w
  | request :: rest => do
      let (_, w') ← w.step request
      w'.run rest

end IdTables

end Charlotte.Kernel
