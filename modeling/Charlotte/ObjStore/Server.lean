import Charlotte.ObjStore.Store

/-!
# Serving requests

The loop of `serve` in `bin/objstore.rs`, with the authorisation of
`catten-services/src/lib.rs`. `clusterctl` is the principal of the administration
service, a hash of its name.
-/

namespace Charlotte.ObjStore

open Lib

structure ScopeEntry where
  principal : ℕ
  first : ℕ
  last : ℕ
  rights : ℕ
  deriving DecidableEq, Repr

abbrev ScopeTable := List ScopeEntry

namespace ScopeTable

def magic : ℕ := 0x5043534f
def version : ℕ := 1
def headerLen : ℕ := 16
def entryLen : ℕ := 32
def maxEntries : ℕ := 64
def maxLen : ℕ := headerLen + maxEntries * entryLen

def takeEntry (bytes : Bytes) : Option (ScopeEntry × Bytes) :=
  match takeRecord [8, 8, 8, 4, 4] bytes with
  | some ([principal, first, last, rights, tail], rest) =>
    if principal = 0 ∨ last < first ∨ rights = 0 ∨ 3 < rights ∨ tail ≠ 0 then none
    else some (⟨principal, first, last, rights⟩, rest)
  | _ => none

def parse (bytes : Bytes) : Option ScopeTable :=
  match takeRecord [4, 2, 2, 8] bytes with
  | some ([tag, number, count, reserved], rest) =>
    if maxLen < bytes.length ∨ tag ≠ magic ∨ number ≠ version ∨ reserved ≠ 0 ∨ maxEntries < count ∨
        bytes.length ≠ headerLen + count * entryLen then none
    else (takeMany takeEntry count rest).map Prod.fst
  | _ => none

def encode (table : ScopeTable) : Bytes :=
  record [(4, magic), (2, version), (2, table.length), (8, 0)] ++
    table.flatMap fun entry =>
      record [(8, entry.principal), (8, entry.first), (8, entry.last), (4, entry.rights), (4, 0)]

/-- `right` is the number of a bit of `rights`. -/
def allows (table : ScopeTable) (principal id right : ℕ) : Bool :=
  table.any fun entry =>
    entry.principal == principal && decide (entry.first ≤ id) && decide (id ≤ entry.last) &&
      entry.rights.testBit right

end ScopeTable

/-- `SCOPE_RIGHT_READ` is bit 0 and `SCOPE_RIGHT_WRITE` bit 1. -/
def scopeRead : ℕ := 0
def scopeWrite : ℕ := 1

def scopeObjectId : ℕ := 0xffff000000000002

def kernelPrincipal : ℕ := 1

def isReservedObject (id : ℕ) : Bool := decide (0xfffe ≤ id / 2 ^ 48)

/-! ### Authorisation -/

section

variable (clusterctl : ℕ)

def reservedMutator (principal : ℕ) : Bool :=
  principal == kernelPrincipal || principal == clusterctl

def mayCreate (id principal : ℕ) : Bool :=
  principal != 0 && (!isReservedObject id || reservedMutator clusterctl principal)

def mayMutate (id owner principal : ℕ) : Bool :=
  owner != 0 && principal != 0 &&
    if isReservedObject id then reservedMutator clusterctl principal
    else principal == kernelPrincipal || owner == principal

def mayRead (id owner attributes principal : ℕ) : Bool :=
  owner != 0 && principal != 0 &&
    (isReservedObject id || attributes.testBit 0 || owner == principal ||
      principal == kernelPrincipal)

def mayMutateScoped (id owner principal : ℕ) (granted : Bool) : Bool :=
  owner != 0 && principal != 0 &&
    (mayMutate clusterctl id owner principal || (!isReservedObject id && granted))

def mayReadScoped (id owner attributes principal : ℕ) (granted : Bool) : Bool :=
  owner != 0 && principal != 0 && (mayRead id owner attributes principal || granted)

end

inductive Opcode
  | create
  | createAt
  | createAtShared
  | delete
  | setSize
  | write
  | read
  | info
  | applyScope
  | resize
  | flush
  | unknown
  deriving DecidableEq, Repr

/-- A request, with how the calls of the device end that it makes. -/
structure Message where
  opcode : Opcode
  arg0 : UInt64
  senderPrincipal : UInt64
  memory : Option Bytes
  faults : Faults
  /-- For the second part of installing a scope table. -/
  faultsThen : Faults
  /-- Whether memory is granted. -/
  allocated : Bool
  /-- How an explicit flush ends. -/
  flushed : Bool

namespace Message

variable (message : Message)

def id : ℕ := message.arg0.toNat

def principal : ℕ := message.senderPrincipal.toNat

/-- The requests for which the object is looked up first. -/
def resolves : Bool :=
  match message.opcode with
  | .read | .info | .delete | .setSize | .write => true
  | _ => false

end Message

inductive Reply
  | scalar (value : ℤ)
  | data (bytes : Bytes)
  deriving DecidableEq, Repr

structure Server where
  clusterctl : ℕ
  store : Store
  scope : ScopeTable

namespace Server

/-- The reply to `create`. -/
def created : Except ℤ ℕ → ℤ
  | .ok id => id
  | .error _ => 0

def createdAt : Except ℤ ℕ → ℤ
  | .ok _ => 0
  | .error error => error

def readAndReply (s : Store) (object : StoredObject) (faults : Faults) (allocated : Bool) : Reply :=
  let size := object.header.dataLen
  if allocated = false then .scalar errIoError
  else if size = 0 then .data []
  else
    match readObject s.blockSize s.device object.header.extents size with
    | none => .scalar errIoError
    | some bytes =>
      if faults.readData = false ∨ contentHash bytes ≠ object.header.dataHash then
        .scalar errIoError
      else .data bytes

/-- The scope object is created where it does not exist. -/
def ensureScopeObject (s : Store) (principal : ℕ) (faults : Faults) : Except ℤ Unit × Store :=
  match s.findIndex scopeObjectId with
  | (some _, s) => (.ok (), s)
  | (none, s) =>
    match s.create (some scopeObjectId) principal 0 faults with
    | (.error error, s) => (if error = errExists then .ok () else .error error, s)
    | (.ok _, s) => (.ok (), s)

/-- `install_scope`. -/
def installScope (s : Store) (bytes : Bytes) (principal : ℕ) (message : Message) : ℤ × Store :=
  if ScopeTable.maxLen < bytes.length then (errTooLarge, s)
  else
    match ensureScopeObject s principal message.faults with
    | (.error error, s) => (error, s)
    | (.ok (), s) =>
      if message.allocated = false then (errIoError, s)
      else
        let pages := Layout.divCeil (max bytes.length 1) pageSize * pageSize
        let memory := bytes ++ zeros (pages - bytes.length)
        let s : Store := { s with pendingSizes := s.pendingSizes.insert scopeObjectId bytes.length }
        match s.resolve scopeObjectId message.faultsThen with
        | (.error error, s) => (error, s)
        | (.ok object, s) => s.write object (some memory) message.faultsThen

variable (server : Server)

def applyScope (message : Message) : ℤ × Server :=
  if !reservedMutator server.clusterctl message.principal then (errDenied, server)
  else if message.id < ScopeTable.headerLen ∨ ScopeTable.maxLen < message.id then
    (errTooLarge, server)
  else
    match message.memory.bind (takeBytes message.id) with
    | none => (errIoError, server)
    | some (bytes, _) =>
      match ScopeTable.parse bytes with
      | none => (errInvalidId, server)
      | some table =>
        match installScope server.store table.encode message.principal message with
        | (result, store) =>
          (result, { server with store, scope := if result = 0 then table else server.scope })

/-- What is done to an object that was looked up. -/
def handleObject (message : Message) (object : StoredObject) : Reply × Server :=
  let granted := server.scope.allows message.principal message.id
  let mayMutate := mayMutateScoped server.clusterctl message.id object.header.owner message.principal
    (granted scopeWrite)
  let mayRead := mayReadScoped message.id object.header.owner object.header.attributes
    message.principal (granted scopeRead)
  let changed (result : ℤ × Store) : Reply × Server :=
    (.scalar result.1, { server with store := result.2 })
  match message.opcode with
  | .delete =>
    if mayMutate then changed (server.store.delete object message.faults)
    else (.scalar errDenied, server)
  | .setSize =>
    if mayMutate then changed (server.store.setSize object message.memory)
    else (.scalar errDenied, server)
  | .write =>
    if mayMutate then
      match message.memory with
      | none => (.scalar errIoError, server)
      | some memory => changed (server.store.write object (some memory) message.faults)
    else (.scalar errDenied, server)
  | .read =>
    (if mayRead then readAndReply server.store object message.faults message.allocated
    else .scalar errDenied, server)
  | _ => (.scalar (if mayRead then object.header.dataLen else errDenied), server)

def handle (message : Message) : Reply × Server :=
  if message.resolves then
    match server.store.resolve message.id message.faults with
    | (.error error, store) => (.scalar error, { server with store })
    | (.ok object, store) => { server with store }.handleObject message object
  else
    let changed (result : ℤ × Store) : Reply × Server :=
      (.scalar result.1, { server with store := result.2 })
    let createWith (attributes : ℕ) : Reply × Server :=
      if mayCreate server.clusterctl message.id message.principal then
        changed ((server.store.create (some message.id) message.principal attributes
          message.faults).map createdAt id)
      else (.scalar errDenied, server)
    match message.opcode with
    | .create =>
      changed ((server.store.create none message.principal 0 message.faults).map created id)
    | .createAt => createWith 0
    | .createAtShared => createWith attrSharedRead
    | .applyScope =>
      match server.applyScope message with
      | (result, server) => (.scalar result, server)
    | .resize => (.scalar errIoError, server)
    | .flush =>
      match server.store.flush message.flushed with
      | (ok, store) => (.scalar (if ok then 0 else errIoError), { server with store })
    | _ => (.scalar (-1), server)

/-- The requests of a run, one after the other. -/
def run (messages : List Message) : Server :=
  messages.foldl (fun server message => (server.handle message).2) server

end Server

end Charlotte.ObjStore
