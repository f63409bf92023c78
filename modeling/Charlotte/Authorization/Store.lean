import Charlotte.Lib.Checks

/-!
# Authorization policy

The policy store of `charlotte-authorization`: domain identities, the rules of subjects,
the published services and the tickets that were issued. Ordered maps are association
lists, since nothing reads their order.
-/

namespace Charlotte.Authorization

open Lib

abbrev Bytes := List UInt8

abbrev Table (κ α : Type) := AList fun _ : κ => α

/-- `retain` of a map. -/
def Table.retain {κ α : Type} (table : Table κ α) (keep : κ → Bool) : Table κ α where
  entries := table.entries.filter fun entry => keep entry.1
  nodupKeys := List.NodupKeys.sublist List.filter_sublist table.nodupKeys

structure PrincipalId where
  raw : ℕ
  nonzero : raw ≠ 0
  deriving DecidableEq

/-- One occupancy of an address-space slot. -/
structure DomainIdentity where
  asid : ℕ
  generation : ℕ
  asid_ne : asid ≠ 0
  generation_ne : generation ≠ 0
  deriving DecidableEq

structure Roles where
  bits : UInt8
  deriving DecidableEq

namespace Roles

def none : Roles := ⟨0⟩
def policyAdmin : Roles := ⟨1⟩
def serviceManager : Roles := ⟨2⟩

def contains (roles required : Roles) : Bool := roles.bits &&& required.bits == required.bits

end Roles

structure AuthorizationRights where
  bits : UInt32
  deriving DecidableEq

namespace AuthorizationRights

def none : AuthorizationRights := ⟨0⟩
def call : AuthorizationRights := ⟨2⟩

def isEmpty (rights : AuthorizationRights) : Bool := rights.bits == 0

def contains (rights required : AuthorizationRights) : Bool :=
  rights.bits &&& required.bits == required.bits

def intersection (rights other : AuthorizationRights) : AuthorizationRights :=
  ⟨rights.bits &&& other.bits⟩

/-- What both sets have in common contains what each of them contains. -/
theorem contains_intersection (rights other required : AuthorizationRights) :
    (rights.intersection other).contains required = true ↔
      rights.contains required = true ∧ other.contains required = true := by
  simp only [contains, intersection, beq_iff_eq]
  constructor
  · intro h
    constructor
    · calc rights.bits &&& required.bits
          = rights.bits &&& (rights.bits &&& other.bits &&& required.bits) := by rw [h]
        _ = rights.bits &&& other.bits &&& required.bits := by
            simp only [← UInt32.and_assoc, UInt32.and_self]
        _ = required.bits := h
    · calc other.bits &&& required.bits
          = other.bits &&& (other.bits &&& rights.bits &&& required.bits) := by
            rw [UInt32.and_comm other.bits rights.bits, h]
        _ = rights.bits &&& other.bits &&& required.bits := by
            simp only [← UInt32.and_assoc, UInt32.and_self]
            rw [UInt32.and_comm other.bits rights.bits]
        _ = required.bits := h
  · rintro ⟨h, h'⟩
    rw [UInt32.and_assoc, h', h]

end AuthorizationRights

structure IdentityRecord where
  principal : PrincipalId
  roles : Roles
  deriving DecidableEq

structure PolicyRule where
  allowed : AuthorizationRights
  version : ℕ
  deriving DecidableEq

structure ServiceBinding where
  generation : ℕ
  ceiling : AuthorizationRights
  active : Bool
  deriving DecidableEq

def maxServiceGeneration : ℕ := 2 ^ 63 - 1

abbrev TicketId := ℕ

structure Decision where
  principal : PrincipalId
  service : Bytes
  serviceGeneration : ℕ
  policyVersion : ℕ
  rights : AuthorizationRights
  deriving DecidableEq

structure AuthorizedGrant where
  principal : PrincipalId
  serviceGeneration : ℕ
  policyVersion : ℕ
  rights : AuthorizationRights
  deriving DecidableEq

inductive AuthorizationError
  | invalidService
  | invalidLimits
  | identityCapacity
  | identityConflict
  | policyCapacity
  | serviceCapacity
  | ticketCapacity
  | unknownIdentity
  | policyAdministratorRequired
  | serviceManagerRequired
  | policyMissing
  | serviceMissing
  | serviceInactive
  | emptyRights
  | rightsDenied
  | policyVersionConflict
  | policyVersionExhausted
  | serviceGenerationExhausted
  | ticketIdExhausted
  | ticketMissing
  | principalMismatch
  | stalePolicy
  | staleIdentity
  | staleServiceGeneration
  deriving DecidableEq

structure PolicyLimits where
  identities : ℕ
  policies : ℕ
  services : ℕ
  tickets : ℕ
  serviceIdBytes : ℕ
  deriving DecidableEq

namespace PolicyLimits

def default : PolicyLimits := ⟨1024, 4096, 1024, 1024, 256⟩

def valid (limits : PolicyLimits) : Bool :=
  decide (0 < limits.identities) && decide (0 < limits.policies) && decide (0 < limits.services) &&
    decide (0 < limits.tickets) && decide (0 < limits.serviceIdBytes)

end PolicyLimits

structure PolicyStore where
  limits : PolicyLimits
  identities : Table DomainIdentity IdentityRecord
  policies : Table (PrincipalId × Bytes) PolicyRule
  services : Table Bytes ServiceBinding
  tickets : Table TicketId Decision
  nextTicket : TicketId

namespace PolicyStore

def empty (limits : PolicyLimits) : PolicyStore := ⟨limits, ∅, ∅, ∅, ∅, 1⟩

def new : PolicyStore := empty .default

def withLimits (limits : PolicyLimits) : Except AuthorizationError PolicyStore :=
  if limits.valid then .ok (empty limits) else .error .invalidLimits

/-! ### Identities -/

/-- The identity with the lowest generation, and among those the lowest address space. -/
def oldest (identities : Table DomainIdentity IdentityRecord) : Option DomainIdentity :=
  identities.keys.argmin fun known => toLex (known.generation, known.asid)

variable (s : PolicyStore)

/-- The binding of an identity replaces every other one of its address space. -/
def bind (identities : Table DomainIdentity IdentityRecord)
    (identity : DomainIdentity) (record : IdentityRecord) : PolicyStore :=
  let others := identities.retain fun known => known.asid != identity.asid
  { s with identities := others.insert identity record }

variable (identity : DomainIdentity)

def provisionIdentityFromSupervisor
    (principal : PrincipalId) (roles : Roles) : Except AuthorizationError PolicyStore :=
  match s.identities.lookup identity with
  | some existing =>
    if existing.principal ≠ principal ∨ existing.roles ≠ roles then .error .identityConflict
    else .ok s
  | none =>
    if s.identities.keys.any fun known =>
        known.asid == identity.asid && decide (identity.generation < known.generation) then
      .error .staleIdentity
    else if !(s.identities.keys.any fun known => known.asid == identity.asid) &&
        decide (s.limits.identities ≤ s.identities.keys.length) then
      match oldest s.identities with
      | none => .error .identityCapacity
      | some victim => .ok (s.bind (s.identities.erase victim) identity ⟨principal, roles⟩)
    else .ok (s.bind s.identities identity ⟨principal, roles⟩)

def removeIdentityFromSupervisor : Bool × PolicyStore :=
  ((s.identities.lookup identity).isSome, { s with identities := s.identities.erase identity })

def principalFor : Option PrincipalId :=
  (s.identities.lookup identity).map (·.principal)

variable (actor : DomainIdentity)

def requireRole (role : Roles) : Except AuthorizationError PrincipalId :=
  match s.identities.lookup actor with
  | none => .error .unknownIdentity
  | some record =>
    if record.roles.contains role then .ok record.principal
    else .error (if role = .policyAdmin then .policyAdministratorRequired else .serviceManagerRequired)

/-! ### Services and rules -/

def activeBinding (service : Bytes) :
    Except AuthorizationError ServiceBinding := do
  let binding ← okOr (s.services.lookup service) .serviceMissing
  ensure (binding.active = true) .serviceInactive
  return binding

def validateService (service : Bytes) : Except AuthorizationError Unit :=
  ensure (service ≠ [] ∧ service.length ≤ s.limits.serviceIdBytes) .invalidService

/-- The generation of the next publication. -/
def nextGeneration (service : Bytes) : Except AuthorizationError ℕ :=
  match s.services.lookup service with
  | none => .ok 1
  | some binding =>
    if binding.generation + 1 ≤ maxServiceGeneration then .ok (binding.generation + 1)
    else .error .serviceGenerationExhausted

def publishService (service : Bytes)
    (ceiling : AuthorizationRights) : Except AuthorizationError (ServiceBinding × PolicyStore) := do
  let _ ← s.requireRole actor .serviceManager
  s.validateService service
  ensure (ceiling.isEmpty = false) .emptyRights
  ensure ((s.services.lookup service).isSome ∨ s.services.keys.length < s.limits.services)
    .serviceCapacity
  let generation ← s.nextGeneration service
  let binding : ServiceBinding := ⟨generation, ceiling, true⟩
  return (binding, { s with services := s.services.insert service binding })

def unpublishService (service : Bytes)
    (expectedGeneration : ℕ) : Except AuthorizationError PolicyStore := do
  let _ ← s.requireRole actor .serviceManager
  let binding ← okOr (s.services.lookup service) .serviceMissing
  ensure (binding.active = true) .serviceInactive
  ensure (binding.generation = expectedGeneration) .staleServiceGeneration
  return { s with services := s.services.insert service ⟨binding.generation, .none, false⟩ }

def setPolicy (subject : PrincipalId) (service : Bytes)
    (allowed : AuthorizationRights) (expectedVersion : ℕ) :
    Except AuthorizationError (PolicyRule × PolicyStore) := do
  let _ ← s.requireRole actor .policyAdmin
  s.validateService service
  ensure ((s.policies.lookup (subject, service)).isSome ∨ s.policies.keys.length < s.limits.policies)
    .policyCapacity
  let current := ((s.policies.lookup (subject, service)).map (·.version)).getD 0
  ensure (current = expectedVersion) .policyVersionConflict
  ensure (current + 1 < 2 ^ 64) .policyVersionExhausted
  let rule : PolicyRule := ⟨allowed, current + 1⟩
  return (rule, { s with policies := s.policies.insert (subject, service) rule })

/-! ### Tickets -/

variable (caller : DomainIdentity)

/-- What `issue_ticket` decides before a ticket is made. -/
def decide? (service : Bytes)
    (requested : AuthorizationRights) : Except AuthorizationError Decision := do
  ensure (requested.isEmpty = false) .emptyRights
  s.validateService service
  let principal ← okOr (s.principalFor caller) .unknownIdentity
  let binding ← s.activeBinding service
  let rule ← okOr (s.policies.lookup (principal, service)) .policyMissing
  ensure ((rule.allowed.intersection binding.ceiling).contains requested = true) .rightsDenied
  return ⟨principal, service, binding.generation, rule.version, requested⟩

def issueTicket (service : Bytes)
    (requested : AuthorizationRights) : Except AuthorizationError (TicketId × PolicyStore) := do
  let decision ← s.decide? caller service requested
  ensure (s.tickets.keys.length < s.limits.tickets) .ticketCapacity
  ensure (s.nextTicket + 1 < 2 ^ 64) .ticketIdExhausted
  return (s.nextTicket,
    { s with nextTicket := s.nextTicket + 1, tickets := s.tickets.insert s.nextTicket decision })

/-- The checks of a redemption, after the ticket was removed. -/
def revalidate (decision : Decision) : Except AuthorizationError AuthorizedGrant := do
  let principal ← okOr (s.principalFor caller) .unknownIdentity
  ensure (principal = decision.principal) .principalMismatch
  let binding ← s.activeBinding decision.service
  ensure (binding.generation = decision.serviceGeneration) .staleServiceGeneration
  let rule ← okOr (s.policies.lookup (principal, decision.service)) .policyMissing
  ensure (rule.version = decision.policyVersion) .stalePolicy
  ensure ((rule.allowed.intersection binding.ceiling).contains decision.rights = true) .rightsDenied
  return ⟨principal, binding.generation, rule.version, decision.rights⟩

/-- The ticket is gone whatever the checks say. -/
def redeemTicket (ticket : TicketId) : Except AuthorizationError AuthorizedGrant × PolicyStore :=
  match s.tickets.lookup ticket with
  | none => (.error .ticketMissing, s)
  | some decision =>
    let s := { s with tickets := s.tickets.erase ticket }
    (s.revalidate caller decision, s)

def cancelTicket (ticket : TicketId) : Except AuthorizationError PolicyStore := do
  let principal ← okOr (s.principalFor caller) .unknownIdentity
  let decision ← okOr (s.tickets.lookup ticket) .ticketMissing
  ensure (decision.principal = principal) .principalMismatch
  return { s with tickets := s.tickets.erase ticket }

def authorizeNow (service : Bytes)
    (requested : AuthorizationRights) : Except AuthorizationError AuthorizedGrant × PolicyStore :=
  match s.issueTicket caller service requested with
  | .error error => (.error error, s)
  | .ok (ticket, s) => s.redeemTicket caller ticket

/-- The first part of `authorize_for_admin`: the target is bound. -/
def admitTarget (actor target : DomainIdentity) (principal : PrincipalId)
    (service : Bytes) (requested : AuthorizationRights) : Except AuthorizationError PolicyStore := do
  let _ ← s.requireRole actor .policyAdmin
  ensure (requested.isEmpty = false) .emptyRights
  s.validateService service
  s.provisionIdentityFromSupervisor target principal .none

/-- The second part of `authorize_for_admin`: no rule of the store takes part. -/
def grantActive (principal : PrincipalId) (service : Bytes)
    (requested : AuthorizationRights) : Except AuthorizationError AuthorizedGrant := do
  let binding ← s.activeBinding service
  ensure (binding.ceiling.contains requested = true) .rightsDenied
  return ⟨principal, binding.generation, 0, requested⟩

/-- The target stays bound when a later check fails. -/
def authorizeForAdmin (actor target : DomainIdentity) (principal : PrincipalId)
    (service : Bytes) (requested : AuthorizationRights) :
    Except AuthorizationError AuthorizedGrant × PolicyStore :=
  match s.admitTarget actor target principal service requested with
  | .error error => (.error error, s)
  | .ok s => (s.grantActive principal service requested, s)

end PolicyStore

/-! ### Sequences of operations -/

inductive Operation
  | provision (identity : DomainIdentity) (principal : PrincipalId) (roles : Roles)
  | remove (identity : DomainIdentity)
  | publish (actor : DomainIdentity) (service : Bytes) (ceiling : AuthorizationRights)
  | unpublish (actor : DomainIdentity) (service : Bytes) (expectedGeneration : ℕ)
  | setPolicy (actor : DomainIdentity) (subject : PrincipalId) (service : Bytes)
      (allowed : AuthorizationRights) (expectedVersion : ℕ)
  | issue (caller : DomainIdentity) (service : Bytes) (requested : AuthorizationRights)
  | redeem (caller : DomainIdentity) (ticket : TicketId)
  | cancel (caller : DomainIdentity) (ticket : TicketId)
  | authorizeNow (caller : DomainIdentity) (service : Bytes) (requested : AuthorizationRights)
  | authorizeForAdmin (actor target : DomainIdentity) (principal : PrincipalId) (service : Bytes)
      (requested : AuthorizationRights)
  deriving DecidableEq

inductive Answer
  | done
  | removed (found : Bool)
  | binding (binding : ServiceBinding)
  | rule (rule : PolicyRule)
  | ticket (ticket : TicketId)
  | grant (grant : AuthorizedGrant)
  deriving DecidableEq

namespace PolicyStore

/-- A call that leaves the store as it is when it fails. -/
def settle {α : Type} (s : PolicyStore) (answer : α → Answer) :
    Except AuthorizationError (α × PolicyStore) → Except AuthorizationError Answer × PolicyStore
  | .error error => (.error error, s)
  | .ok (a, s') => (.ok (answer a), s')

def step (s : PolicyStore) : Operation → Except AuthorizationError Answer × PolicyStore
  | .provision identity principal roles =>
    s.settle (fun _ => .done) ((s.provisionIdentityFromSupervisor identity principal roles).map ((), ·))
  | .remove identity => (s.removeIdentityFromSupervisor identity).map (.ok ∘ .removed) id
  | .publish actor service ceiling => s.settle .binding (s.publishService actor service ceiling)
  | .unpublish actor service expectedGeneration =>
    s.settle (fun _ => .done) ((s.unpublishService actor service expectedGeneration).map ((), ·))
  | .setPolicy actor subject service allowed expectedVersion =>
    s.settle .rule (s.setPolicy actor subject service allowed expectedVersion)
  | .issue caller service requested => s.settle .ticket (s.issueTicket caller service requested)
  | .redeem caller ticket => (s.redeemTicket caller ticket).map (·.map .grant) id
  | .cancel caller ticket => s.settle (fun _ => .done) ((s.cancelTicket caller ticket).map ((), ·))
  | .authorizeNow caller service requested =>
    (s.authorizeNow caller service requested).map (·.map .grant) id
  | .authorizeForAdmin actor target principal service requested =>
    (s.authorizeForAdmin actor target principal service requested).map (·.map .grant) id

def run (s : PolicyStore) (operations : List Operation) : PolicyStore :=
  operations.foldl (fun s operation => (s.step operation).2) s

/-- A store as it is made. -/
def Initial (s : PolicyStore) : Prop := s = new ∨ ∃ limits, withLimits limits = .ok s

end PolicyStore

end Charlotte.Authorization
