import Charlotte.Kernel.CapabilityTable

/-!
# Capability namespaces and their tokens

Tokens are owned by their holders: a reservation or an escrow is used once, in whatever
order and however long after its namespace has gone. The log records what the holders see.
What a batch has settled is no longer active, and its holder can only drop it, to no effect.
-/

namespace Charlotte.Kernel

open Lib List Option Function CapabilityTables

/-- What happened to the capability of an account, newest first in a log. -/
inductive Event
  /-- A capability value was given out. -/
  | given (account cap : ℕ)
  | live (account cap : ℕ)
  /-- A source was committed with `Revoke`. -/
  | revoked (account cap : ℕ)
  | retired (account : ℕ)
  deriving DecidableEq

/-- The tables with the tokens that are held. -/
structure CapabilitySystem where
  tables : CapabilityTables
  reservations : List Reservation
  escrows : List SourceEscrow
  log : List Event

inductive CapabilityOperation
  | attach (owner : AddressSpaceId) (identity : Option AddressSpaceHandle)
  | retire (owner : AddressSpaceId)
  | close (owner : AddressSpaceId)
  | detachNamespace (handle : AddressSpaceHandle)
  | reserve (owner : AddressSpaceId) (kind : ObjectKind) (identity : Option AddressSpaceHandle)
      (admitted : Bool)
  | publish (token : Reservation)
  | discard (token : Reservation)
  | escrow (owner : AddressSpaceId) (cap : ℕ) (kind : ObjectKind)
      (identity : Option AddressSpaceHandle)
  | rollback (token : SourceEscrow) (allowRetired : Bool)
  | dropEscrow (token : SourceEscrow)
  | batch (publications : List Publication)
  | detach (owner : AddressSpaceId) (cap : ℕ) (kind : ObjectKind)
  | detachForTeardown (owner : AddressSpaceId) (cap : ℕ) (kind : ObjectKind)
  deriving DecidableEq

/-- What becomes of the source of a publication. -/
def SourceDisposition.event (source : SourceEscrow) : SourceDisposition → Event
  | .revoke => .revoked source.account source.cap
  | .restore => .live source.account source.cap

def sources (publications : List Publication) : List SourceEscrow :=
  publications.filterMap fun publication => publication.source.map Prod.fst

namespace CapabilitySystem

def new : CapabilitySystem := ⟨.new, [], [], []⟩

variable (s : CapabilitySystem)

/-- The tokens of a batch are held, and each is borrowed once. -/
def Holds (publications : List Publication) : Prop :=
  (publications.map (·.destination)).Nodup ∧ (sources publications).Nodup ∧
    (∀ publication ∈ publications, publication.destination ∈ s.reservations) ∧
    ∀ source ∈ sources publications, source ∈ s.escrows

instance (s : CapabilitySystem) (publications : List Publication) :
    Decidable (s.Holds publications) :=
  inferInstanceAs (Decidable (_ ∧ _ ∧ _ ∧ _))

/-- The event of a retirement, if there is a namespace to retire. -/
def retirement (owner : AddressSpaceId) : List Event :=
  (s.tables.namespaces owner).elim [] fun table => [.retired table.account]

/-- The tokens of a publication are spent. -/
def settled (publication : Publication) : CapabilitySystem :=
  match publication.source with
  | none =>
    { s with
      reservations := s.reservations.erase publication.destination
      log := .live publication.destination.account publication.destination.cap :: s.log }
  | some (source, disposition) =>
    { s with
      reservations := s.reservations.erase publication.destination
      escrows := s.escrows.erase source
      log := disposition.event source ::
        .live publication.destination.account publication.destination.cap :: s.log }

/-- One operation. A token that is not held cannot be used. -/
def step : CapabilityOperation → CapabilitySystem
  | .attach owner identity =>
    if (s.tables.namespaces owner).isSome then s
    else { s with tables := s.tables.attach owner identity }
  | .retire owner =>
    { s with tables := s.tables.retireAddressSpace owner, log := s.retirement owner ++ s.log }
  | .close owner =>
    { s with tables := s.tables.closeAddressSpace owner, log := s.retirement owner ++ s.log }
  | .detachNamespace handle => { s with tables := s.tables.detachAddressSpace handle }
  | .reserve owner kind identity admitted =>
    match s.tables.reserveCaptured owner kind identity admitted with
    | (.error _, tables) => { s with tables }
    | (.ok token, tables) =>
      { s with
        tables
        reservations := token :: s.reservations
        log := .given token.account token.cap :: s.log }
  | .publish token =>
    if token ∉ s.reservations then s
    else
      match s.tables.publish token with
      | (.error _, tables) => { s with tables, reservations := s.reservations.erase token }
      | (.ok _, tables) =>
        { s with
          tables
          reservations := s.reservations.erase token
          log := .live token.account token.cap :: s.log }
  | .discard token =>
    if token ∉ s.reservations then s
    else { s with
      tables := s.tables.discardCaptured token.owner token.cap token.account .staged
      reservations := s.reservations.erase token }
  | .escrow owner cap kind identity =>
    match s.tables.escrowCaptured owner cap kind identity with
    | .error _ => s
    | .ok (token, tables) => { s with tables, escrows := token :: s.escrows }
  | .rollback token allowRetired =>
    if token ∉ s.escrows then s
    else
      match s.tables.restoreInner token allowRetired with
      | (.error _, tables) => { s with tables, escrows := s.escrows.erase token }
      | (.ok _, tables) =>
        { s with
          tables
          escrows := s.escrows.erase token
          log := .live token.account token.cap :: s.log }
  | .dropEscrow token =>
    if token ∉ s.escrows then s
    else { s with
      tables := s.tables.discardCaptured token.owner token.cap token.account .escrow
      escrows := s.escrows.erase token }
  | .batch publications =>
    if ¬ s.Holds publications then s
    else
      match s.tables.publishBatch publications with
      | some (.ok (), tables) => { publications.foldl settled s with tables }
      | _ => s
  | .detach owner cap kind => { s with tables := (s.tables.detach owner cap kind).2 }
  | .detachForTeardown owner cap kind =>
    { s with tables := (s.tables.detachForTeardown owner cap kind).2 }

def run (operations : List CapabilityOperation) : CapabilitySystem :=
  operations.foldl step s

end CapabilitySystem

end Charlotte.Kernel
