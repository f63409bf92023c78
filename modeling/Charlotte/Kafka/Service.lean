import Charlotte.Lib.Checks
import Charlotte.Kafka.Broker

/-!
# The connector service

The service serves the requests of its clients one after the other: plain produce, a consumer
with its deliveries, and one transaction at a time. Every request comes with what the network
does to the exchanges it leads to. The maps of the source are association lists, and the
counters it only publishes are left out.
-/

namespace Charlotte.Kafka

open Lib Session

structure ConsumerState where
  owner : ℕ
  fetchOffset : ℕ
  committedOffset : ℕ
  outstanding : Option ℕ
  reservedTransaction : Option ℕ
  deriving DecidableEq

/-- The consumer goes back to what it has committed. -/
def ConsumerState.revoked (consumer : ConsumerState) : ConsumerState :=
  ⟨consumer.owner, consumer.committedOffset, consumer.committedOffset, none, none⟩

structure DeliveryState where
  owner : ℕ
  consumerId : ℕ
  offset : ℕ
  nextOffset : ℕ
  deriving DecidableEq

structure IncludedDelivery where
  consumerId : ℕ
  offset : ℕ
  nextOffset : ℕ
  deriving DecidableEq

/-- `serial` numbers the handles in the order they are begun. -/
structure TransactionState where
  owner : ℕ
  partitionsAdded : List ℕ
  touched : Bool
  resetProducer : Bool
  included : Option IncludedDelivery
  serial : ℕ
  deriving DecidableEq

/-- The routes of a profile and its rights. Two routes may lead to one partition. -/
structure Profile where
  route : ℕ → Option ℕ
  mayProduce : Bool
  mayConsume : Bool
  mayTransact : Bool

structure Service where
  profile : Profile
  transactionalProducer : ProducerIdentity
  nonTransactionalSequences : ℕ → ℕ
  transactionalSequences : ℕ → ℕ
  consumers : List (ℕ × ConsumerState)
  deliveries : List (ℕ × DeliveryState)
  transaction : Option (ℕ × TransactionState)
  /-- Whether the partition is assigned to the member; `none` outside the group. -/
  groupMembership : Option Bool
  nextId : ℕ

def maxConsumers : ℕ := 1

def maxDeliveries : ℕ := 8

def maxRecordBytes : ℕ := 3840

/-- One more than the largest sequence. -/
def sequenceLimit : ℕ := 2 ^ 31

/-- One more than the largest identifier. -/
def idLimit : ℕ := 2 ^ 32

section Maps

variable {α : Type}

def removeKey (key : ℕ) (entries : List (ℕ × α)) : List (ℕ × α) := entries.filter fun entry => entry.1 ≠ key

def insertKey (key : ℕ) (value : α) (entries : List (ℕ × α)) : List (ℕ × α) :=
  (key, value) :: removeKey key entries

def modifyKey (key : ℕ) (f : α → α) (entries : List (ℕ × α)) : List (ℕ × α) :=
  entries.map fun entry => if entry.1 = key then (entry.1, f entry.2) else entry

end Maps

namespace Service

variable {R : Type}

def start (profile : Profile) : Service :=
  ⟨profile, .transactional 1, fun _ => 0, fun _ => 0, [], [], none, none, 1⟩

variable (s : Service)

def idUsed (id : ℕ) : Bool :=
  (s.consumers.lookup id).isSome || (s.deliveries.lookup id).isSome ||
    s.transaction.any fun transaction => transaction.1 = id

/-- The next identifier that is not in use, and the one to start from afterwards. -/
def idFrom (s : Service) : ℕ → ℕ → Option (ℕ × ℕ)
  | 0, _ => none
  | tries + 1, next =>
    let id := max next 1
    let next := max ((id + 1) % idLimit) 1
    if s.idUsed id then s.idFrom tries next else some (id, next)

def id : Except KafkaError (ℕ × Service) := do
  let (id, nextId) ← okOr (s.idFrom (idLimit - 1) s.nextId) .busy
  return (id, { s with nextId })

/-- The transaction a client names and owns. -/
def owned (owner id : ℕ) : Except KafkaError TransactionState :=
  okOr ((s.transaction.filter fun (tid, t) => tid = id ∧ t.owner = owner).map Prod.snd) .invalid

def setTransaction (id : ℕ) (t : TransactionState) : Service :=
  { s with transaction := some (id, t) }

variable (b : Broker R)

/-- Plain produce. The sequence is advanced only when the broker has answered. -/
def produce (call route : ℕ) (record : R) (network : Network) :
    (Service × Broker R) × Except KafkaError ℕ :=
  if s.profile.mayProduce then
    match s.profile.route route with
    | none => ((s, b), .error .denied)
    | some partition =>
      let sequence := s.nonTransactionalSequences route
      match Session.produce partition ⟨.plain, sequence, record, call⟩ none network b with
      | (b, .error error) => ((s, b), .error error)
      | (b, .ok offset) =>
        if sequence + 1 < sequenceLimit then
          (({ s with nonTransactionalSequences :=
                Function.update s.nonTransactionalSequences route (sequence + 1) }, b), .ok offset)
        else ((s, b), .error .fenced)
  else ((s, b), .error .denied)

/-- Joining the group gives the assignment; the offset to start from is read when the
partition is assigned. A failure keeps the identifier it has drawn. -/
def openConsumer (owner : ℕ) (joined : Except KafkaError Bool)
    (offset : Except KafkaError ℕ) : Service × Except KafkaError ℕ :=
  if s.profile.mayConsume then
    if s.consumers.length < maxConsumers then
      match s.id with
      | .error error => (s, .error error)
      | .ok (id, s) => match joined with
          | .error error => (s, .error error)
          | .ok assigned => match (if assigned then offset else .ok 0) with
              | .error error => (s, .error error)
              | .ok committed => ({ s with
                  groupMembership := some assigned
                  consumers := insertKey id ⟨owner, committed, committed, none, none⟩ s.consumers }, .ok id)
    else (s, .error .busy)
  else (s, .error .denied)

def consumer (owner consumerId : ℕ) : Except KafkaError ConsumerState :=
  okOr ((s.consumers.lookup consumerId).filter (·.owner = owner)) .invalid

def delivery (owner deliveryId : ℕ) : Except KafkaError DeliveryState :=
  okOr ((s.deliveries.lookup deliveryId).filter (·.owner = owner)) .invalid

/-- The checks of `poll_consumer` up to the record it hands out, by offset and encoded length. -/
def pollRecord (owner consumerId : ℕ) (fetched : Except KafkaError (List (ℕ × ℕ))) :
    Except KafkaError (Option ℕ) := do
  let consumer ← s.consumer owner consumerId
  if s.groupMembership = some true then
    ensure (consumer.outstanding = none ∧ consumer.reservedTransaction = none) .busy
    ensure (s.deliveries.length < maxDeliveries) .busy
    let records ← fetched
    match records.find? fun record => consumer.fetchOffset ≤ record.1 with
    | none => return none
    | some (offset, length) =>
      ensure (length ≤ maxRecordBytes) .tooLarge
      return some offset
  else return none

/-- The record is handed out as a new delivery, and the consumer moves past it. There is no offset
after `i64::MAX`; the identifier is taken by then. -/
def pollConsumer (owner consumerId : ℕ) (fetched : Except KafkaError (List (ℕ × ℕ))) :
    Service × Except KafkaError (Option (ℕ × ℕ)) :=
  match s.pollRecord owner consumerId fetched with
  | .error error => (s, .error error)
  | .ok none => (s, .ok none)
  | .ok (some offset) => match s.id with
      | .error error => (s, .error error)
      | .ok (deliveryId, s) =>
        if 2 ^ 63 ≤ offset + 1 then (s, .error .protocol)
        else ({ s with
          deliveries := insertKey deliveryId ⟨owner, consumerId, offset, offset + 1⟩ s.deliveries
          consumers := modifyKey consumerId
            (fun consumer => { consumer with fetchOffset := offset + 1, outstanding := some deliveryId })
            s.consumers }, .ok (some (deliveryId, offset)))

/-- The delivery is removed, and its consumer changed if it still exists. -/
def dropDelivery (deliveryId : ℕ) (delivery : DeliveryState)
    (change : ConsumerState → ConsumerState) : Service × Except KafkaError Unit :=
  let s := { s with deliveries := removeKey deliveryId s.deliveries }
  if (s.consumers.lookup delivery.consumerId).isSome then
    ({ s with consumers := modifyKey delivery.consumerId change s.consumers }, .ok ())
  else (s, .error .invalid)

def releaseDelivery (owner deliveryId : ℕ) : Service × Except KafkaError Unit :=
  match s.delivery owner deliveryId with
  | .error error => (s, .error error)
  | .ok delivery => s.dropDelivery deliveryId delivery fun consumer =>
    { consumer with outstanding := none, fetchOffset := delivery.offset }

/-- A plain offset commit; `stored` is what the group coordinator answers. -/
def commitDelivery (owner deliveryId : ℕ) (stored : Except KafkaError Unit) :
    Service × Except KafkaError Unit :=
  match s.delivery owner deliveryId with
  | .error error => (s, .error error)
  | .ok delivery =>
    if s.groupMembership = some true then
      match stored with
      | .error error => (s, .error error)
      | .ok () => s.dropDelivery deliveryId delivery fun consumer =>
        { consumer with outstanding := none, committedOffset := delivery.nextOffset }
    else (s, .error .fenced)

/-- The last consumer leaves the group; `left` is what the group coordinator answers. -/
def closeConsumer (owner consumerId : ℕ) (left : Except KafkaError Unit) :
    Service × Except KafkaError Unit :=
  match s.consumer owner consumerId with
  | .error error => (s, .error error)
  | .ok consumer =>
    if consumer.reservedTransaction = none then
      let s := { s with
        deliveries := consumer.outstanding.elim s.deliveries (removeKey · s.deliveries)
        consumers := removeKey consumerId s.consumers }
      if s.consumers = [] ∧ s.groupMembership.isSome then ({ s with groupMembership := none }, left)
      else (s, .ok ())
    else (s, .error .busy)

def beginTransaction (owner serial : ℕ) : Service × Except KafkaError ℕ :=
  if s.profile.mayTransact then
    match s.transaction with
    | some _ => (s, .error .busy)
    | none => match s.id with
        | .error error => (s, .error error)
        | .ok (id, s) => (s.setTransaction id ⟨owner, [], false, false, none, serial⟩, .ok id)
  else (s, .error .denied)

variable (t : TransactionState)

/-- A failed exchange may have reached the broker all the same. -/
def doubt : TransactionState := { t with touched := true, resetProducer := true }

/-- The produce of a transaction, its partition added. -/
def produceAdded (id : ℕ) (t : TransactionState) (call route partition : ℕ)
    (record : R) (network : Network) : (Service × Broker R) × Except KafkaError ℕ :=
  let sequence := s.transactionalSequences route
  match Session.produce partition ⟨s.transactionalProducer, sequence, record, call⟩ (some t.serial)
      network b with
  | (b, .error error) => ((s.setTransaction id (doubt t), b), .error error)
  | (b, .ok offset) =>
    if sequence + 1 < sequenceLimit then
      (({ s with transactionalSequences := Function.update s.transactionalSequences route (sequence + 1)
        }.setTransaction id { t with touched := true }, b), .ok offset)
    else ((s.setTransaction id t, b), .error .fenced)

def transactionProduce (call owner id route : ℕ) (record : R)
    (adding producing : Network) : (Service × Broker R) × Except KafkaError ℕ :=
  if s.profile.mayProduce then
    match s.owned owner id with
    | .error error => ((s, b), .error error)
    | .ok t => match s.profile.route route with
        | none =>
          -- An unknown route fails in `add_partition` before any exchange.
          ((s.setTransaction id (doubt t), b), .error .denied)
        | some partition =>
          if route ∈ t.partitionsAdded then s.produceAdded b id t call route partition record producing
          else match Session.addPartition s.transactionalProducer adding b with
            | (b, .error error) => ((s.setTransaction id (doubt t), b), .error error)
            | (b, .ok ()) =>
              s.produceAdded b id { t with partitionsAdded := route :: t.partitionsAdded } call route
                partition record producing
  else ((s, b), .error .denied)

def includeDelivery (owner id deliveryId : ℕ) : Service × Except KafkaError Unit :=
  match s.owned owner id with
  | .error error => (s, .error error)
  | .ok t =>
    if t.included = none then
      match s.delivery owner deliveryId with
      | .error error => (s, .error error)
      | .ok delivery =>
        match s.dropDelivery deliveryId delivery fun consumer =>
          { consumer with outstanding := none, reservedTransaction := some id } with
        | (s, .error error) => (s, .error error)
        | (s, .ok ()) => (s.setTransaction id { t with
            touched := true
            included := some ⟨delivery.consumerId, delivery.offset, delivery.nextOffset⟩ }, .ok ())
    else (s, .error .busy)

/-- What the network does to the exchanges that finish a transaction. -/
structure FinishNetwork where
  group : Network
  offset : Network
  ending : Network
  aborting : Network
  init : Network

/-- The offset of the included delivery, when the transaction is to commit. -/
def addOffset (commit : Bool) (network : FinishNetwork) : Broker R × Except KafkaError Unit :=
  match commit, t.included with
  | true, some included =>
    if s.groupMembership = some true then
      addTransactionalOffset s.transactionalProducer t.serial included.nextOffset network.group
        network.offset b
    else (b, .error .fenced)
  | _, _ => (b, .ok ())

/-- The offset, then `EndTxn`. -/
def tryEnd (commit : Bool) (network : FinishNetwork) : Broker R × Except KafkaError Unit :=
  match s.addOffset b t commit network with
  | (b, .error error) => (b, .error error)
  | (b, .ok ()) => endTransaction s.transactionalProducer t.serial commit network.ending b

/-- What is sent for a handle that touched the broker; a commit that failed is followed by an
abort whose answer is ignored. -/
def conclude (commit : Bool) (network : FinishNetwork) : Broker R × Except KafkaError Unit :=
  if t.touched then
    match s.tryEnd b t commit network with
    | (b, .ok ()) => (b, .ok ())
    | (b, .error error) =>
      if commit then
        ((endTransaction s.transactionalProducer t.serial false network.aborting b).1, .error error)
      else (b, .error error)
  else (b, .ok ())

/-- A new epoch for the transactional producer, with sequences that start again. -/
def reinit (network : Network) : (Service × Broker R) × Except KafkaError Unit :=
  match initProducer network b with
  | (b, .ok producer) =>
    (({ s with transactionalProducer := producer, transactionalSequences := fun _ => 0 }, b), .ok ())
  | (b, .error error) => ((s, b), .error error)

/-- The consumer goes on after a committed delivery, and back to it otherwise. -/
def settle (included : Option IncludedDelivery) (committed : Bool) : Service :=
  match included with
  | none => s
  | some included => { s with
      consumers := modifyKey included.consumerId (fun consumer =>
        if committed then
          { consumer with reservedTransaction := none, committedOffset := included.nextOffset,
                          fetchOffset := included.nextOffset }
        else { consumer with reservedTransaction := none, fetchOffset := included.offset }) s.consumers }

def isOk {α : Type} : Except KafkaError α → Bool
  | .ok _ => true
  | .error _ => false

/-- The producer is re-initialised after a failure or a doubt; its own failure is the result. -/
def restart (result : Except KafkaError Unit)
    (network : Network) : (Service × Broker R) × Except KafkaError Unit :=
  if t.resetProducer || !isOk result then
    match s.reinit b network with
    | (state, .error error) => (state, .error error)
    | (state, .ok ()) => (state, result)
  else ((s, b), result)

/-- The handle is forgotten before anything is sent. -/
def finishTransaction (owner id : ℕ) (commit : Bool)
    (network : FinishNetwork) : (Service × Broker R) × Except KafkaError Unit :=
  match s.owned owner id with
  | .error error => ((s, b), .error error)
  | .ok t =>
    let s := { s with transaction := none }
    let ended := s.conclude b t commit network
    let restarted := s.restart ended.1 t ended.2 network.init
    ((restarted.1.1.settle t.included (commit && isOk restarted.2), restarted.1.2), restarted.2)

/-- The transaction of a lost generation is aborted; the failures of the abort and of the
re-initialisation are ignored. -/
def giveUp (ending init : Network) : Service × Broker R :=
  if t.touched then
    let ended := endTransaction s.transactionalProducer t.serial false ending b
    if !isOk ended.2 || t.resetProducer then (s.reinit ended.1 init).1 else (s, ended.1)
  else (s, b)

/-- Deliveries, reservations and the handle of a lost generation are forgotten. -/
def revoked : Service :=
  { s with
    deliveries := []
    consumers := s.consumers.map fun (id, consumer) => (id, consumer.revoked)
    transaction := none }

def revokeGroupGeneration (ending init : Network) : Service × Broker R :=
  match s.transaction with
  | none => (s.revoked, b)
  | some (_, t) => s.revoked.giveUp b t ending init

/-- Leave the old generation and join the next. -/
def rejoinGroup (ending init : Network) (joined : Except KafkaError Bool)
    (offset : Except KafkaError ℕ) : (Service × Broker R) × Except KafkaError Unit :=
  let left := { s with groupMembership := none }.revokeGroupGeneration b ending init
  match joined with
  | .error error => (left, .error error)
  | .ok assigned => match (if assigned then offset else .ok 0) with
      | .error error => (left, .error error)
      | .ok next => (({ left.1 with
          groupMembership := some assigned
          consumers := left.1.consumers.map fun (id, consumer) =>
            (id, { consumer with fetchOffset := next, committedOffset := next }) }, left.2), .ok ())

end Service

/-! ### Runs of the connector -/

/-- A call that was answered with an offset. -/
structure Acknowledged (R : Type) where
  call : ℕ
  partition : ℕ
  offset : ℕ
  record : R

/-- The connector, its broker, and what has been asked and answered so far. -/
structure System (R : Type) where
  service : Service
  broker : Broker R
  calls : ℕ
  begun : ℕ
  acknowledged : List (Acknowledged R)

/-- What is asked of the connector, and what others do at its broker. -/
inductive Request (R : Type) where
  /-- Another producer's batch, or the marker of a finished transaction. -/
  | foreign (partition : ℕ)
  | produce (route : ℕ) (record : R) (network : Network)
  | openConsumer (owner : ℕ) (joined : Except KafkaError Bool) (offset : Except KafkaError ℕ)
  | pollConsumer (owner consumerId : ℕ) (fetched : Except KafkaError (List (ℕ × ℕ)))
  | releaseDelivery (owner deliveryId : ℕ)
  | commitDelivery (owner deliveryId : ℕ) (stored : Except KafkaError Unit)
  | closeConsumer (owner consumerId : ℕ) (left : Except KafkaError Unit)
  | beginTransaction (owner : ℕ)
  | transactionProduce (owner id route : ℕ) (record : R) (adding producing : Network)
  | includeDelivery (owner id deliveryId : ℕ)
  | finishTransaction (owner id : ℕ) (commit : Bool) (network : Service.FinishNetwork)
  | rejoinGroup (ending init : Network) (joined : Except KafkaError Bool) (offset : Except KafkaError ℕ)

/-- What a client is told. -/
inductive Answer where
  | done
  | id (id : ℕ)
  | offset (offset : ℕ)
  | delivered (deliveryId offset : ℕ)
  | failed (error : KafkaError)
  deriving DecidableEq

namespace System

variable {R : Type}

def start (profile : Profile) : System R := ⟨.start profile, .start, 0, 0, []⟩

variable (w : System R)

/-- The answer to a produce call, with the acknowledgement noted. -/
def produced (route : ℕ) (record : R) (outcome : (Service × Broker R) × Except KafkaError ℕ) :
    Answer × System R :=
  let w' := { w with service := outcome.1.1, broker := outcome.1.2, calls := w.calls + 1 }
  match outcome.2 with
  | .error error => (.failed error, w')
  | .ok offset => (.offset offset, { w' with acknowledged :=
      ⟨w.calls, (w.service.profile.route route).getD 0, offset, record⟩ :: w.acknowledged })

theorem produced_eq (route : ℕ) (record : R)
    (outcome : (Service × Broker R) × Except KafkaError ℕ) :
    outcome.1.1 = (w.produced route record outcome).2.service ∧
      outcome.1.2 = (w.produced route record outcome).2.broker := by
  unfold produced
  cases outcome.2 <;> exact ⟨rfl, rfl⟩

/-- The answer to a call that gives a value or an error. -/
def answerOf {α : Type} (answer : α → Answer) : Except KafkaError α → Answer
  | .error error => .failed error
  | .ok value => answer value

/-- A request that only concerns the service. -/
def locally {α : Type} (answer : α → Answer) (outcome : Service × Except KafkaError α) :
    Answer × System R :=
  (answerOf answer outcome.2, { w with service := outcome.1 })

/-- One request. -/
def step : Request R → Answer × System R
  | .foreign partition => (.done, { w with broker := w.broker.append partition none })
  | .produce route record network =>
    w.produced route record (w.service.produce w.broker w.calls route record network)
  | .openConsumer owner joined offset =>
    w.locally .id (w.service.openConsumer owner joined offset)
  | .pollConsumer owner consumerId fetched =>
    w.locally (fun polled => polled.elim .done fun (id, offset) => .delivered id offset)
      (w.service.pollConsumer owner consumerId fetched)
  | .releaseDelivery owner deliveryId =>
    w.locally (fun _ => .done) (w.service.releaseDelivery owner deliveryId)
  | .commitDelivery owner deliveryId stored =>
    w.locally (fun _ => .done) (w.service.commitDelivery owner deliveryId stored)
  | .closeConsumer owner consumerId left =>
    w.locally (fun _ => .done) (w.service.closeConsumer owner consumerId left)
  | .beginTransaction owner =>
    { w with begun := w.begun + 1 }.locally .id (w.service.beginTransaction owner w.begun)
  | .transactionProduce owner id route record adding producing =>
    w.produced route record
      (w.service.transactionProduce w.broker w.calls owner id route record adding producing)
  | .includeDelivery owner id deliveryId =>
    w.locally (fun _ => .done) (w.service.includeDelivery owner id deliveryId)
  | .finishTransaction owner id commit network =>
    let outcome := w.service.finishTransaction w.broker owner id commit network
    (answerOf (fun _ => .done) outcome.2, { w with service := outcome.1.1, broker := outcome.1.2 })
  | .rejoinGroup ending init joined offset =>
    let outcome := w.service.rejoinGroup w.broker ending init joined offset
    (answerOf (fun _ => .done) outcome.2, { w with service := outcome.1.1, broker := outcome.1.2 })

def next (request : Request R) : System R := (w.step request).2

def run (requests : List (Request R)) : System R := requests.foldl next w

end System

end Charlotte.Kafka
