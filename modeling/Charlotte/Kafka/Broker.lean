import Charlotte.Lib.Exchange

/-!
# The broker and the connector's exchanges with it

The broker keeps a log for each partition, the epoch of the transactional producer and the
transaction its coordinator has open. A batch whose sequence is stored already is answered
with its offset and not appended again; the next expected sequence is appended. A transaction
is opened by what is added to it, closed by `EndTxn`, and aborted by `InitProducerId`, which
takes the next epoch. Batches and items carry the number of the call or of the transaction
handle they come from; the broker does not look at it.
-/

namespace Charlotte.Kafka

open Lib

/-- The error codes of the connector. -/
inductive KafkaError where
  | invalid
  | denied
  | transport
  | protocol
  | broker
  | busy
  | fenced
  | timeout
  | tooLarge
  | unsupported
  | authentication
  deriving DecidableEq, Repr

/-- The error codes of a broker that the connector tells apart. -/
inductive BrokerCode where
  | requestTimedOut
  | coordinatorLoadInProgress
  | coordinatorNotAvailable
  | notCoordinator
  | concurrentTransactions
  | producerFenced
  | invalidProducerEpoch
  | transactionCoordinatorFenced
  | illegalGeneration
  | unknownMemberId
  | rebalanceInProgress
  | saslAuthenticationFailed
  | outOfOrderSequence
  | invalidTxnState
  | other (code : ℕ)
  deriving DecidableEq, Repr

def isRetriableBrokerError : BrokerCode → Bool
  | .requestTimedOut | .coordinatorLoadInProgress | .coordinatorNotAvailable | .notCoordinator
  | .concurrentTransactions => true
  | _ => false

def coordinatorMoved : BrokerCode → Bool
  | .notCoordinator | .coordinatorNotAvailable => true
  | _ => false

def mapBroker : BrokerCode → KafkaError
  | .producerFenced | .invalidProducerEpoch | .transactionCoordinatorFenced | .illegalGeneration
  | .unknownMemberId | .rebalanceInProgress => .fenced
  | .requestTimedOut => .timeout
  | .saslAuthenticationFailed => .authentication
  | _ => .broker

/-- The idempotent producer, and the transactional one of an epoch. -/
inductive ProducerIdentity where
  | plain
  | transactional (epoch : ℕ)
  deriving DecidableEq, Repr

/-- A batch of one record. -/
structure Batch (R : Type) where
  producer : ProducerIdentity
  sequence : ℕ
  record : R
  call : ℕ
  deriving DecidableEq

/-- What is added to a transaction. -/
inductive Item where
  | record (handle call : ℕ)
  | offset (handle next : ℕ)
  deriving DecidableEq, Repr

def Item.handle : Item → ℕ
  | .record handle _ => handle
  | .offset handle _ => handle

inductive Coordinator where
  | empty
  | ongoing (items : List Item)
  | completed (commit : Bool)
  deriving DecidableEq, Repr

/-- An entry of a log that is not a batch of this connector is `none`. -/
structure Broker (R : Type) where
  log : ℕ → List (Option (Batch R))
  epoch : ℕ
  coordinator : Coordinator
  /-- The transactions that were committed, by the handle whose `EndTxn` did it. -/
  committed : List (ℕ × List Item)

variable {R : Type}

variable (producer : ProducerIdentity)

/-- The batch a sequence of a producer is stored in. -/
def isBatch (sequence : ℕ) (entry : Option (Batch R)) : Bool :=
  entry.any fun batch => batch.producer = producer ∧ batch.sequence = sequence

/-- The sequence a producer has to continue a log with. -/
def nextSequence (log : List (Option (Batch R))) (producer : ProducerIdentity) : ℕ :=
  log.countP fun entry => entry.any fun batch => batch.producer = producer

namespace Broker

def start : Broker R := ⟨fun _ => [], 1, .empty, []⟩

variable (b : Broker R)

/-- Requests of an older epoch are turned away. -/
def accepts : ProducerIdentity → Bool
  | .plain => true
  | .transactional epoch => epoch == b.epoch

def append (partition : ℕ) (entry : Option (Batch R)) : Broker R :=
  { b with log := Function.update b.log partition (b.log partition ++ [entry]) }

/-- Open the transaction if it is not, and add to it. -/
def add (items : List Item) : Broker R :=
  match b.coordinator with
  | .ongoing added => { b with coordinator := .ongoing (added ++ items) }
  | _ => { b with coordinator := .ongoing items }

def produce (partition : ℕ) (batch : Batch R) (handle : Option ℕ) (b : Broker R) :
    Broker R × Except BrokerCode ℕ :=
  if b.accepts batch.producer then
    match (b.log partition).findIdx? (isBatch batch.producer batch.sequence) with
    | some offset => (b, .ok offset)
    | none =>
      if batch.sequence = nextSequence (b.log partition) batch.producer then
        let appended := b.append partition (some batch)
        (match handle with
          | some handle => appended.add [.record handle batch.call]
          | none => appended,
        .ok (b.log partition).length)
      else (b, .error .outOfOrderSequence)
  else (b, .error .invalidProducerEpoch)

/-- A request of the transactional producer to its coordinator. -/
def guarded {α : Type} (producer : ProducerIdentity) (effect : Broker R → Broker R × Except BrokerCode α)
    (b : Broker R) : Broker R × Except BrokerCode α :=
  if b.accepts producer then effect b else (b, .error .invalidProducerEpoch)

def addPartitionsToTxn : Broker R → Broker R × Except BrokerCode Unit :=
  guarded producer fun b => (b.add [], .ok ())

def addOffsetsToTxn : Broker R → Broker R × Except BrokerCode Unit :=
  guarded producer fun b => (b.add [], .ok ())

def txnOffsetCommit (handle next : ℕ) : Broker R → Broker R × Except BrokerCode Unit :=
  guarded producer fun b => (b.add [.offset handle next], .ok ())

/-- A repeated request finds the transaction completed the way it asks for. -/
def endTxn (handle : ℕ) (commit : Bool) : Broker R → Broker R × Except BrokerCode Unit :=
  guarded producer fun b => match b.coordinator with
    | .ongoing items =>
      ({ b with coordinator := .completed commit
                committed := if commit then (handle, items) :: b.committed else b.committed }, .ok ())
    | .completed done => (b, if done = commit then .ok () else .error .invalidTxnState)
    | .empty => (b, .error .invalidTxnState)

/-- The open transaction is aborted and the epoch bumped. -/
def initProducerId : Broker R × Except BrokerCode ProducerIdentity :=
  ({ b with epoch := b.epoch + 1, coordinator := .empty }, .ok (.transactional (b.epoch + 1)))

end Broker

/-! ### The connector's session -/

/-- What the network does with the attempts of one call. -/
abbrev Network := List (Attempt KafkaError BrokerCode)

def isTransport (error : KafkaError) : Bool := error = .transport ∨ error = .timeout

/-- `COORDINATOR_ATTEMPTS` requests; a lost exchange or a moved coordinator is looked up again. -/
def coordinatorPolicy : RetryPolicy KafkaError BrokerCode where
  attempts := 120
  onError := fun _ error => if isTransport error then .refresh else .fail error
  onRefusal := fun _ code =>
    if isRetriableBrokerError code then (if coordinatorMoved code then .refresh else .again)
    else .fail (mapBroker code)
  exhausted := .timeout

/-- An offset commit is only repeated when the coordinator moved. -/
def offsetPolicy : RetryPolicy KafkaError BrokerCode :=
  { coordinatorPolicy with
    onRefusal := fun _ code => if coordinatorMoved code then .refresh else .fail (mapBroker code) }

/-- A lost exchange ends `init_producer`. -/
def initPolicy : RetryPolicy KafkaError BrokerCode where
  attempts := 120
  onError := fun _ error => .fail error
  onRefusal := fun _ code => if isRetriableBrokerError code then .again else .fail (mapBroker code)
  exhausted := .timeout

/-- `ROUTING_ATTEMPTS` requests; the last one answers with its error. -/
def producePolicy : RetryPolicy KafkaError BrokerCode where
  attempts := 12
  onError := fun last error => if !last && isTransport error then .refresh else .fail error
  onRefusal := fun last code =>
    if !last && isRetriableBrokerError code then .refresh else .fail (mapBroker code)
  exhausted := .timeout

namespace Session

def initProducer (network : Network) (b : Broker R) : Broker R × Except KafkaError ProducerIdentity :=
  retry Broker.initProducerId initPolicy network b

def produce (partition : ℕ) (batch : Batch R) (handle : Option ℕ) (network : Network) (b : Broker R) :
    Broker R × Except KafkaError ℕ :=
  retry (Broker.produce partition batch handle) producePolicy network b

def addPartition (network : Network) (b : Broker R) : Broker R × Except KafkaError Unit :=
  retry (Broker.addPartitionsToTxn producer) coordinatorPolicy network b

/-- The group is added to the transaction first, then the offset. -/
def addTransactionalOffset (handle next : ℕ) (group offset : Network)
    (b : Broker R) : Broker R × Except KafkaError Unit :=
  match retry (Broker.addOffsetsToTxn producer) coordinatorPolicy group b with
  | (b, .error error) => (b, .error error)
  | (b, .ok ()) => retry (Broker.txnOffsetCommit producer handle next) offsetPolicy offset b

def endTransaction (handle : ℕ) (commit : Bool) (network : Network)
    (b : Broker R) : Broker R × Except KafkaError Unit :=
  retry (Broker.endTxn producer handle commit) coordinatorPolicy network b

end Session

end Charlotte.Kafka
