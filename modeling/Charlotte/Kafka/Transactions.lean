import Charlotte.Lib.Runs
import Charlotte.Kafka.Closing

/-!
# Transactions do not leak into each other

The connector forgets a handle before it knows that the broker has closed the transaction.
When the commit, the abort and the re-initialisation are all lost, what was added under the
handle is still open, and the next handle commits it. When one of them reaches the broker,
nothing is open there while the connector has no handle, and every commit is of one handle alone.
-/

namespace Charlotte.Kafka

open Lib List Broker Kafka.System

variable {R : Type}

/-- Every commit is of one handle, and so is what is open. -/
structure Broker.Pure (serial : ℕ) (b : Broker R) : Prop where
  committed : ∀ c ∈ b.committed, ∀ item ∈ c.2, item.handle = c.1
  ongoing : ∀ items, b.coordinator = .ongoing items → ∀ item ∈ items, item.handle = serial

namespace Broker.Pure

variable {serial : ℕ} {b : Broker R}

theorem add (hb : b.Pure serial) {items : List Item} (hits : ∀ item ∈ items, item.handle = serial) :
    (b.add items).Pure serial := by
  unfold Broker.add
  split
  · rename_i added h
    refine ⟨hb.committed, fun found hf item hitem => ?_⟩
    cases hf
    exact (mem_append.mp hitem).elim (hb.ongoing added h item) (hits item)
  · refine ⟨hb.committed, fun found hf => ?_⟩
    cases hf
    exact hits

theorem endTxn (hb : b.Pure serial) (producer : ProducerIdentity) (commit : Bool) :
    (endTxn producer serial commit b).1.Pure serial := by
  apply guarded_keeps _ hb
  cases h : b.coordinator with
  | empty | completed => exact hb
  | ongoing items =>
    refine ⟨fun c hc => ?_, fun found hf => (nomatch hf)⟩
    cases commit with
    | false => exact hb.committed c hc
    | true =>
      rcases mem_cons.mp hc with rfl | hc
      · exact hb.ongoing items h
      · exact hb.committed c hc

theorem keeps {t : TransactionState} (hser : t.serial = serial)
    (producer : ProducerIdentity) (commits : Bool) :
    Keeps producer t commits (Pure serial : Broker R → Prop) (Pure serial) where
  group := fun _ hb => guarded_keeps _ hb (hb.add fun _ h => absurd h not_mem_nil)
  offset := fun _ _ _ hb => guarded_keeps _ hb (hb.add fun _ h => by rw [mem_singleton.mp h]; exact hser)
  weaken := fun _ hb => hb
  ended := fun commit _ _ hb => hser ▸ hb.endTxn producer commit
  init := fun _ hb => ⟨hb.committed, nofun⟩

theorem produce (hb : b.Pure serial) (partition : ℕ) (batch : Batch R) (handle : Option ℕ)
    (hhd : ∀ other, handle = some other → other = serial) :
    (produce partition batch handle b).1.Pure serial := by
  have happend : (b.append partition (some batch)).Pure serial := ⟨hb.committed, hb.ongoing⟩
  unfold Broker.produce
  split
  · split
    · exact hb
    split
    · cases handle with
      | none => exact happend
      | some other =>
        refine happend.add fun item hitem => ?_
        rw [mem_singleton.mp hitem]
        exact hhd other rfl
    · exact hb
  · exact hb

end Broker.Pure

open Broker.Pure

/-- What the connector's handle, if it has one, is called. -/
def Service.Handle (s : Service) (serial : ℕ) : Prop :=
  ∀ id t, s.transaction = some (id, t) → t.serial = serial

/-- The commits are of one handle each, and what is open is of the connector's handle. -/
def System.Separate (w : System R) : Prop :=
  ∃ serial, w.service.Handle serial ∧ w.broker.Pure serial

/-- The handle stays, and so does the producer. -/
def Service.SameHandle (s s' : Service) : Prop :=
  s'.transactionalProducer = s.transactionalProducer ∧ (s'.transaction = s.transaction ∨
    ∃ id t t', s.transaction = some (id, t) ∧ s'.transaction = some (id, t') ∧ t'.serial = t.serial)

variable {s s' : Service} {serial : ℕ}

theorem Service.SameHandle.handle (h : s.SameHandle s') (hs : s.Handle serial) : s'.Handle serial := by
  intro id t ht
  obtain ⟨_, hsame | ⟨_, t', _, ht', ht'', hser⟩⟩ := h
  · exact hs id t (hsame ▸ ht)
  · cases ht''.symm.trans ht
    exact hser.trans (hs _ t' ht')

section TransactionProduce

variable {s : Service} {P : Broker R → Prop} {id : ℕ} {t₀ : TransactionState} {b : Broker R}

/-- A transaction produce stays with its handle, and the broker keeps what the two requests
keep. -/
theorem Service.produceAdded_spec (hs : s.transaction = some (id, t₀))
    (hprod : ∀ partition batch b, batch.producer = s.transactionalProducer → P b →
      P (Broker.produce partition batch (some t₀.serial) b).1)
    (hb : P b) {t : TransactionState} (ht : t.serial = t₀.serial)
    (call route partition : ℕ) (record : R) (network : Network) :
    s.SameHandle (s.produceAdded b id t call route partition record network).1.1 ∧
      P (s.produceAdded b id t call route partition record network).1.2 := by
  have hkept : P (Session.produce partition ⟨s.transactionalProducer, s.transactionalSequences route, record, call⟩
      (some t.serial) network b).1 := ht ▸ retry_invariant P (fun b => hprod partition _ b rfl) network hb
  simp only [produceAdded]
  split
  · rename_i h
    rw [h] at hkept
    exact ⟨⟨rfl, .inr ⟨id, t₀, _, hs, rfl, ht⟩⟩, hkept⟩
  · rename_i h
    rw [h] at hkept
    split <;> exact ⟨⟨rfl, .inr ⟨id, t₀, _, hs, rfl, ht⟩⟩, hkept⟩

theorem Service.transactionProduce_spec (s : Service)
    (hadd : ∀ b, P b → P (addPartitionsToTxn s.transactionalProducer b).1)
    (hprod : ∀ id t, s.transaction = some (id, t) → ∀ partition batch b,
      batch.producer = s.transactionalProducer → P b →
      P (Broker.produce partition batch (some t.serial) b).1)
    (hb : P b) (call owner id route : ℕ) (record : R) (adding producing : Network) :
    s.SameHandle (s.transactionProduce b call owner id route record adding producing).1.1 ∧
      P (s.transactionProduce b call owner id route record adding producing).1.2 := by
  have hsame : s.SameHandle s := ⟨rfl, .inl rfl⟩
  unfold transactionProduce
  split
  · split
    · exact ⟨hsame, hb⟩
    rename_i t ht
    have hs := (owned_eq_ok.mp ht).1
    have hdoubt : s.SameHandle (s.setTransaction id (doubt t)) :=
      ⟨rfl, .inr ⟨id, t, doubt t, hs, rfl, rfl⟩⟩
    split
    · exact ⟨hdoubt, hb⟩
    split
    · exact produceAdded_spec hs (hprod id t hs) hb rfl ..
    have hadded : P (Session.addPartition s.transactionalProducer adding b).1 :=
      retry_invariant P hadd adding hb
    split
    · rename_i h
      rw [h] at hadded
      exact ⟨hdoubt, hadded⟩
    · rename_i h
      rw [h] at hadded
      exact produceAdded_spec (t := { t with partitionsAdded := route :: t.partitionsAdded }) hs
        (hprod id t hs) hadded rfl ..
  · exact ⟨hsame, hb⟩

/-- Below the last sequence number a produce marks its handle, or sends nothing. -/
theorem Service.transactionProduce_touches (s : Service) (b : Broker R) (call owner id : ℕ) {route : ℕ}
    (hlimit : s.transactionalSequences route + 1 < sequenceLimit) (record : R) (adding producing : Network) :
    (s.transactionProduce b call owner id route record adding producing).1 = (s, b) ∨
      ∃ t, (s.transactionProduce b call owner id route record adding producing).1.1.transaction =
        some (id, t) ∧ t.touched = true := by
  have hadded : ∀ (b : Broker R) (t : TransactionState) (partition : ℕ), ∃ t',
      (s.produceAdded b id t call route partition record producing).1.1.transaction = some (id, t') ∧
        t'.touched = true := by
    intro b t partition
    simp only [produceAdded]
    split
    · exact ⟨_, rfl, rfl⟩
    · rw [if_pos hlimit]
      exact ⟨_, rfl, rfl⟩
  unfold transactionProduce
  split
  · split
    · exact .inl rfl
    split
    · exact .inr ⟨_, rfl, rfl⟩
    split
    · exact .inr (hadded ..)
    split
    · exact .inr ⟨_, rfl, rfl⟩
    · exact .inr (hadded ..)
  · exact .inl rfl

/-- A plain produce leaves everything but its sequence, and the broker keeps what the request
keeps. -/
theorem Service.produce_spec (s : Service)
    (hprod : ∀ partition batch b, P b → P (Broker.produce partition batch none b).1) (hb : P b)
    (call route : ℕ) (record : R) (network : Network) :
    s.SameHandle (s.produce b call route record network).1.1 ∧ P (s.produce b call route record network).1.2 ∧
      (s.produce b call route record network).1.1.transaction = s.transaction := by
  have hkept : ∀ partition batch, P (Session.produce partition batch none network b).1 :=
    fun partition batch => retry_invariant P (hprod partition batch) network hb
  have hsame : s.SameHandle s := ⟨rfl, .inl rfl⟩
  unfold Service.produce
  split
  · split
    · exact ⟨hsame, hb, rfl⟩
    rename_i partition _
    have hk := hkept partition ⟨.plain, s.nonTransactionalSequences route, record, call⟩
    simp only
    split
    · rename_i h
      rw [h] at hk
      exact ⟨hsame, hk, rfl⟩
    · rename_i h
      rw [h] at hk
      split <;> exact ⟨⟨rfl, .inl rfl⟩, hk, rfl⟩
  · exact ⟨hsame, hb, rfl⟩

end TransactionProduce

/-! ### The handle across the other requests -/

/-- The handle and the producer stay as they are. -/
def Service.Keeps (s s' : Service) : Prop :=
  s'.transaction = s.transaction ∧ s'.transactionalProducer = s.transactionalProducer

theorem Service.id_eq_ok {id : ℕ} (h : s.id = .ok (id, s')) :
    ∃ nextId, s' = { s with nextId } := by
  simp only [Service.id, okOr_bind_ok] at h
  obtain ⟨_, _, h⟩ := h
  cases h
  exact ⟨_, rfl⟩

theorem Service.keeps_openConsumer (s : Service) (owner : ℕ) (joined : Except KafkaError Bool)
    (offset : Except KafkaError ℕ) :
    s.Keeps (s.openConsumer owner joined offset).1 := by
  unfold openConsumer
  repeat' split
  all_goals first
    | exact ⟨rfl, rfl⟩
    | (obtain ⟨_, rfl⟩ := id_eq_ok ‹_›; exact ⟨rfl, rfl⟩)

theorem Service.keeps_pollConsumer (s : Service) (owner consumerId : ℕ)
    (fetched : Except KafkaError (List (ℕ × ℕ))) :
    s.Keeps (s.pollConsumer owner consumerId fetched).1 := by
  unfold pollConsumer
  repeat' split
  all_goals first
    | exact ⟨rfl, rfl⟩
    | (obtain ⟨_, rfl⟩ := id_eq_ok ‹_›; exact ⟨rfl, rfl⟩)

theorem Service.keeps_dropDelivery (s : Service) (deliveryId : ℕ) (delivery : DeliveryState)
    (change : ConsumerState → ConsumerState) :
    s.Keeps (s.dropDelivery deliveryId delivery change).1 := by
  simp only [dropDelivery]
  split <;> exact ⟨rfl, rfl⟩

theorem Service.keeps_releaseDelivery (s : Service) (owner deliveryId : ℕ) :
    s.Keeps (s.releaseDelivery owner deliveryId).1 := by
  unfold releaseDelivery
  split
  · exact ⟨rfl, rfl⟩
  · exact keeps_dropDelivery ..

theorem Service.keeps_commitDelivery (s : Service) (owner deliveryId : ℕ)
    (stored : Except KafkaError Unit) :
    s.Keeps (s.commitDelivery owner deliveryId stored).1 := by
  unfold commitDelivery
  repeat' split
  all_goals first
    | exact ⟨rfl, rfl⟩
    | exact keeps_dropDelivery ..

theorem Service.keeps_closeConsumer (s : Service) (owner consumerId : ℕ)
    (left : Except KafkaError Unit) :
    s.Keeps (s.closeConsumer owner consumerId left).1 := by
  simp only [closeConsumer]
  repeat' split
  all_goals exact ⟨rfl, rfl⟩

theorem Service.handle_includeDelivery (hs : s.Handle serial)
    (owner id deliveryId : ℕ) : (s.includeDelivery owner id deliveryId).1.Handle serial := by
  unfold includeDelivery
  split
  · exact hs
  rename_i t ht
  have hser := hs id t (owned_eq_ok.mp ht).1
  split
  · split
    · exact hs
    split
    · rename_i h
      intro id t ht
      rw [← congrArg Prod.fst h, (keeps_dropDelivery ..).1] at ht
      exact hs id t ht
    · exact fun _ _ hf => by cases hf; exact hser
  · exact hs

/-- An included delivery marks the handle. -/
theorem Service.includeDelivery_touches (s : Service) (owner id deliveryId : ℕ) :
    (s.includeDelivery owner id deliveryId).1.transactionalProducer = s.transactionalProducer ∧
      ((s.includeDelivery owner id deliveryId).1.transaction = s.transaction ∨
        ∃ t, (s.includeDelivery owner id deliveryId).1.transaction = some (id, t) ∧ t.touched = true) := by
  unfold includeDelivery
  split
  · exact ⟨rfl, .inl rfl⟩
  split
  · split
    · exact ⟨rfl, .inl rfl⟩
    rename_i delivery _
    have hkept := s.keeps_dropDelivery deliveryId delivery fun consumer =>
      { consumer with outstanding := none, reservedTransaction := some id }
    split
    · rename_i h
      rw [h] at hkept
      exact ⟨hkept.2, .inl hkept.1⟩
    · rename_i h
      rw [h] at hkept
      exact ⟨hkept.2, .inr ⟨_, rfl, rfl⟩⟩
  · exact ⟨rfl, .inl rfl⟩

theorem Service.transaction_restart (s : Service) (b : Broker R) (t : TransactionState)
    (result : Except KafkaError Unit) (network : Network) :
    (s.restart b t result network).1.1.transaction = s.transaction := by
  unfold restart reinit
  repeat' split
  all_goals grind

theorem Service.transaction_settle (s : Service) (included : Option IncludedDelivery)
    (committed : Bool) : (s.settle included committed).transaction = s.transaction := by
  unfold settle
  split <;> rfl

theorem Service.transaction_finishTransaction (s : Service) (b : Broker R) (owner id : ℕ)
    (commit : Bool) (network : FinishNetwork) :
    (s.finishTransaction b owner id commit network).1.1.transaction = none ∨
      (s.finishTransaction b owner id commit network).1 = (s, b) := by
  unfold finishTransaction
  split
  · exact .inr rfl
  · exact .inl ((transaction_settle ..).trans (transaction_restart ..))

/-- Rejoining gives the handle up. -/
theorem Service.transaction_rejoinGroup (s : Service) (b : Broker R) (ending init : Network)
    (joined : Except KafkaError Bool) (offset : Except KafkaError ℕ) :
    (s.rejoinGroup b ending init joined offset).1.1.transaction = none := by
  have hrevoked : ({ s with groupMembership := none }.revokeGroupGeneration b ending init).1.transaction =
      none := by
    simp only [revokeGroupGeneration, giveUp, reinit]
    repeat' split
    all_goals rfl
  unfold rejoinGroup
  simp only
  repeat' split
  all_goals exact hrevoked

/-! ### Every run -/

/-- What the network has to do with a request: the requests that finish a handle or give it up close its
transaction. The sequence numbers of the producer are not used up. -/
def System.Settles (w : System R) : Request R → Prop
  | .transactionProduce _ _ route _ _ _ => w.service.transactionalSequences route + 1 < sequenceLimit
  | .finishTransaction _ _ commit network =>
    ∀ id t, w.service.transaction = some (id, t) → network.Closes commit t
  | .rejoinGroup ending init _ _ =>
    reaches coordinatorPolicy ending = true ∨ reaches initPolicy init = true
  | _ => True

/-- Nothing is open at the broker without a handle, for a handle that has sent nothing, and for a
producer that is turned away. -/
structure System.Quiet (w : System R) : Prop where
  closed : w.service.transaction = none → w.broker.Closed
  untouched : ∀ id t, w.service.transaction = some (id, t) → t.touched = false → w.broker.Closed
  fenced : w.broker.Fenced w.service.transactionalProducer

variable {w w' : System R}

theorem System.quiet_of_closed (h : w.broker.Closed) : w.Quiet := ⟨fun _ => h, fun _ _ _ _ => h, fun _ => h⟩

/-- A request that leaves the handle and the coordinator as they are. -/
theorem System.Quiet.of_eq (hw : w.Quiet) (hs : w.service.Keeps w'.service)
    (hb : w'.broker.coordinator = w.broker.coordinator ∧ w'.broker.epoch = w.broker.epoch) : w'.Quiet := by
  have hclosed : w.broker.Closed → w'.broker.Closed := fun h => (congrArg _ hb.1).trans h
  refine ⟨fun h => hclosed (hw.closed (hs.1.symm.trans h)), fun id t h ht => ?_, hs.2 ▸ ?_⟩
  · exact hclosed (hw.untouched id t (hs.1.symm.trans h) ht)
  · exact hw.fenced.of_epoch hb.2 hclosed

/-- A handle that has sent something says nothing about the broker. -/
theorem System.quiet_of_touched {id : ℕ} {t : TransactionState}
    (h : w.service.transaction = some (id, t)) (ht : t.touched = true)
    (hb : w.broker.Fenced w.service.transactionalProducer) : w.Quiet := by
  refine ⟨fun hnone => ?_, fun id' t' h' ht' => ?_, hb⟩
  · cases h.symm.trans hnone
  · cases h.symm.trans h'
    cases ht.symm.trans ht'

theorem System.Quiet.finishTransaction (hw : w.Quiet) {owner id : ℕ} {commit : Bool}
    {network : Service.FinishNetwork} (h : w.Settles (.finishTransaction owner id commit network)) :
    (w.next (.finishTransaction owner id commit network)).Quiet := by
  cases hown : w.service.owned owner id with
  | error =>
    have hsame : w.next (.finishTransaction owner id commit network) = w := by
      simp only [next, step, Service.finishTransaction, hown]
    rw [hsame]
    exact hw
  | ok t =>
    have ht := (Service.owned_eq_ok.mp hown).1
    exact quiet_of_closed (Service.closed_finishTransaction hown hw.fenced (hw.untouched id t ht) (h id t ht))

theorem System.Quiet.transactionProduce (hw : w.Quiet) {owner id route : ℕ} {record : R}
    {adding producing : Network} (h : w.Settles (.transactionProduce owner id route record adding producing)) :
    (w.next (.transactionProduce owner id route record adding producing)).Quiet := by
  obtain ⟨⟨hproducer, -⟩, hb⟩ := w.service.transactionProduce_spec
    (P := Broker.Fenced w.service.transactionalProducer) (fun b hb => hb.guarded (b.epoch_add []))
    (fun _ _ _ partition batch b hbatch hb => hbatch ▸ hb.produce partition batch _ hbatch) hw.fenced
    w.calls owner id route record adding producing
  obtain ⟨hsvc, hbroker⟩ := w.produced_eq route record
    (w.service.transactionProduce w.broker w.calls owner id route record adding producing)
  rcases w.service.transactionProduce_touches w.broker w.calls owner id h record adding producing with
    hsame | ⟨_, ht, htouched⟩
  · rw [hsame] at hsvc hbroker
    exact hw.of_eq ⟨congrArg _ hsvc.symm, congrArg _ hsvc.symm⟩
      ⟨congrArg _ hbroker.symm, congrArg _ hbroker.symm⟩
  · refine quiet_of_touched ((congrArg _ hsvc.symm).trans ht) htouched ?_
    exact hsvc ▸ hbroker ▸ hproducer ▸ hb

theorem System.Quiet.step (hw : w.Quiet) (request : Request R) (h : w.Settles request) :
    (w.next request).Quiet := by
  cases request with
  | foreign => exact hw.of_eq ⟨rfl, rfl⟩ ⟨rfl, rfl⟩
  | produce route record network =>
    obtain ⟨⟨hproducer, -⟩, hb, htrans⟩ := w.service.produce_spec
      (P := fun b => b.coordinator = w.broker.coordinator ∧ b.epoch = w.broker.epoch)
      (fun partition batch b hb => ⟨(b.plain_produce partition batch).1.trans hb.1,
        (b.plain_produce partition batch).2.trans hb.2⟩) ⟨rfl, rfl⟩ w.calls route record network
    obtain ⟨hsvc, hbroker⟩ := w.produced_eq route record
      (w.service.produce w.broker w.calls route record network)
    exact hw.of_eq (hsvc ▸ ⟨htrans, hproducer⟩) (hbroker ▸ hb)
  | transactionProduce => exact hw.transactionProduce h
  | openConsumer => exact hw.of_eq (w.service.keeps_openConsumer ..) ⟨rfl, rfl⟩
  | pollConsumer => exact hw.of_eq (w.service.keeps_pollConsumer ..) ⟨rfl, rfl⟩
  | releaseDelivery => exact hw.of_eq (w.service.keeps_releaseDelivery ..) ⟨rfl, rfl⟩
  | commitDelivery => exact hw.of_eq (w.service.keeps_commitDelivery ..) ⟨rfl, rfl⟩
  | closeConsumer => exact hw.of_eq (w.service.keeps_closeConsumer ..) ⟨rfl, rfl⟩
  | beginTransaction owner =>
    change Quiet { w with service := (w.service.beginTransaction owner w.begun).1, begun := w.begun + 1 }
    have hsame : Quiet { w with begun := w.begun + 1 } := hw.of_eq ⟨rfl, rfl⟩ ⟨rfl, rfl⟩
    unfold Service.beginTransaction
    split
    · split
      · exact hsame
      rename_i hnone
      split
      · exact hsame
      · rename_i hid
        obtain ⟨_, rfl⟩ := Service.id_eq_ok hid
        exact ⟨nofun, fun _ _ _ _ => hw.closed hnone, hw.fenced⟩
    · exact hsame
  | includeDelivery owner id deliveryId =>
    obtain ⟨hproducer, hsame | ⟨t, ht, htouched⟩⟩ := w.service.includeDelivery_touches owner id deliveryId
    · exact hw.of_eq ⟨hsame, hproducer⟩ ⟨rfl, rfl⟩
    · exact quiet_of_touched ht htouched (hproducer ▸ hw.fenced : _)
  | finishTransaction => exact hw.finishTransaction h
  | rejoinGroup _ _ joined offset =>
    exact quiet_of_closed (Service.closed_rejoinGroup hw.fenced hw.closed hw.untouched joined offset h)

theorem System.quiet_start (profile : Profile) : (start profile : System R).Quiet := quiet_of_closed rfl

/-- The invariant of the runs that leave nothing open. -/
structure System.Tidy (w : System R) : Prop where
  separate : w.Separate
  quiet : w.Quiet

/-- A request that leaves the handle and the coordinator alone. -/
theorem System.Separate.of_eq {w' : System R} (hs : w.Separate)
    (ht : w'.service.transaction = w.service.transaction)
    (hb : ∀ serial, w.broker.Pure serial → w'.broker.Pure serial) : w'.Separate := by
  obtain ⟨serial, hhd, hpure⟩ := hs
  exact ⟨serial, fun id t h => hhd id t (ht ▸ h), hb serial hpure⟩

theorem System.Tidy.beginTransaction (hw : w.Tidy) (owner : ℕ) :
    (w.next (.beginTransaction owner)).Separate := by
  change Separate { w with service := (w.service.beginTransaction owner w.begun).1, begun := w.begun + 1 }
  obtain ⟨serial, hhd, hpure⟩ := hw.separate
  unfold Service.beginTransaction
  split
  · split
    · exact ⟨serial, hhd, hpure⟩
    rename_i hnone
    split
    · exact ⟨serial, hhd, hpure⟩
    · refine ⟨w.begun, fun id t hf => by cases hf; rfl, hpure.committed, fun items hi => ?_⟩
      have hopen : w.broker.coordinator = .ongoing items := hi
      have hcl := hw.quiet.closed hnone
      rw [Closed, hopen] at hcl
      cases hcl
  · exact ⟨serial, hhd, hpure⟩

theorem System.Tidy.step (hw : w.Tidy) (request : Request R)
    (h : w.Settles request) : (w.next request).Tidy := by
  refine ⟨?_, hw.quiet.step request h⟩
  have hsep := hw.separate
  cases request with
  | foreign => exact hsep.of_eq rfl fun _ hb => ⟨hb.committed, hb.ongoing⟩
  | produce route record network =>
    obtain ⟨serial, hhd, hpure⟩ := hsep
    obtain ⟨hh, hp, -⟩ := w.service.produce_spec (P := Broker.Pure serial)
      (fun partition batch b hb => produce hb partition batch none nofun) hpure
      w.calls route record network
    obtain ⟨hsvc, hbroker⟩ := w.produced_eq route record
      (w.service.produce w.broker w.calls route record network)
    exact ⟨serial, hsvc ▸ hh.handle hhd, hbroker ▸ hp⟩
  | transactionProduce owner id route record adding producing =>
    obtain ⟨serial, hhd, hpure⟩ := hsep
    obtain ⟨hh, hp⟩ := w.service.transactionProduce_spec (P := Broker.Pure serial)
      (fun _ hb => guarded_keeps _ hb (hb.add fun _ h => absurd h not_mem_nil))
      (fun id t ht partition batch b _ hb => produce hb partition batch _ fun _ h =>
        (Option.some.inj h).symm.trans (hhd id t ht)) hpure w.calls owner id route record adding producing
    obtain ⟨hsvc, hbroker⟩ := w.produced_eq route record
      (w.service.transactionProduce w.broker w.calls owner id route record adding producing)
    exact ⟨serial, hsvc ▸ hh.handle hhd, hbroker ▸ hp⟩
  | openConsumer => exact hsep.of_eq (w.service.keeps_openConsumer ..).1 fun _ hb => hb
  | pollConsumer => exact hsep.of_eq (w.service.keeps_pollConsumer ..).1 fun _ hb => hb
  | releaseDelivery => exact hsep.of_eq (w.service.keeps_releaseDelivery ..).1 fun _ hb => hb
  | commitDelivery => exact hsep.of_eq (w.service.keeps_commitDelivery ..).1 fun _ hb => hb
  | closeConsumer => exact hsep.of_eq (w.service.keeps_closeConsumer ..).1 fun _ hb => hb
  | beginTransaction owner => exact hw.beginTransaction owner
  | includeDelivery owner id deliveryId =>
    obtain ⟨serial, hhd, hpure⟩ := hsep
    exact ⟨serial, Service.handle_includeDelivery hhd owner id deliveryId, hpure⟩
  | finishTransaction owner id commit network =>
    obtain ⟨serial, hhd, hpure⟩ := hsep
    refine ⟨serial, fun id' t ht => ?_, w.service.broker_finishTransaction (fun _ h => h)
      (fun id t ht => keeps (hhd id t ht) _ commit) owner id network hpure⟩
    rcases w.service.transaction_finishTransaction w.broker owner id commit network with h | h
    · cases h.symm.trans ht
    · exact hhd id' t ((congrArg (·.1.transaction) h).symm.trans ht)
  | rejoinGroup ending init joined offset =>
    obtain ⟨serial, hhd, hpure⟩ := hsep
    refine ⟨serial, fun id' t ht => ?_, w.service.broker_rejoinGroup
      (fun id t ht => keeps (hhd id t ht) _ false) ending init joined offset hpure⟩
    cases (w.service.transaction_rejoinGroup w.broker ending init joined offset).symm.trans ht

theorem System.tidy_start (profile : Profile) : (start profile : System R).Tidy :=
  ⟨⟨0, nofun, fun _ h => absurd h not_mem_nil, nofun⟩, quiet_start profile⟩

/-- In a run whose handles are all closed by a request that reaches the broker, a commit has only what
was added under the handle it was asked for. -/
theorem System.commits_do_not_leak (profile : Profile) (requests : List (Request R))
    (hrun : Meets System.next System.Settles (System.start profile) requests) :
    ∀ c ∈ ((System.start profile).run requests).broker.committed, ∀ item ∈ c.2, item.handle = c.1 := by
  have hw : ((start profile).run requests).Tidy :=
    hrun.invariant (fun _ request hw h => hw.step request h) (tidy_start profile)
  obtain ⟨_, _, hpure⟩ := hw.separate
  exact hpure.committed

/-- One route and every right. -/
def anyRight : Profile := ⟨fun _ => some 0, true, true, true⟩

def answered : Network := [⟨.delivered, none⟩]

def lost : Network := [⟨.requestLost .transport, some .transport⟩]

/-- Two handles with one record each; the network may lose what finishes the first. -/
def twoHandles (first : Service.FinishNetwork) : List (Request ℕ) :=
  [.beginTransaction 0, .transactionProduce 0 1 0 7 answered answered, .finishTransaction 0 1 true first,
    .beginTransaction 0, .transactionProduce 0 2 0 8 answered answered,
    .finishTransaction 0 2 true ⟨answered, answered, answered, answered, answered⟩]

/-- The commit of the second handle commits the record of the first, which had failed. -/
theorem System.commit_leaks : ¬ ∀ c ∈ ((System.start anyRight).run
    (twoHandles ⟨answered, answered, lost, lost, lost⟩)).broker.committed, ∀ item ∈ c.2, item.handle = c.1 := by
  intro h
  cases h (1, [.record 0 0, .record 1 1]) mem_cons_self (.record 0 0) mem_cons_self

theorem System.commits_do_not_leak_answered :
    ((System.start anyRight).run (twoHandles ⟨answered, answered, lost, lost, answered⟩)).broker.committed =
      [(1, [.record 1 1])] ∧
    ∀ c ∈ ((System.start anyRight).run (twoHandles ⟨answered, answered, lost, lost, answered⟩)).broker.committed,
      ∀ item ∈ c.2, item.handle = c.1 :=
  have hfirst : 0 + 1 < sequenceLimit := by decide
  ⟨rfl, commits_do_not_leak anyRight _ ⟨trivial, hfirst, fun _ _ _ => .inl rfl, trivial, hfirst,
    fun _ _ _ => .inl rfl, trivial⟩⟩

end Charlotte.Kafka
