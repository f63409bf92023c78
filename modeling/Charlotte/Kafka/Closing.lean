import Charlotte.Kafka.Finish

/-!
# What closes a transaction at the broker

A handle that is finished or given up leaves nothing open at the broker if one of its requests to end
the transaction or to start a new epoch reaches it. A producer of an older epoch has nothing open.
-/

namespace Charlotte.Kafka

open Lib Option Broker

variable {R : Type}

def Coordinator.isOngoing : Coordinator → Bool
  | .ongoing _ => true
  | _ => false

/-- No transaction is open. -/
def Broker.Closed (b : Broker R) : Prop := b.coordinator.isOngoing = false

/-- A producer that is turned away has nothing open. -/
def Broker.Fenced (producer : ProducerIdentity) (b : Broker R) : Prop :=
  b.accepts producer = false → b.Closed

variable {producer : ProducerIdentity} {b : Broker R}

theorem Broker.accepts_of_epoch {b' : Broker R} (h : b'.epoch = b.epoch) (producer : ProducerIdentity) :
    b'.accepts producer = b.accepts producer := by
  cases producer with
  | plain => rfl
  | transactional => simp only [accepts, h]

theorem Broker.epoch_add (b : Broker R) (items : List Item) : (b.add items).epoch = b.epoch := by
  unfold add
  split <;> rfl

theorem Broker.Fenced.of_epoch {b' : Broker R} (hb : b.Fenced producer) (h : b'.epoch = b.epoch)
    (hkeep : b.Closed → b'.Closed) : b'.Fenced producer := fun haccepts =>
  hkeep (hb ((accepts_of_epoch h producer).symm.trans haccepts))

/-- A request of the producer itself has an effect only if it is accepted. -/
theorem Broker.Fenced.guarded {α : Type} {effect : Broker R → Broker R × Except BrokerCode α}
    (hb : b.Fenced producer) (heff : (effect b).1.epoch = b.epoch) :
    (Broker.guarded producer effect b).1.Fenced producer := by
  unfold Broker.guarded
  split
  · rename_i haccepts
    exact fun hnot => absurd ((accepts_of_epoch heff producer).trans haccepts) (by simp [hnot])
  · exact hb

theorem Broker.Closed.endTxn (hb : b.Closed) (producer : ProducerIdentity) (handle : ℕ) (commit : Bool) :
    (endTxn producer handle commit b).1.Closed := by
  apply guarded_keeps _ hb
  cases h : b.coordinator with
  | empty | completed => exact hb
  | ongoing => rfl

/-- After `EndTxn` of the producer nothing is open, accepted or not. -/
theorem Broker.Fenced.closed_endTxn (hb : b.Fenced producer) (handle : ℕ) (commit : Bool) :
    (endTxn producer handle commit b).1.Closed := by
  unfold Broker.endTxn Broker.guarded
  split
  · cases h : b.coordinator <;> simp [Closed, h, Coordinator.isOngoing]
  · rename_i haccepts
    exact hb (by simpa using haccepts)

theorem Broker.Fenced.endTxn (hb : b.Fenced producer) (handle : ℕ) (commit : Bool) :
    (endTxn producer handle commit b).1.Fenced producer :=
  fun _ => hb.closed_endTxn handle commit

theorem keeps_fenced (producer : ProducerIdentity) (t : TransactionState) (commits : Bool) :
    Keeps producer t commits (Fenced producer : Broker R → Prop) (Fenced producer) where
  group := fun b hb => hb.guarded (b.epoch_add [])
  offset := fun _ _ b hb => hb.guarded (b.epoch_add _)
  weaken := fun _ hb => hb
  ended := fun commit _ _ hb => hb.endTxn t.serial commit
  init := fun _ _ _ => rfl

theorem Broker.epoch_produce (b : Broker R) (partition : ℕ) (batch : Batch R) (handle : Option ℕ) :
    (produce partition batch handle b).1.epoch = b.epoch := by
  unfold Broker.produce
  repeat' split
  all_goals first
    | rfl
    | exact epoch_add ..

/-- A batch of the producer is added only if it is accepted. -/
theorem Broker.Fenced.produce (hb : b.Fenced producer) (partition : ℕ) (batch : Batch R)
    (handle : Option ℕ) (hbatch : batch.producer = producer) :
    (produce partition batch handle b).1.Fenced producer := by
  cases haccepts : b.accepts batch.producer with
  | true =>
    rw [hbatch] at haccepts
    have haccepts' := (accepts_of_epoch (b.epoch_produce partition batch handle) producer).trans haccepts
    exact fun hnot => absurd haccepts' (by simp [hnot])
  | false => simpa [Broker.produce, haccepts] using hb

theorem Broker.plain_produce (b : Broker R) (partition : ℕ) (batch : Batch R) :
    (produce partition batch none b).1.coordinator = b.coordinator ∧
      (produce partition batch none b).1.epoch = b.epoch := by
  simp only [Broker.produce]
  repeat' split
  all_goals exact ⟨rfl, rfl⟩

/-! ### Sessions -/

theorem Session.endTransaction_closes (hb : b.Fenced producer) (handle : ℕ) (commit : Bool)
    {network : Network} (h : reaches coordinatorPolicy network = true) :
    (Session.endTransaction producer handle commit network b).1.Closed :=
  retry_reached (hb.closed_endTxn handle commit) (fun _ hb => hb.endTxn producer handle commit) h

theorem Session.closed_of_endTransaction (hb : b.Fenced producer) {handle : ℕ} {commit : Bool}
    {network : Network} (h : (Session.endTransaction producer handle commit network b).2 = .ok ()) :
    (Session.endTransaction producer handle commit network b).1.Closed :=
  (retry_spec (Fenced producer) (fun b _ => b.Closed) (fun _ hb => hb.endTxn handle commit)
    (fun _ _ hb _ => hb.closed_endTxn handle commit) network hb).2 () h

theorem Session.closed_endTransaction (hb : b.Closed) (producer : ProducerIdentity) (handle : ℕ)
    (commit : Bool) (network : Network) :
    (Session.endTransaction producer handle commit network b).1.Closed :=
  retry_invariant Closed (fun _ hb => hb.endTxn producer handle commit) network hb

namespace Service

variable {s : Service} {t : TransactionState}

theorem closed_reinit (s : Service) {network : Network}
    (h : b.Closed ∨ reaches initPolicy network = true) : (s.reinit b network).1.2.Closed := by
  have hnew : ∀ b : Broker R, b.initProducerId.1.Closed := fun _ => rfl
  have hinit : (Session.initProducer network b).1.Closed := by
    rcases h with hb | hreaches
    · exact retry_invariant Closed (fun b _ => hnew b) network hb
    · exact retry_reached (hnew b) (fun b _ => hnew b) hreaches
  unfold reinit
  split
  · rename_i h
    rw [h] at hinit
    exact hinit
  · rename_i h
    rw [h] at hinit
    exact hinit

theorem closed_restart (s : Service) (t : TransactionState) (result : Except KafkaError Unit)
    {network : Network} (h : b.Closed ∨ isOk result = false ∧ reaches initPolicy network = true) :
    (s.restart b t result network).1.2.Closed := by
  have hinit : t.resetProducer || !isOk result → (s.reinit b network).1.2.Closed :=
    fun _ => s.closed_reinit (h.imp_right And.right)
  unfold restart
  split
  · rename_i hreset
    have hclosed := hinit hreset
    split
    · rename_i h
      rw [h] at hclosed
      exact hclosed
    · rename_i h
      rw [h] at hclosed
      exact hclosed
  · rename_i hreset
    refine h.resolve_right fun hfailed => hreset ?_
    simp [hfailed.1]

/-- The fates that close the transaction of a handle: `InitProducerId` reaches the broker if it is
sent, or the abort after a commit that failed does, or the first `EndTxn`, before which no offset is to
be added. -/
def FinishNetwork.Closes (network : FinishNetwork) (commit : Bool) (t : TransactionState) : Prop :=
  reaches initPolicy network.init = true ∨
    commit = true ∧ reaches coordinatorPolicy network.aborting = true ∨
    (commit = false ∨ t.included = none) ∧ reaches coordinatorPolicy network.ending = true

/-- With an answer of success nothing is open; nor if a request to end the transaction arrives. -/
theorem closed_conclude (hb : b.Fenced s.transactionalProducer) (ht : t.touched = true) {commit : Bool}
    {network : FinishNetwork} (h : network.Closes commit t) :
    (s.conclude b t commit network).1.Closed ∨
      isOk (s.conclude b t commit network).2 = false ∧ reaches initPolicy network.init = true := by
  have hend := keeps_tryEnd (keeps_fenced s.transactionalProducer t commit) network hb
  have hok : (s.tryEnd b t commit network).2 = .ok () → (s.tryEnd b t commit network).1.Closed := by
    have hadd := keeps_addOffset (keeps_fenced s.transactionalProducer t commit) commit network hb
    unfold tryEnd
    split
    · nofun
    · rename_i h
      rw [h] at hadd
      exact Session.closed_of_endTransaction hadd
  have hfirst : (commit = false ∨ t.included = none) → reaches coordinatorPolicy network.ending = true →
      (s.tryEnd b t commit network).1.Closed := by
    intro hnone hreaches
    have hadd : s.addOffset b t commit network = (b, .ok ()) := by
      unfold addOffset
      rcases hnone with rfl | hnone
      · rfl
      · rw [hnone]
        cases commit <;> rfl
    rw [tryEnd, hadd]
    exact Session.endTransaction_closes hb t.serial commit hreaches
  unfold conclude
  rw [if_pos ht]
  split
  · rename_i h
    rw [h] at hok
    exact .inl (hok rfl)
  · rename_i herr
    rw [herr] at hend hfirst
    cases commit with
    | false =>
      rcases h with hinit | ⟨hcommit, -⟩ | ⟨hnone, hreaches⟩
      · exact .inr ⟨rfl, hinit⟩
      · cases hcommit
      · exact .inl (hfirst hnone hreaches)
    | true =>
      rcases h with hinit | ⟨-, hreaches⟩ | ⟨hnone, hreaches⟩
      · exact .inr ⟨rfl, hinit⟩
      · exact .inl (Session.endTransaction_closes hend t.serial false hreaches)
      · exact .inl (Session.closed_endTransaction (hfirst hnone hreaches) _ _ _ _)

/-- A handle that has sent nothing, of a broker with nothing open, leaves it so. -/
theorem closed_finishTransaction {owner id : ℕ} {commit : Bool} {network : FinishNetwork}
    (hown : s.owned owner id = .ok t) (hb : b.Fenced s.transactionalProducer)
    (huntouched : t.touched = false → b.Closed) (h : network.Closes commit t) :
    (s.finishTransaction b owner id commit network).1.2.Closed := by
  simp only [finishTransaction, hown]
  refine closed_restart _ t _ ?_
  cases ht : t.touched with
  | true =>
    have hb' : b.Fenced { s with transaction := none }.transactionalProducer := hb
    exact closed_conclude hb' ht h
  | false =>
    rw [conclude, ht]
    exact .inl (huntouched ht)

/-- A revocation closes the transaction of the handle if one of its requests arrives. -/
theorem closed_giveUp (hb : b.Fenced s.transactionalProducer) (huntouched : t.touched = false → b.Closed)
    {ending init : Network}
    (h : reaches coordinatorPolicy ending = true ∨ reaches initPolicy init = true) :
    (s.giveUp b t ending init).2.Closed := by
  unfold giveUp
  split
  · simp only
    split
    · refine closed_reinit s (h.imp_left fun hreaches => ?_)
      exact Session.endTransaction_closes hb t.serial false hreaches
    · rename_i hok
      refine Session.closed_of_endTransaction hb ?_
      cases hres : (Session.endTransaction s.transactionalProducer t.serial false ending b).2 with
      | ok => rfl
      | error => simp [hres, isOk] at hok
  · exact huntouched (by simpa using ‹¬ t.touched = true›)

theorem closed_rejoinGroup (hb : b.Fenced s.transactionalProducer)
    (hclosed : s.transaction = none → b.Closed)
    (huntouched : ∀ id t, s.transaction = some (id, t) → t.touched = false → b.Closed)
    {ending init : Network} (joined : Except KafkaError Bool) (offset : Except KafkaError ℕ)
    (h : reaches coordinatorPolicy ending = true ∨ reaches initPolicy init = true) :
    (s.rejoinGroup b ending init joined offset).1.2.Closed := by
  have hleft : ({ s with groupMembership := none }.revokeGroupGeneration b ending init).2.Closed := by
    unfold revokeGroupGeneration
    split
    · exact hclosed ‹_›
    · rename_i id t ht
      have hb' : b.Fenced { s with groupMembership := none }.revoked.transactionalProducer := hb
      exact closed_giveUp hb' (huntouched id t ht) h
  unfold rejoinGroup
  simp only
  split
  · exact hleft
  · split <;> exact hleft

end Service

end Charlotte.Kafka
