import Charlotte.Kafka.Service

/-!
# What finishing a transaction sends

Finishing a handle, and giving it up for a lost generation, first add an offset and then end
the transaction and start a new epoch. Each of these requests is made any number of times.
What the first keep and what the others keep is kept by the whole.
-/

namespace Charlotte.Kafka

open Lib Option Broker

variable {R : Type} {b : Broker R}

/-- A request to the coordinator has its effect, or is turned away. -/
theorem Broker.guarded_keeps {α : Type} (P : Broker R → Prop) {producer : ProducerIdentity}
    {effect : Broker R → Broker R × Except BrokerCode α} (hb : P b) (heff : P (effect b).1) :
    P (guarded producer effect b).1 := by
  unfold guarded
  split
  · exact heff
  · exact hb

/-- The requests that finish a handle, with a commit only if `commits`. -/
structure Keeps (producer : ProducerIdentity) (t : TransactionState) (commits : Bool)
    (P Q : Broker R → Prop) : Prop where
  group : ∀ b, P b → P (addOffsetsToTxn producer b).1
  offset : ∀ included, t.included = some included → ∀ b, P b →
    P (txnOffsetCommit producer t.serial included.nextOffset b).1
  weaken : ∀ b, P b → Q b
  ended : ∀ commit b, (commit = true → commits = true) → Q b → Q (endTxn producer t.serial commit b).1
  init : ∀ b, Q b → Q (initProducerId b).1

variable {producer : ProducerIdentity} {t : TransactionState} {commits : Bool} {P Q : Broker R → Prop}

theorem Keeps.addTransactionalOffset (hk : Keeps producer t commits P Q) {included : IncludedDelivery}
    (hi : t.included = some included) (group offset : Network) (hb : P b) :
    P (Session.addTransactionalOffset producer t.serial included.nextOffset group offset b).1 := by
  have hgrp : P (retry (addOffsetsToTxn producer) coordinatorPolicy group b).1 :=
    retry_invariant P hk.group group hb
  unfold Session.addTransactionalOffset
  split
  · rename_i h
    rw [h] at hgrp
    exact hgrp
  · rename_i h
    rw [h] at hgrp
    exact retry_invariant P (hk.offset included hi) offset hgrp

theorem Keeps.endTransaction (hk : Keeps producer t commits P Q) {commit : Bool}
    (hc : commit = true → commits = true) (network : Network) (hb : Q b) :
    Q (Session.endTransaction producer t.serial commit network b).1 :=
  retry_invariant Q (fun b => hk.ended commit b hc) network hb

namespace Service

variable {s : Service} {b : Broker R} (hk : Keeps s.transactionalProducer t commits P Q)
include hk

theorem keeps_addOffset (commit : Bool)
    (network : FinishNetwork) (hb : P b) : P (s.addOffset b t commit network).1 := by
  unfold addOffset
  split
  · rename_i hi
    split
    · exact hk.addTransactionalOffset hi _ _ hb
    · exact hb
  · exact hb

theorem keeps_tryEnd (network : FinishNetwork) (hb : P b) : Q (s.tryEnd b t commits network).1 := by
  have hadd := keeps_addOffset hk commits network hb
  unfold tryEnd
  split
  · rename_i h
    rw [h] at hadd
    exact hk.weaken _ hadd
  · rename_i h
    rw [h] at hadd
    exact hk.endTransaction (fun h => h) network.ending (hk.weaken _ hadd)

theorem keeps_conclude (network : FinishNetwork) (hb : P b) : Q (s.conclude b t commits network).1 := by
  have hend := keeps_tryEnd hk network hb
  unfold conclude
  split
  · split
    · rename_i h
      rw [h] at hend
      exact hend
    · rename_i h
      rw [h] at hend
      split
      · exact hk.endTransaction (fun h : false = true => (nomatch h)) network.aborting hend
      · exact hend
  · exact hk.weaken b hb

theorem keeps_reinit (network : Network) (hb : Q b) : Q (s.reinit b network).1.2 := by
  have hinit : Q (Session.initProducer network b).1 := retry_invariant Q hk.init network hb
  unfold reinit
  split
  · rename_i h
    rw [h] at hinit
    exact hinit
  · rename_i h
    rw [h] at hinit
    exact hinit

theorem keeps_restart (result : Except KafkaError Unit) (network : Network) (hb : Q b) :
    Q (s.restart b t result network).1.2 := by
  have hinit := keeps_reinit hk network hb
  unfold restart
  split
  · split
    · rename_i h
      rw [h] at hinit
      exact hinit
    · rename_i h
      rw [h] at hinit
      exact hinit
  · exact hb

omit hk in
theorem owned_eq_ok {owner id : ℕ} :
    s.owned owner id = .ok t ↔ s.transaction = some (id, t) ∧ t.owner = owner := by
  unfold owned
  rw [okOr_eq_ok]
  cases h : s.transaction with
  | none => simp
  | some transaction =>
    obtain ⟨tid, found⟩ := transaction
    simp only [filter_some, some.injEq, Prod.mk.injEq, decide_eq_true_eq]
    by_cases hc : tid = id ∧ found.owner = owner
    · rw [if_pos hc]
      simp only [map_some, some.injEq]
      exact ⟨fun he => by subst he; exact ⟨⟨hc.1, rfl⟩, hc.2⟩, fun he => he.1.2⟩
    · rw [if_neg hc]
      simp only [map_none, reduceCtorEq, false_iff]
      exact fun he => hc ⟨he.1.1, he.1.2 ▸ he.2⟩

omit hk in
theorem broker_finishTransaction (s : Service) (hweaken : ∀ b, P b → Q b)
    (hk : ∀ id t, s.transaction = some (id, t) → Keeps s.transactionalProducer t commits P Q)
    (owner id : ℕ) (network : FinishNetwork) (hb : P b) :
    Q (s.finishTransaction b owner id commits network).1.2 := by
  unfold finishTransaction
  split
  · exact hweaken b hb
  · rename_i t ht
    have hk' : Keeps { s with transaction := none }.transactionalProducer t commits P Q :=
      hk id t (owned_eq_ok.mp ht).1
    exact keeps_restart hk' _ network.init (keeps_conclude hk' network hb)

theorem keeps_giveUp (ending init : Network) (hb : Q b) : Q (s.giveUp b t ending init).2 := by
  have hend := hk.endTransaction (fun h : false = true => (nomatch h)) ending hb
  unfold giveUp
  split
  · simp only
    split
    · exact keeps_reinit hk init hend
    · exact hend
  · exact hb

omit hk

theorem broker_rejoinGroup (s : Service)
    (hk : ∀ id t, s.transaction = some (id, t) → Keeps s.transactionalProducer t commits P Q)
    (ending init : Network) (joined : Except KafkaError Bool) (offset : Except KafkaError ℕ)
    (hb : Q b) : Q (s.rejoinGroup b ending init joined offset).1.2 := by
  have hleft : Q ({ s with groupMembership := none }.revokeGroupGeneration b ending init).2 := by
    unfold revokeGroupGeneration
    split
    · exact hb
    · rename_i id t h
      have hk' : Keeps { s with groupMembership := none }.revoked.transactionalProducer t
          commits P Q := hk id t h
      exact keeps_giveUp hk' ending init hb
  unfold rejoinGroup
  simp only
  split
  · exact hleft
  · split <;> exact hleft

end Service

end Charlotte.Kafka
