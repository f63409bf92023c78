import Charlotte.Lib.Runs
import Charlotte.Kafka.Finish

/-!
# An acknowledged record is in the log

A produce call sends its batch under the sequence the service has for the route. If an earlier
call under this sequence failed although its batch was stored, the broker answers with the
batch of that call. The call is safe when the sequence is unused, or when what is stored under
it is the same record and nobody was told about it.
-/

namespace Charlotte.Kafka

open Lib List Option Function Broker Kafka.System

variable {R : Type}

/-- The batch at an offset of a partition. -/
def Broker.Holds (b : Broker R) (partition offset : ℕ) (batch : Batch R) : Prop :=
  (b.log partition)[offset]? = some (some batch)

variable {b : Broker R} {partition offset : ℕ} {entry : Option (Batch R)} {batch : Batch R}

theorem Broker.holds_congr {b' : Broker R} (hlog : b'.log = b.log) :
    b'.Holds partition offset batch ↔ b.Holds partition offset batch := by
  unfold Holds
  rw [hlog]

theorem Broker.holds_append {partition' : ℕ} :
    (b.append partition' entry).Holds partition offset batch ↔ b.Holds partition offset batch ∨
        partition = partition' ∧ offset = (b.log partition').length ∧ entry = some batch := by
  unfold Holds append
  by_cases hp : partition = partition'
  · subst hp
    simp only [update_self, true_and]
    by_cases hlt : offset < (b.log partition).length
    · rw [getElem?_append_left hlt]
      exact ⟨.inl, fun h => h.resolve_right fun h => absurd h.1 (ne_of_lt hlt)⟩
    · rw [getElem?_eq_none (Nat.le_of_not_lt hlt : (b.log partition).length ≤ offset)]
      by_cases he : offset = (b.log partition).length
      · subst he
        simp
      · rw [getElem?_eq_none (by simp; omega)]
        simp [he]
  · simp [hp]

theorem Broker.holds_append_self (b : Broker R) (partition : ℕ) (batch : Batch R) :
    (b.append partition (some batch)).Holds partition (b.log partition).length batch :=
  holds_append.mpr (.inr ⟨rfl, rfl, rfl⟩)

variable {producer : ProducerIdentity} {sequence : ℕ}

theorem isBatch_eq_true : isBatch producer sequence entry = true ↔
      ∃ batch, entry = some batch ∧ batch.producer = producer ∧ batch.sequence = sequence := by
  cases entry with
  | none | some => simp [isBatch]

theorem Broker.not_holds_of_findIdx_eq_none
    (hnone : (b.log partition).findIdx? (isBatch producer sequence) = none)
    (h : b.Holds partition offset batch) (hp : batch.producer = producer)
    (hs : batch.sequence = sequence) : False := by
  obtain ⟨hlt, hget⟩ := List.getElem?_eq_some_iff.mp h
  have hfalse := findIdx?_eq_none_iff.mp hnone _ (getElem_mem hlt)
  rw [hget] at hfalse
  simp [isBatch, hp, hs] at hfalse

/-! ### What the exchanges do to the logs -/

theorem Broker.log_add (b : Broker R) (items : List Item) : (b.add items).log = b.log := by
  unfold add
  split <;> rfl

theorem Broker.log_endTxn (producer : ProducerIdentity) (handle : ℕ) (commit : Bool) (b : Broker R) :
    (endTxn producer handle commit b).1.log = b.log :=
  guarded_keeps (fun b' => b'.log = b.log) rfl (by cases b.coordinator <;> rfl)

theorem Session.log_addPartition (producer : ProducerIdentity) (network : Network) (b : Broker R) :
    (Session.addPartition producer network b).1.log = b.log :=
  retry_invariant (fun b' : Broker R => b'.log = b.log)
    (fun s hs => guarded_keeps (fun b' => b'.log = b.log) hs ((s.log_add []).trans hs)) network rfl

/-- None of the requests that finish a transaction appends a record. -/
theorem keeps_log {t : TransactionState} (commits : Bool) (log : ℕ → List (Option (Batch R))) :
    Keeps producer t commits (fun b : Broker R => b.log = log) (fun b => b.log = log) where
  group := fun b hb => guarded_keeps (fun b' => b'.log = log) hb ((b.log_add []).trans hb)
  offset := fun _ _ b hb => guarded_keeps (fun b' => b'.log = log) hb ((b.log_add _).trans hb)
  weaken := fun _ hb => hb
  ended := fun commit b _ hb => (log_endTxn producer t.serial commit b).trans hb
  init := fun _ hb => hb

/-- The logs after a produce call: as before, or with the batch at the end of its partition
when nothing was stored under its sequence. -/
def Broker.Grown (b b' : Broker R) (partition : ℕ) (batch : Batch R) : Prop :=
  b'.log = b.log ∨ (b.log partition).findIdx? (isBatch batch.producer batch.sequence) = none ∧
    b'.log = (b.append partition (some batch)).log

theorem Broker.grown_produce (b : Broker R) (partition : ℕ) (batch : Batch R) (handle : Option ℕ) :
    b.Grown (produce partition batch handle b).1 partition batch := by
  unfold Grown produce
  split
  · split
    · exact .inl rfl
    rename_i hnone
    split
    · refine .inr ⟨hnone, ?_⟩
      cases handle with
      | none => rfl
      | some => exact log_add _ _
    · exact .inl rfl
  · exact .inl rfl

/-- The answer is an offset the sequence is stored at. -/
theorem Broker.produce_answer {handle : Option ℕ}
    (h : (produce partition batch handle b).2 = .ok offset) :
    ∃ stored, (produce partition batch handle b).1.Holds partition offset stored ∧
      stored.producer = batch.producer ∧ stored.sequence = batch.sequence := by
  unfold produce at h ⊢
  split at h
  · rename_i hacce
    rw [if_pos hacce]
    split at h
    · rename_i hfnd
      cases h
      obtain ⟨hlt, hbat, _⟩ := findIdx?_eq_some_iff_getElem.mp hfnd
      obtain ⟨stored, hsto, hkey⟩ := isBatch_eq_true.mp hbat
      refine ⟨stored, ?_, hkey⟩
      exact (getElem?_eq_getElem hlt).trans (congrArg some hsto)
    · split at h
      · rename_i hseq
        cases h
        simp only [if_pos hseq]
        refine ⟨batch, ?_, rfl, rfl⟩
        cases handle with
        | none => exact b.holds_append_self partition batch
        | some =>
          exact (holds_congr (log_add _ _)).mpr (b.holds_append_self partition batch)
      · cases h
  · cases h

/-- A produce call appends its batch at most once, however often it is sent. -/
theorem Session.produce_spec (b : Broker R) (partition : ℕ) (batch : Batch R) (handle : Option ℕ)
    (network : Network) : Answers (b.Grown · partition batch)
      (fun b' offset => ∃ stored, b'.Holds partition offset stored ∧
        stored.producer = batch.producer ∧ stored.sequence = batch.sequence)
      (Session.produce partition batch handle network b) := by
  refine retry_spec _ _ (fun s hs => ?_) (fun s offset _ h => produce_answer h) network (.inl rfl)
  rcases s.grown_produce partition batch handle with hsame | ⟨hnone, hgn⟩
  · unfold Grown
    rw [hsame]
    exact hs
  · rcases hs with hs | ⟨_, hs⟩
    · rw [hs] at hnone
      refine .inr ⟨hnone, hgn.trans ?_⟩
      simp only [append, hs]
    · -- The batch is stored already, so it would have been found.
      have hat := (holds_congr hs).mpr (b.holds_append_self partition batch)
      exact (not_holds_of_findIdx_eq_none hnone hat rfl rfl).elim

/-! ### What a call does to the logs -/

/-- Nothing is known under a sequence, or only this record, and nobody was told about it. -/
def System.Unused (w : System R) (route : ℕ) (producer : ProducerIdentity) (sequence : ℕ) (record : R) :
    Prop :=
  ∀ partition, w.service.profile.route route = some partition → ∀ offset stored,
    w.broker.Holds partition offset stored → stored.producer = producer → stored.sequence = sequence →
    stored.record = record ∧ ∀ a ∈ w.acknowledged, a.partition = partition → a.offset ≠ offset

/-- The condition on a produce call. -/
def System.Unambiguous (w : System R) : Request R → Prop
  | .produce route record _ => w.Unused route .plain (w.service.nonTransactionalSequences route) record
  | .transactionProduce _ _ route record _ _ =>
    w.Unused route w.service.transactionalProducer (w.service.transactionalSequences route) record
  | _ => True

/-- The record of an acknowledged call is stored at its offset, and its call stored nothing
anywhere else. -/
structure System.StoredOnce (w : System R) (a : Acknowledged R) : Prop where
  stored : ∃ batch, w.broker.Holds a.partition a.offset batch ∧ batch.record = a.record
  once : ∀ partition offset batch, w.broker.Holds partition offset batch → batch.call = a.call →
    partition = a.partition ∧ offset = a.offset

/-- The logs and the acknowledgements agree. -/
structure System.Recorded (w : System R) : Prop where
  calls : ∀ partition offset batch, w.broker.Holds partition offset batch → batch.call < w.calls
  answered : ∀ a ∈ w.acknowledged, a.call < w.calls
  stored : ∀ a ∈ w.acknowledged, w.StoredOnce a
  distinct : w.acknowledged.Pairwise fun a a' => a.partition = a'.partition → a.offset ≠ a'.offset

/-- The outcome of a produce call: the logs grew by its batch at most, and an answer is an
offset its sequence is stored at. -/
def Produces (profile : Profile) (b : Broker R) (call route : ℕ) (producer : ProducerIdentity) (sequence : ℕ)
    (record : R) (outcome : (Service × Broker R) × Except KafkaError ℕ) : Prop :=
  outcome.1.2.log = b.log ∧ (∀ offset, outcome.2 ≠ .ok offset) ∨
    ∃ partition, profile.route route = some partition ∧
      Answers (b.Grown · partition ⟨producer, sequence, record, call⟩)
        (fun b' offset => ∃ stored, b'.Holds partition offset stored ∧
          stored.producer = producer ∧ stored.sequence = sequence) (outcome.1.2, outcome.2)

variable (s : Service)

theorem Service.produces_produce (b : Broker R) (call route : ℕ) (record : R) (network : Network) :
    Produces s.profile b call route .plain (s.nonTransactionalSequences route) record
      (s.produce b call route record network) := by
  unfold Service.produce
  split
  · split
    · exact .inl ⟨rfl, nofun⟩
    rename_i partition hrt
    refine .inr ⟨partition, hrt, ?_⟩
    have hspec := Session.produce_spec b partition
      ⟨.plain, s.nonTransactionalSequences route, record, call⟩ none network
    simp only
    split
    · rename_i h
      rw [h] at hspec
      exact hspec
    · rename_i h
      rw [h] at hspec
      split
      · exact hspec
      · exact ⟨hspec.1, nofun⟩
  · exact .inl ⟨rfl, nofun⟩

variable {route : ℕ}

theorem Service.produces_produceAdded {b₀ : Broker R} (hlog : b.log = b₀.log) (id : ℕ)
    (t : TransactionState) (call : ℕ) (hrt : s.profile.route route = some partition)
    (record : R) (network : Network) :
    Produces s.profile b₀ call route s.transactionalProducer (s.transactionalSequences route) record
      (s.produceAdded b id t call route partition record network) := by
  refine .inr ⟨partition, hrt, ?_⟩
  have hspec := Session.produce_spec b partition
    ⟨s.transactionalProducer, s.transactionalSequences route, record, call⟩ (some t.serial) network
  unfold Grown append at hspec ⊢
  rw [hlog] at hspec
  simp only [Service.produceAdded]
  split
  · rename_i h
    rw [h] at hspec
    exact hspec
  · rename_i h
    rw [h] at hspec
    split
    · exact hspec
    · exact ⟨hspec.1, nofun⟩

theorem Service.produces_transactionProduce (b : Broker R) (call owner id route : ℕ)
    (record : R) (adding producing : Network) :
    Produces s.profile b call route s.transactionalProducer (s.transactionalSequences route) record
      (s.transactionProduce b call owner id route record adding producing) := by
  unfold Service.transactionProduce
  split
  · split
    · exact .inl ⟨rfl, nofun⟩
    rename_i t _
    split
    · exact .inl ⟨rfl, nofun⟩
    rename_i hrt
    split
    · exact s.produces_produceAdded rfl id t call hrt record producing
    have hlog := Session.log_addPartition s.transactionalProducer adding b
    split
    · rename_i h
      rw [h] at hlog
      exact .inl ⟨hlog, nofun⟩
    · rename_i h
      rw [h] at hlog
      exact s.produces_produceAdded hlog id _ call hrt record producing
  · exact .inl ⟨rfl, nofun⟩

/-! ### Every run -/

variable {w : System R} {broker : Broker R}

theorem System.Recorded.of_log {w' : System R} (hr : w.Recorded) (hlog : w'.broker.log = w.broker.log)
    (hcs : w.calls ≤ w'.calls) (hack : w'.acknowledged = w.acknowledged) : w'.Recorded where
  calls := fun partition offset batch h => by
    have hlt := hr.calls partition offset batch ((holds_congr hlog).mp h)
    exact lt_of_lt_of_le hlt hcs
  answered := fun a ha => lt_of_lt_of_le (hr.answered a (hack ▸ ha)) hcs
  stored := fun a ha => by
    have hold := hr.stored a (hack ▸ ha)
    obtain ⟨batch, hbat, hrec⟩ := hold.stored
    exact ⟨⟨batch, (holds_congr hlog).mpr hbat, hrec⟩,
      fun partition offset batch h => hold.once partition offset batch ((holds_congr hlog).mp h)⟩
  distinct := hack ▸ hr.distinct

/-- An entry at the end of a log that no acknowledged call has sent. -/
theorem System.Recorded.append (hr : w.Recorded) (partition calls : ℕ) (hcs : w.calls ≤ calls)
    (hent : ∀ batch, entry = some batch → w.calls ≤ batch.call ∧ batch.call < calls) :
    Recorded { w with broker := w.broker.append partition entry, calls } where
  calls := fun partition' offset batch h => by
    rcases holds_append.mp h with h | ⟨_, _, he⟩
    · exact lt_of_lt_of_le (hr.calls partition' offset batch h) hcs
    · exact (hent batch he).2
  answered := fun a ha => lt_of_lt_of_le (hr.answered a ha) hcs
  stored := fun a ha => by
    have hold := hr.stored a ha
    obtain ⟨batch, hbat, hrec⟩ := hold.stored
    refine ⟨⟨batch, holds_append.mpr (.inl hbat), hrec⟩, fun partition' offset batch' h hcall => ?_⟩
    rcases holds_append.mp h with h | ⟨_, _, he⟩
    · exact hold.once partition' offset batch' h hcall
    · have hlt := hr.answered a ha
      have hle := (hent batch' he).1
      omega
  distinct := hr.distinct

theorem System.Recorded.grown (hr : w.Recorded)
    (hcall : batch.call = w.calls) (service : Service)
    (hg : w.broker.Grown broker partition batch) :
    Recorded { w with service, broker, calls := w.calls + 1 } := by
  rcases hg with hlog | ⟨_, hlog⟩
  · exact hr.of_log hlog (Nat.le_succ _) rfl
  · have hent : ∀ other, some batch = some other → w.calls ≤ other.call ∧ other.call < w.calls + 1 := by
      intro other ho
      cases ho
      omega
    exact (hr.append partition (w.calls + 1) (Nat.le_succ _) hent).of_log hlog (Nat.le_refl _) rfl

/-- An answered call joins the acknowledged ones: what it was answered with is its own batch,
or a batch of the same record that nobody was told about. -/
theorem System.Recorded.acknowledge (hr : w.Recorded)
    (hrt : w.service.profile.route route = some partition)
    {record : R} (hu : w.Unused route producer sequence record) {service : Service}
    (hg : w.broker.Grown broker partition ⟨producer, sequence, record, w.calls⟩) {stored : Batch R}
    (hat : broker.Holds partition offset stored) (hp : stored.producer = producer)
    (hs : stored.sequence = sequence) : Recorded { w with
      service, broker, calls := w.calls + 1
      acknowledged := ⟨w.calls, partition, offset, record⟩ :: w.acknowledged } := by
  have hgn := hr.grown rfl service hg
  have hold : w.broker.Holds partition offset stored → stored.record = record ∧
      ∀ a ∈ w.acknowledged, a.partition = partition → a.offset ≠ offset :=
    fun h => hu partition hrt offset stored h hp hs
  -- Either the sequence was stored before and nothing was appended, or it is this batch.
  have hcas : broker.log = w.broker.log ∧ w.broker.Holds partition offset stored ∨
      broker.log = (w.broker.append partition (some ⟨producer, sequence, record, w.calls⟩)).log ∧
        offset = (w.broker.log partition).length ∧ stored = ⟨producer, sequence, record, w.calls⟩ := by
    rcases hg with hlog | ⟨hnone, hlog⟩
    · exact .inl ⟨hlog, (holds_congr hlog).mp hat⟩
    · rcases holds_append.mp ((holds_congr hlog).mp hat) with h | ⟨_, ho, he⟩
      · exact (not_holds_of_findIdx_eq_none hnone h hp hs).elim
      · exact .inr ⟨hlog, ho, (some.inj he).symm⟩
  have hrec : stored.record = record := by
    rcases hcas with ⟨_, h⟩ | ⟨_, _, rfl⟩
    · exact (hold h).1
    · rfl
  have honce : ∀ partition' offset' batch, broker.Holds partition' offset' batch → batch.call = w.calls →
      partition' = partition ∧ offset' = offset := by
    intro partition' offset' batch h hcall
    rcases hcas with ⟨hlog, _⟩ | ⟨hlog, ho, _⟩
    · exact absurd hcall (ne_of_lt (hr.calls _ _ _ ((holds_congr hlog).mp h)))
    · rcases holds_append.mp ((holds_congr hlog).mp h) with h | ⟨hp', ho', _⟩
      · exact absurd hcall (ne_of_lt (hr.calls _ _ _ h))
      · exact ⟨hp', ho'.trans ho.symm⟩
  have hnew : ∀ a ∈ w.acknowledged, partition = a.partition → offset ≠ a.offset := by
    intro a ha hpa hoa
    rcases hcas with ⟨_, h⟩ | ⟨_, ho, _⟩
    · exact (hold h).2 a ha hpa.symm hoa.symm
    · obtain ⟨_, hbat, _⟩ := (hr.stored a ha).stored
      have hlt := (List.getElem?_eq_some_iff.mp hbat).1
      rw [← hoa, ho, hpa] at hlt
      exact lt_irrefl _ hlt
  exact {
    calls := hgn.calls
    answered := forall_mem_cons.mpr ⟨Nat.lt_succ_self _, hgn.answered⟩
    stored := forall_mem_cons.mpr ⟨⟨⟨stored, hat, hrec⟩, honce⟩,
      fun a ha => ⟨(hgn.stored a ha).stored, (hgn.stored a ha).once⟩⟩
    distinct := pairwise_cons.mpr ⟨hnew, hr.distinct⟩ }

theorem System.Recorded.produced (hr : w.Recorded) {record : R}
    (hu : w.Unused route producer sequence record)
    {outcome : (Service × Broker R) × Except KafkaError ℕ}
    (hp : Produces w.service.profile w.broker w.calls route producer sequence record outcome) :
    (w.produced route record outcome).2.Recorded := by
  obtain ⟨⟨service, _⟩, result⟩ := outcome
  rcases hp with ⟨hlog, hnone⟩ | ⟨_, hrt, hspec⟩
  · cases result with
    | error => exact hr.of_log hlog (Nat.le_succ _) rfl
    | ok offset => exact absurd rfl (hnone offset)
  · cases result with
    | error => exact hr.grown rfl service hspec.1
    | ok offset =>
      obtain ⟨_, hat, hprod, hseq⟩ := hspec.2 offset rfl
      simp only [System.produced, hrt, getD_some]
      exact hr.acknowledge hrt hu hspec.1 hat hprod hseq

/-! ### Finishing a transaction leaves the logs alone -/

theorem Service.log_finishTransaction (b : Broker R) (owner id : ℕ) (commit : Bool)
    (network : FinishNetwork) : (s.finishTransaction b owner id commit network).1.2.log = b.log :=
  s.broker_finishTransaction (fun _ h => h) (fun _ _ _ => keeps_log commit b.log) owner id network rfl

theorem Service.log_rejoinGroup (b : Broker R) (ending init : Network)
    (joined : Except KafkaError Bool) (offset : Except KafkaError ℕ) :
    (s.rejoinGroup b ending init joined offset).1.2.log = b.log :=
  s.broker_rejoinGroup (fun _ _ _ => keeps_log false b.log) ending init joined offset rfl

/-! ### The run -/

theorem System.recorded_start (profile : Profile) : (start profile : System R).Recorded where
  calls := fun partition offset batch h => by simp [Broker.Holds, start, Broker.start] at h
  answered := fun a ha => absurd ha not_mem_nil
  stored := fun a ha => absurd ha not_mem_nil
  distinct := List.Pairwise.nil

theorem System.Recorded.step (hr : w.Recorded) (request : Request R)
    (hu : w.Unambiguous request) : (w.next request).Recorded := by
  cases request with
  | foreign partition => exact hr.append partition w.calls (le_refl _) fun _ h => (nomatch h)
  | produce => exact hr.produced hu (w.service.produces_produce ..)
  | transactionProduce => exact hr.produced hu (w.service.produces_transactionProduce ..)
  | finishTransaction => exact hr.of_log (w.service.log_finishTransaction ..) le_rfl rfl
  | rejoinGroup => exact hr.of_log (w.service.log_rejoinGroup ..) le_rfl rfl
  | _ => exact hr.of_log rfl (le_refl _) rfl

/-- In a run whose produce calls are unambiguous, every record that was acknowledged is stored
at the offset of its answer, once, and no two answers name the same place. -/
theorem System.acknowledged_is_stored (profile : Profile) (requests : List (Request R))
    (hrun : Meets System.next System.Unambiguous (System.start profile) requests) :
    (∀ a ∈ ((System.start profile).run requests).acknowledged,
      ((System.start profile).run requests).StoredOnce a) ∧
    ((System.start profile).run requests).acknowledged.Pairwise
      fun a a' => a.partition = a'.partition → a.offset ≠ a'.offset := by
  have hr : ((start profile).run requests).Recorded :=
    hrun.invariant (fun _ request hr hu => hr.step request hu) (recorded_start profile)
  exact ⟨hr.stored, hr.distinct⟩

/-- One route, to partition 0, with every right. -/
def singleRoute : Profile := ⟨fun route => if route = 0 then some 0 else none, true, true, true⟩

/-- The first record is stored, but its reply and the lookup after it are lost; the second
call is answered. -/
def lostReply : List (Request ℕ) :=
  [.produce 0 7 [⟨.replyLost .transport, some .transport⟩], .produce 0 8 [⟨.delivered, none⟩]]

/-- The second call is answered with the offset of the first record, and its own record is
nowhere. -/
theorem System.acknowledged_record_lost : ∃ a ∈ ((System.start singleRoute).run lostReply).acknowledged,
      ¬ ((System.start singleRoute).run lostReply).StoredOnce a := by
  refine ⟨⟨1, 0, 0, 8⟩, mem_cons_self, fun h => ?_⟩
  obtain ⟨_, hbat, hrec⟩ := h.stored
  have hlog : ((start singleRoute).run lostReply).broker.log 0 = [some ⟨.plain, 0, 7, 0⟩] := rfl
  cases hbat
  cases hrec

/-- The first reply is lost, but the batch is sent again within the call. -/
def repeatedReply : List (Request ℕ) :=
  [.produce 0 7 [⟨.replyLost .transport, none⟩, ⟨.delivered, none⟩], .produce 0 8 [⟨.delivered, none⟩]]

theorem System.acknowledged_is_stored_repeated :
    ((System.start singleRoute).run repeatedReply).acknowledged = [⟨1, 0, 1, 8⟩, ⟨0, 0, 0, 7⟩] ∧
    ∀ a ∈ ((System.start singleRoute).run repeatedReply).acknowledged,
      ((System.start singleRoute).run repeatedReply).StoredOnce a := by
  refine ⟨rfl, (acknowledged_is_stored singleRoute repeatedReply ⟨?_, ?_, trivial⟩).1⟩
  · intro partition _ offset stored hat
    cases hat
  · intro partition hrt offset stored hat _ hs
    obtain rfl : 0 = partition := some.inj hrt
    cases offset with
    | zero =>
      cases hat
      cases hs
    | succ => cases hat

end Charlotte.Kafka
