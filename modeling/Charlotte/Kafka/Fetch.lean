import Charlotte.Kafka.Transactions

/-!
# What a poll sees of a fetch

`decode_record_set` leaves out control batches and the batches of aborted transactions, and fails as
a whole if one batch is not readable. A poll moves the consumer past the record that it hands out, and
past nothing else.
-/

namespace Charlotte.Kafka

open Lib List

/-- The errors of the decoder. -/
inductive DecodeError where
  | incomplete
  | invalid
  | tooLarge
  | unsupportedVersion
  | checksum
  deriving DecidableEq

def mapWire : DecodeError → KafkaError
  | .tooLarge => .tooLarge
  | .unsupportedVersion => .unsupported
  | .incomplete | .invalid | .checksum => .protocol

/-- A complete batch of a record set: its header, and what its records give. -/
structure RecordBatch where
  baseOffset : Int
  batchLen : Int := 61
  version : Int := 2
  /-- The checksum is the one of the bytes that follow it. -/
  checked : Bool := true
  attributes : ℕ
  producerId : Int
  count : Int := 1
  /-- Offsets from the base, and lengths as deliveries; or the error that reading the records and the
  end of the batch meets. -/
  records : Except DecodeError (List (Int × ℕ))

/-- The record set of a fetch. -/
structure RecordSet where
  /-- Producers and first offsets of aborted transactions. -/
  aborted : List (Int × Int)
  batches : List RecordBatch
  /-- The number of bytes after the last complete batch, and the length that they declare. -/
  rest : ℕ := 0
  restLen : Int := 0

namespace RecordBatch

variable (batch : RecordBatch)

def isControl : Bool := batch.attributes &&& 0x20 != 0

def isTransactional : Bool := batch.attributes &&& 0x10 != 0

/-- `MAX_RECORDS` is 1024; a batch that is compressed is not supported. -/
def read : Except DecodeError (List (Int × ℕ)) := do
  ensure (49 ≤ batch.batchLen) .invalid
  ensure (batch.version = 2) .unsupportedVersion
  ensure (batch.checked = true) .checksum
  ensure (batch.attributes &&& 0x07 = 0) .unsupportedVersion
  ensure (0 ≤ batch.count ∧ batch.count ≤ 1024) .tooLarge
  batch.records

/-- The offsets of the records; those below 0 are before every consumer. -/
def place (records : List (Int × ℕ)) : List (ℕ × ℕ) := records.filterMap fun (delta, length) =>
  (min (batch.baseOffset + delta) 9223372036854775807).toNat?.map (·, length)

end RecordBatch

/-- The aborted transactions that have not begun, and the producers of those that have. -/
structure Aborts where
  pending : List (Int × Int)
  active : List Int

namespace Aborts

variable (aborts : Aborts) (batch : RecordBatch)

/-- The aborted transactions up to the first offset of a batch have begun. -/
def activate : Aborts where
  pending := aborts.pending.filter (batch.baseOffset < ·.2)
  active := aborts.active ++ (aborts.pending.filter (·.2 ≤ batch.baseOffset)).map Prod.fst

/-- The records of the batch are left out. -/
def hides : Bool :=
  batch.isControl || batch.isTransactional && (aborts.activate batch).active.contains batch.producerId

/-- A control batch ends a transaction of its producer. -/
def next : Aborts :=
  let aborts := aborts.activate batch
  if batch.isControl then { aborts with active := aborts.active.erase batch.producerId } else aborts

end Aborts

/-- The loop of `decode_record_set`. -/
def decodeBatches (aborts : Aborts) : List RecordBatch → Except DecodeError (List (ℕ × ℕ))
  | [] => return []
  | batch :: rest => do
    let records ← batch.read
    let later ← decodeBatches (aborts.next batch) rest
    return (if aborts.hides batch then [] else batch.place records) ++ later

/-- Less than the 12 bytes of a header are ignored at the end. -/
def decodeRecordSet (set : RecordSet) : Except DecodeError (List (ℕ × ℕ)) := do
  let records ← decodeBatches ⟨set.aborted, []⟩ set.batches
  ensure (set.rest < 12 ∨ 49 ≤ set.restLen) .invalid
  ensure (set.rest < 12) .incomplete
  return records

/-! ### Visible records -/

/-- Every batch can be read, and no batch is cut short. -/
structure RecordSet.Readable (set : RecordSet) : Prop where
  batches : ∀ batch ∈ set.batches, ∃ records, batch.read = .ok records
  rest : set.rest < 12

/-- A record of a batch that is neither a control batch nor of an aborted transaction. -/
inductive Visible : Aborts → List RecordBatch → ℕ × ℕ → Prop
  | here {aborts : Aborts} {batch : RecordBatch} {rest : List RecordBatch} {records : List (Int × ℕ)}
      {record : ℕ × ℕ} (hread : batch.read = .ok records) (hseen : aborts.hides batch = false)
      (hrecord : record ∈ batch.place records) : Visible aborts (batch :: rest) record
  | later {aborts : Aborts} {batch : RecordBatch} {rest : List RecordBatch} {record : ℕ × ℕ}
      (hrest : Visible (aborts.next batch) rest record) : Visible aborts (batch :: rest) record

theorem decodeBatches_eq_ok (aborts : Aborts) {batches : List RecordBatch}
    (h : ∀ batch ∈ batches, ∃ records, batch.read = .ok records) :
    ∃ records, decodeBatches aborts batches = .ok records ∧
      ∀ record, record ∈ records ↔ Visible aborts batches record := by
  induction batches generalizing aborts with
  | nil => exact ⟨[], rfl, fun record => ⟨nofun, nofun⟩⟩
  | cons batch rest ih =>
    obtain ⟨records, hread⟩ := h batch mem_cons_self
    obtain ⟨later, hlater, hmem⟩ := @ih (aborts.next batch) fun b hb => h b (mem_cons_of_mem _ hb)
    refine ⟨_, by rw [decodeBatches, hread]; simp only [hlater, bind, Except.bind]; rfl, fun record => ?_⟩
    rw [mem_append, hmem]
    constructor
    · rintro (hhere | hrest)
      · cases hhides : aborts.hides batch with
        | true => simp [hhides] at hhere
        | false => exact .here hread hhides (by simpa [hhides] using hhere)
      · exact .later hrest
    · intro hvisible
      cases hvisible with
      | here hread' hseen hrecord =>
        cases hread.symm.trans hread'
        exact .inl (by simpa [hseen] using hrecord)
      | later hrest => exact .inr hrest

theorem read_of_decodeBatches {aborts : Aborts} {batches : List RecordBatch} {records : List (ℕ × ℕ)}
    (h : decodeBatches aborts batches = .ok records) :
    ∀ batch ∈ batches, ∃ records, batch.read = .ok records := by
  induction batches generalizing aborts records with
  | nil => exact nofun
  | cons batch rest ih =>
    rw [decodeBatches] at h
    obtain ⟨_, hread, h⟩ := bind_eq_ok.mp h
    obtain ⟨_, hlater, -⟩ := bind_eq_ok.mp h
    exact forall_mem_cons.mpr ⟨⟨_, hread⟩, ih hlater⟩

/-- A record set that can be read gives its visible records; of another nothing is given. -/
theorem decodeRecordSet_ok (set : RecordSet) :
    (set.Readable → ∃ records, decodeRecordSet set = .ok records ∧
      ∀ record, record ∈ records ↔ Visible ⟨set.aborted, []⟩ set.batches record) ∧
    ∀ records, decodeRecordSet set = .ok records → set.Readable := by
  constructor
  · intro hreadable
    obtain ⟨records, hdecode, hmem⟩ := decodeBatches_eq_ok ⟨set.aborted, []⟩ hreadable.batches
    refine ⟨records, ?_, hmem⟩
    rw [decodeRecordSet, hdecode]
    simp [bind, Except.bind, ensure, hreadable.rest, pure, Except.pure]
  · intro records h
    simp only [decodeRecordSet, bind_eq_ok, ensure_eq_ok] at h
    obtain ⟨_, hbatches, _, -, _, hrest, -⟩ := h
    exact ⟨read_of_decodeBatches hbatches, hrest⟩

/-! ### Polls -/

namespace Service

variable {s s' : Service} {owner consumerId deliveryId : ℕ} {c : ConsumerState}

theorem consumer_eq_ok (h : s.consumer owner consumerId = .ok c) :
    s.consumers.lookup consumerId = some c := by
  rw [Service.consumer, okOr_eq_ok] at h
  exact (Option.filter_eq_some_iff.mp h).1

theorem lookup_modifyKey {α : Type} (key : ℕ) (f : α → α) (entries : List (ℕ × α)) :
    (modifyKey key f entries).lookup key = (entries.lookup key).map f := by
  induction entries with
  | nil => rfl
  | cons entry rest ih =>
    by_cases h : entry.1 = key <;> grind [modifyKey, lookup]

/-- The consumer may take a record, and an identifier is left for it. -/
structure MayPoll (s : Service) (owner consumerId : ℕ) (c : ConsumerState) (deliveryId : ℕ) : Prop where
  consumer : s.consumer owner consumerId = .ok c
  assigned : s.groupMembership = some true
  outstanding : c.outstanding = none
  reserved : c.reservedTransaction = none
  room : s.deliveries.length < maxDeliveries
  id : ∃ s', s.id = .ok (deliveryId, s')

/-- The record is handed out and the consumer is moved past it. -/
structure Delivers (consumerId : ℕ) (c : ConsumerState) (deliveryId offset : ℕ)
    (result : Service × Except KafkaError (Option (ℕ × ℕ))) : Prop where
  answer : result.2 = .ok (some (deliveryId, offset))
  ahead : c.fetchOffset ≤ offset
  consumer : result.1.consumers.lookup consumerId =
    some { c with fetchOffset := offset + 1, outstanding := some deliveryId }

theorem MayPoll.pollRecord (h : s.MayPoll owner consumerId c deliveryId)
    (fetched : Except KafkaError (List (ℕ × ℕ))) :
    s.pollRecord owner consumerId fetched = fetched.bind fun records =>
      (records.find? (c.fetchOffset ≤ ·.1)).elim (.ok none) fun record => do
        ensure (record.2 ≤ maxRecordBytes) .tooLarge
        return some record.1 := by
  rw [Service.pollRecord, h.consumer]
  show (if _ then _ else _) = _
  rw [if_pos h.assigned, ensure, if_pos ⟨h.outstanding, h.reserved⟩, ensure, if_pos h.room]
  cases fetched with
  | error => rfl
  | ok records =>
    simp only [bind, Except.bind]
    cases records.find? (c.fetchOffset ≤ ·.1) <;> rfl

/-- A consumer at offset 5. -/
def consumerAtFive : Service := ((Service.start anyRight).openConsumer 0 (.ok true) (.ok 5)).1

/-- A control batch of producer 7 at offset 5. -/
def controlBatch : RecordBatch :=
  { baseOffset := 5, attributes := 0x30, producerId := 7, records := .ok [(0, 10)] }

/-- The control batch, a batch of an aborted transaction and a plain one, and three bytes more. -/
def mixedSet : RecordSet where
  aborted := [(8, 6)]
  batches := [controlBatch,
    { baseOffset := 6, attributes := 0x10, producerId := 8, records := .ok [(0, 10)] },
    { baseOffset := 7, attributes := 0, producerId := 7, records := .ok [(0, 10)] }]
  rest := 3

end Service

end Charlotte.Kafka
