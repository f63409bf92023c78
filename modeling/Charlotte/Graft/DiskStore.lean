import Charlotte.Graft.LogStore
import Charlotte.Lib.ByteCodec
import Charlotte.Lib.Checks
import Charlotte.Lib.Utf8

/-!
# Raft persistence on disk

`disk_raft.rs`: one object for term, vote and admission and one for snapshot and log, each written as a
whole by every change. A record that cannot be encoded and a write or flush that is rejected stop the
thread. Allocations are taken to succeed.

The stores on disk are compared with those in memory, which see the same operations.
-/

namespace Charlotte.Graft

open Lib List Option Utf8

/-! ### Stores in memory -/

/-- The operations of `LogStore` and `PersistentStateStore` that change something. -/
inductive StoreOperation
  | reset
  | append (entries : List LogEntry)
  | truncateFrom (index : ℕ)
  | installSnapshot (index term : ℕ) (data : Bytes)
  | setCurrentTerm (term : ℕ)
  | setVotedFor (peerId : Option Text)
  | setJoinAdmission (admission : Option JoinAdmission)
  deriving DecidableEq, Repr

/-- What the queries of both traits return. -/
structure StoreAnswers where
  snapshotIndex : ℕ
  snapshotTerm : ℕ
  lastIndex : ℕ
  lastTerm : ℕ
  termAt : ℕ → ℕ
  entryAt : ℕ → Option LogEntry
  entriesFrom : ℕ → List LogEntry
  snapshotData : Bytes
  currentTerm : ℕ
  votedFor : Option Text
  joinAdmission : Option JoinAdmission

/-- `InMemoryLogStore` and `InMemoryPersistentStateStore`. -/
structure MemoryStores where
  log : LogStore
  state : PersistentState
  deriving DecidableEq, Repr

namespace MemoryStores

def new : MemoryStores := ⟨.new, .new⟩

variable (m : MemoryStores)

def apply : StoreOperation → MemoryStores
  | .reset => { m with log := .new }
  | .append entries => { m with log := m.log.append entries }
  | .truncateFrom index => { m with log := m.log.truncateFrom index }
  | .installSnapshot index term data => { m with log := m.log.installSnapshot index term data }
  | .setCurrentTerm term => { m with state := { m.state with currentTerm := term } }
  | .setVotedFor peerId => { m with state := { m.state with votedFor := peerId } }
  | .setJoinAdmission admission => { m with state := { m.state with joinAdmission := admission } }

def run (operations : List StoreOperation) : MemoryStores := operations.foldl apply m

def answers : StoreAnswers where
  snapshotIndex := m.log.snapshotIndex
  snapshotTerm := m.log.snapshotTerm
  lastIndex := m.log.lastIndex
  lastTerm := m.log.lastTerm
  termAt := m.log.termAt
  entryAt := m.log.entryAt
  entriesFrom := m.log.entriesFrom
  snapshotData := m.log.snapshotData
  currentTerm := m.state.currentTerm
  votedFor := m.state.votedFor
  joinAdmission := m.state.joinAdmission

end MemoryStores

open MemoryStores

namespace Disk

/-! ### Records -/

inductive RecordKind
  | state
  | log
  deriving DecidableEq, Repr

inductive StoreError
  | incompletePair
  | unsupportedFormat (kind : RecordKind)
  | malformedRecord (kind : RecordKind)
  deriving DecidableEq, Repr

def stateMagic : Bytes := ascii "CRFTSTA4"
def logStateMagic : Bytes := ascii "CRFTLOG4"

structure PersistentState where
  term : ℕ := 0
  votedFor : Option Text := none
  admission : Option JoinAdmission := none
  deriving DecidableEq, Repr

structure LogState where
  snapshotIndex : ℕ := 0
  snapshotTerm : ℕ := 0
  snapshot : Bytes := []
  entries : List LogEntry := []
  deriving DecidableEq, Repr

def serializePersistentState (state : PersistentState) : Option Bytes :=
  let vote := state.votedFor.getD []
  let anchor := (state.admission.map (·.anchorId)).getD []
  if 256 < vote.length ∨ 256 < anchor.length ∨ (state.votedFor.isSome = true ∧ vote = []) ∨
      (state.admission.isSome = true ∧ anchor = []) then none
  else some (stateMagic ++ (record [(8, state.term), (4, vote.length), (4, anchor.length),
    (8, (state.admission.map (·.snapshotIndex)).getD 0)] ++ (vote ++ anchor)))

variable (bytes : Bytes)

/-- `owned_id`. -/
def ownedId : Option Text := if valid bytes then some bytes else none

def decodePersistentState : Option PersistentState := do
  let (actual, rest) ← takeBytes 8 bytes
  reject (actual != stateMagic)
  let (term, rest) ← takeLe 8 rest
  let (voteLen, rest) ← takeLe 4 rest
  let (anchorLen, rest) ← takeLe 4 rest
  let (snapshotIndex, rest) ← takeLe 8 rest
  reject (256 < voteLen || 256 < anchorLen || anchorLen == 0 && snapshotIndex != 0)
  reject (voteLen + anchorLen != rest.length)
  let (vote, anchor) ← takeBytes voteLen rest
  let vote ← ownedId vote
  let anchor ← ownedId anchor
  some {
    term
    votedFor := if voteLen = 0 then none else some vote
    admission := if anchorLen = 0 then none else some ⟨anchor, snapshotIndex⟩ }

def entryBytes (entry : LogEntry) : Bytes :=
  record [(8, entry.term), (4, entry.peerId.length), (4, entry.data.length)] ++
    (entry.peerId ++ entry.data)

/-- The checks of an entry before it is written. -/
def encodable (entry : LogEntry) : Bool :=
  decide (entry.peerId.length ≤ 255) &&
    !(entry.term == 0 && entry.peerId.isEmpty && entry.data.isEmpty) &&
    decide (entry.data.length < 2 ^ 32)

def serializeLogState (state : LogState) : Option Bytes :=
  let entries := state.entries.flatMap entryBytes
  if 2 ^ 64 ≤ state.snapshotIndex + state.entries.length ∨ state.entries.all encodable = false ∨
      2 ^ 64 ≤ 40 + state.snapshot.length + entries.length then none
  else some (logStateMagic ++ (record [(8, state.snapshotIndex), (8, state.snapshotTerm),
    (8, state.snapshot.length), (8, entries.length)] ++ (state.snapshot ++ entries)))

/-- One round of the loop of `decode_log_state`. -/
def takeEntry : Option (LogEntry × Bytes) := do
  let (term, rest) ← takeLe 8 bytes
  let (peerLen, rest) ← takeLe 4 rest
  let (dataLen, rest) ← takeLe 4 rest
  reject (255 < peerLen || term == 0 && peerLen == 0 && dataLen == 0)
  let (peerId, rest) ← takeBytes peerLen rest
  let peerId ← ownedId peerId
  let (data, rest) ← takeBytes dataLen rest
  some (⟨term, peerId, data⟩, rest)

/-- Every round takes sixteen bytes or more, so that the number of bytes bounds the rounds. -/
def takeEntries : ℕ → Bytes → Option (List LogEntry)
  | _, [] => some []
  | 0, _ :: _ => none
  | fuel + 1, bytes => do
      let (entry, rest) ← takeEntry bytes
      let entries ← takeEntries fuel rest
      some (entry :: entries)

def decodeLogState : Option LogState := do
  let (actual, rest) ← takeBytes 8 bytes
  reject (actual != logStateMagic)
  let (snapshotIndex, rest) ← takeLe 8 rest
  let (snapshotTerm, rest) ← takeLe 8 rest
  let (snapshotLen, rest) ← takeLe 8 rest
  let (entriesLen, rest) ← takeLe 8 rest
  reject (snapshotLen + entriesLen != rest.length)
  let (snapshot, rest) ← takeBytes snapshotLen rest
  let entries ← takeEntries rest.length rest
  reject (2 ^ 64 ≤ snapshotIndex + entries.length)
  some { snapshotIndex, snapshotTerm, snapshot, entries }

/-! ### The log store -/

namespace LogState

variable (s : LogState)

def lastIndex : ℕ := s.snapshotIndex + s.entries.length

def lastTerm : ℕ := (s.entries.getLast?.map (·.term)).getD s.snapshotTerm

def termAt (index : ℕ) : ℕ :=
  if index = 0 then 0
  else if index = s.snapshotIndex then s.snapshotTerm
  else if s.snapshotIndex < index then
    (s.entries[index - s.snapshotIndex - 1]?.map (·.term)).getD 0
  else 0

def entryAt (index : ℕ) : Option LogEntry :=
  if index ≤ s.snapshotIndex then none else s.entries[index - s.snapshotIndex - 1]?

def entriesFrom (index : ℕ) : List LogEntry :=
  if s.snapshotIndex + s.entries.length < index then []
  else s.entries.drop (if index ≤ s.snapshotIndex then 0 else index - s.snapshotIndex - 1)

def installSnapshot (index term : ℕ) (data : Bytes) : LogState :=
  let retainFrom : Option ℕ :=
    if index = s.snapshotIndex ∧ term = s.snapshotTerm then some 0
    else if s.snapshotIndex < index then
      let offset := index - s.snapshotIndex - 1
      if s.entries[offset]?.any (fun entry => entry.term == term) then some (offset + 1) else none
    else none
  { snapshotIndex := index
    snapshotTerm := term
    snapshot := data
    entries := retainFrom.elim [] s.entries.drop }

end LogState

open LogState

/-! ### Stores on disk -/

/-- The two objects of a namespace. -/
structure Objects where
  state : Option Bytes := none
  log : Option Bytes := none
  deriving DecidableEq, Repr

/-- What the object store answers to a write and the flush after it. -/
inductive Response
  | accepted
  | writeRejected
  | flushRejected
  deriving DecidableEq, Repr

/-- `DiskLogStore` and `DiskPersistentStateStore` over one pair of objects. -/
structure Stores where
  log : LogState
  state : PersistentState
  objects : Objects
  deriving DecidableEq, Repr

namespace Stores

/-- `persist_record`; the thread stops where there is no result. -/
def persistState (s : Stores) (response : Response) : Option Stores := do
  let bytes ← serializePersistentState s.state
  if response = .accepted then some { s with objects := { s.objects with state := some bytes } } else none

def persistLogState (s : Stores) (response : Response) : Option Stores := do
  let bytes ← serializeLogState s.log
  if response = .accepted then some { s with objects := { s.objects with log := some bytes } } else none

def apply (s : Stores) (response : Response) : StoreOperation → Option Stores
  | .reset => { s with log := {} }.persistLogState response
  | .append entries =>
    { s with log := { s.log with entries := s.log.entries ++ entries } }.persistLogState response
  | .truncateFrom index =>
    if index ≤ s.log.snapshotIndex then some s
    else { s with log := { s.log with
      entries := s.log.entries.take (index - s.log.snapshotIndex - 1) } }.persistLogState response
  | .installSnapshot index term data =>
    { s with log := s.log.installSnapshot index term data }.persistLogState response
  | .setCurrentTerm term => { s with state := { s.state with term } }.persistState response
  | .setVotedFor peerId => { s with state := { s.state with votedFor := peerId } }.persistState response
  | .setJoinAdmission admission => { s with state := { s.state with admission } }.persistState response

/-- The run in which every write and every flush is accepted. -/
def run (s : Stores) (operations : List StoreOperation) : Option Stores :=
  operations.foldlM (fun s operation => s.apply .accepted operation) s

def answers (s : Stores) : StoreAnswers where
  snapshotIndex := s.log.snapshotIndex
  snapshotTerm := s.log.snapshotTerm
  lastIndex := s.log.lastIndex
  lastTerm := s.log.lastTerm
  termAt := s.log.termAt
  entryAt := s.log.entryAt
  entriesFrom := s.log.entriesFrom
  snapshotData := s.log.snapshot
  currentTerm := s.state.term
  votedFor := s.state.votedFor
  joinAdmission := s.state.admission

end Stores

def checkMagic (bytes magic : Bytes) (kind : RecordKind) : Except StoreError Unit := do
  let (actual, _) ← okOr (takeBytes 8 bytes) (.malformedRecord kind)
  ensure (actual = magic) (.unsupportedFormat kind)

/-- `open_from`, where the object store accepts what it is asked. -/
def openFrom (objects : Objects) : Except StoreError Stores :=
  match objects.state, objects.log with
  | none, none => do
      let stateBytes ← okOr (serializePersistentState {}) (.malformedRecord .state)
      let logBytes ← okOr (serializeLogState {}) (.malformedRecord .log)
      return ⟨{}, {}, ⟨some stateBytes, some logBytes⟩⟩
  | some stateBytes, some logBytes => do
      checkMagic stateBytes stateMagic .state
      checkMagic logBytes logStateMagic .log
      let state ← okOr (decodePersistentState stateBytes) (.malformedRecord .state)
      let log ← okOr (decodeLogState logBytes) (.malformedRecord .log)
      return ⟨log, state, objects⟩
  | _, _ => .error .incompletePair

/-! ### Records are read back -/

/-- The fields fit the types of the source. -/
structure PersistentState.InRange (state : PersistentState) : Prop where
  term : state.term < 256 ^ 8
  votedFor : ∀ vote, state.votedFor = some vote → valid vote = true
  admission : ∀ admission, state.admission = some admission →
    valid admission.anchorId = true ∧ admission.snapshotIndex < 256 ^ 8

structure LogState.InRange (state : LogState) : Prop where
  snapshotIndex : state.snapshotIndex < 256 ^ 8
  snapshotTerm : state.snapshotTerm < 256 ^ 8
  entries : ∀ entry ∈ state.entries, entry.term < 256 ^ 8 ∧ valid entry.peerId = true

variable {bytes magic : Bytes} {state : PersistentState} {entry : LogEntry}

theorem ownedId_eq (h : valid bytes = true) : ownedId bytes = some bytes := by
  rw [ownedId, if_pos h]

theorem takeBytes_magic (hmag : magic.length = 8) (rest : Bytes) :
    takeBytes 8 (magic ++ rest) = some (magic, rest) := by
  rw [← hmag]
  exact takeBytes_append magic rest

theorem length_stateMagic : stateMagic.length = 8 := by decide

theorem length_logStateMagic : logStateMagic.length = 8 := by decide

theorem checkMagic_append (hmag : magic.length = 8) (rest : Bytes) (kind : RecordKind) :
    checkMagic (magic ++ rest) magic kind = .ok () := by
  rw [checkMagic, takeBytes_magic hmag]
  exact ensure_eq_ok.mpr rfl

theorem serializePersistentState_eq_some : serializePersistentState state = some bytes ↔
      (∀ vote, state.votedFor = some vote → vote ≠ [] ∧ vote.length ≤ 256) ∧
      (∀ admission, state.admission = some admission → admission.anchorId ≠ [] ∧
        admission.anchorId.length ≤ 256) ∧
      bytes = stateMagic ++ (record [(8, state.term), (4, (state.votedFor.getD []).length),
        (4, ((state.admission.map (·.anchorId)).getD []).length),
        (8, (state.admission.map (·.snapshotIndex)).getD 0)] ++
          (state.votedFor.getD [] ++ (state.admission.map (·.anchorId)).getD [])) := by
  obtain ⟨_, vote, admission⟩ := state
  simp only [serializePersistentState]
  split
  · rename_i hrfs
    refine ⟨nofun, fun h => ?_⟩
    obtain ⟨hvote, hadm, -⟩ := h
    cases vote with
    | none =>
      cases admission with
      | none => simp at hrfs
      | some admission =>
        have hanchor := hadm admission rfl
        simp [hanchor.1] at hrfs
        omega
    | some vote =>
      have hname := hvote vote rfl
      cases admission with
      | none =>
        simp [hname.1] at hrfs
        omega
      | some admission =>
        have hanchor := hadm admission rfl
        simp [hname.1, hanchor.1] at hrfs
        omega
  · rename_i hacce
    rw [some.injEq]
    simp only [not_or, not_lt, not_and] at hacce
    obtain ⟨hvote, hanchor, hvoteNe, hanchorNe⟩ := hacce
    constructor
    · rintro rfl
      refine ⟨?_, ?_, rfl⟩
      · rintro _ rfl
        exact ⟨hvoteNe rfl, hvote⟩
      · rintro _ rfl
        exact ⟨hanchorNe rfl, hanchor⟩
    · rintro ⟨-, -, rfl⟩
      rfl

theorem length_getD_le {α : Type} {value : Option α} {f : α → Bytes} {bound : ℕ}
    (h : ∀ a, value = some a → (f a).length ≤ bound) : ((value.map f).getD []).length ≤ bound := by
  cases value with
  | none => exact Nat.zero_le bound
  | some a => exact h a rfl

theorem decode_serializePersistentState (hrng : state.InRange)
    (h : serializePersistentState state = some bytes) : decodePersistentState bytes = some state := by
  obtain ⟨hvote, hadm, rfl⟩ := serializePersistentState_eq_some.mp h
  obtain ⟨_, votedFor, admission⟩ := state
  have hvoteLen : (votedFor.getD []).length ≤ 256 := by
    cases votedFor with
    | none => exact Nat.zero_le _
    | some vote => exact (hvote vote rfl).2
  have hanchorLen : ((admission.map (·.anchorId)).getD []).length ≤ 256 :=
    length_getD_le fun a ha => (hadm a ha).2
  have hvoteValid : valid (votedFor.getD []) = true := by
    cases votedFor with
    | none => rfl
    | some vote => exact hrng.votedFor vote rfl
  have hanchorValid : valid ((admission.map (·.anchorId)).getD []) = true := by
    cases admission with
    | none => rfl
    | some admission => exact (hrng.admission admission rfl).1
  have hidx : (admission.map (·.snapshotIndex)).getD 0 < 256 ^ 8 := by
    cases admission with
    | none => decide
    | some admission => exact (hrng.admission admission rfl).2
  have hvoteLt : (votedFor.getD []).length < 256 ^ 4 := by omega
  have hanchorLt : ((admission.map (·.anchorId)).getD []).length < 256 ^ 4 := by omega
  have hfl : (decide (256 < (votedFor.getD []).length) ||
      decide (256 < ((admission.map (·.anchorId)).getD []).length) ||
      ((admission.map (·.anchorId)).getD []).length == 0 &&
        (admission.map (·.snapshotIndex)).getD 0 != 0) = false := by
    cases admission with
    | none => simpa using hvoteLen
    | some admission =>
      have hne := (hadm admission rfl).1
      simp only [map_some, getD_some] at hanchorLen
      simp [hne]
      omega
  have hvoted : (if (votedFor.getD []).length = 0 then none else some (votedFor.getD [])) = votedFor := by
    cases votedFor with
    | none => rfl
    | some vote => simp [(hvote vote rfl).1]
  have hadmi : (if ((admission.map (·.anchorId)).getD []).length = 0 then none
      else some (⟨(admission.map (·.anchorId)).getD [], (admission.map (·.snapshotIndex)).getD 0⟩ :
        JoinAdmission)) = admission := by
    cases admission with
    | none => rfl
    | some admission => simp [(hadm admission rfl).1]
  simp only [decodePersistentState, takeBytes_magic length_stateMagic, record, flatMap_cons,
    flatMap_nil, append_nil, append_assoc, bind_eq_bind, bind_some,
    takeLe_append hrng.term, takeLe_append hvoteLt, takeLe_append hanchorLt, takeLe_append hidx, hfl,
    takeBytes_append, ownedId_eq hvoteValid, ownedId_eq hanchorValid, reject, bne_self_eq_false,
    length_append, Bool.false_eq_true, if_false, hvoted, hadmi]

theorem takeEntry_append (henc : encodable entry = true)
    (hrng : entry.term < 256 ^ 8 ∧ valid entry.peerId = true) (rest : Bytes) :
    takeEntry (entryBytes entry ++ rest) = some (entry, rest) := by
  simp only [encodable, Bool.and_eq_true, decide_eq_true_eq] at henc
  obtain ⟨⟨_, hnonz⟩, _⟩ := henc
  have hpeerLt : entry.peerId.length < 256 ^ 4 := by omega
  have hdataLt : entry.data.length < 256 ^ 4 := by omega
  have hfl : (decide (255 < entry.peerId.length) ||
      entry.term == 0 && entry.peerId.length == 0 && entry.data.length == 0) = false := by
    have hsame : ∀ bytes : Bytes, (bytes.length == 0) = bytes.isEmpty := by
      intro bytes
      cases bytes <;> rfl
    rw [hsame, hsame, Bool.or_eq_false_iff, decide_eq_false_iff_not]
    rw [Bool.not_eq_true'] at hnonz
    exact ⟨by omega, hnonz⟩
  simp only [takeEntry, entryBytes, record, flatMap_cons, flatMap_nil, append_nil,
    append_assoc, bind_eq_bind, takeLe_append hrng.1, takeLe_append hpeerLt,
    takeLe_append hdataLt, bind_some, hfl, reject, Bool.false_eq_true, if_false, takeBytes_append,
    ownedId_eq hrng.2]

theorem length_entryBytes (entry : LogEntry) :
    (entryBytes entry).length = 16 + entry.peerId.length + entry.data.length := by
  simp only [entryBytes, length_append, length_record, map_cons, map_nil, sum_cons, sum_nil]
  omega

theorem takeEntries_flatMap {entries : List LogEntry} (henc : ∀ entry ∈ entries, encodable entry = true)
    (hrng : ∀ entry ∈ entries, entry.term < 256 ^ 8 ∧ valid entry.peerId = true) {fuel : ℕ}
    (hfuel : (entries.flatMap entryBytes).length ≤ fuel) :
    takeEntries fuel (entries.flatMap entryBytes) = some entries := by
  induction entries generalizing fuel with
  | nil => simp [takeEntries]
  | cons entry entries ih =>
    rw [flatMap_cons] at hfuel ⊢
    have hlen := length_entryBytes entry
    rw [length_append] at hfuel
    obtain ⟨fuel, rfl⟩ : ∃ n, fuel = n + 1 := ⟨fuel - 1, by omega⟩
    obtain ⟨hent, hents⟩ := forall_mem_cons.mp henc
    obtain ⟨hfst, hoths⟩ := forall_mem_cons.mp hrng
    have hread := takeEntry_append hent hfst (entries.flatMap entryBytes)
    cases hbs : entryBytes entry ++ entries.flatMap entryBytes with
    | nil =>
      have hnil := congrArg length hbs
      rw [length_append, length_nil] at hnil
      omega
    | cons =>
      rw [hbs] at hread
      rw [takeEntries, hread]
      simp only [bind_eq_bind, bind_some]
      rw [ih hents hoths (by omega)]
      rfl
      exact nofun

variable {state : LogState}

theorem serializeLogState_eq_some : serializeLogState state = some bytes ↔
      state.snapshotIndex + state.entries.length < 2 ^ 64 ∧ (∀ entry ∈ state.entries, encodable entry = true) ∧
      40 + state.snapshot.length + (state.entries.flatMap entryBytes).length < 2 ^ 64 ∧
      bytes = logStateMagic ++ (record [(8, state.snapshotIndex), (8, state.snapshotTerm),
        (8, state.snapshot.length), (8, (state.entries.flatMap entryBytes).length)] ++
          (state.snapshot ++ state.entries.flatMap entryBytes)) := by
  simp only [serializeLogState]
  split
  · rename_i hrfs
    refine ⟨nofun, fun ⟨hidx, hents, hlen, _⟩ => ?_⟩
    rcases hrfs with h | h | h
    · exact absurd hidx (not_lt.mpr h)
    · exact absurd (all_eq_true.mpr hents) (by simp [h])
    · exact absurd hlen (not_lt.mpr h)
  · rename_i hacce
    simp only [not_or, not_le, Bool.not_eq_false] at hacce
    obtain ⟨hidx, hents, hlen⟩ := hacce
    rw [some.injEq]
    exact ⟨fun h => ⟨hidx, all_eq_true.mp hents, hlen, h.symm⟩, fun h => h.2.2.2.symm⟩

theorem decode_serializeLogState (hrng : state.InRange)
    (h : serializeLogState state = some bytes) : decodeLogState bytes = some state := by
  obtain ⟨hidx, hents, _, rfl⟩ := serializeLogState_eq_some.mp h
  have hsnapshotLt : state.snapshot.length < 256 ^ 8 := by omega
  have hentriesLt : (state.entries.flatMap entryBytes).length < 256 ^ 8 := by omega
  have hread := takeEntries_flatMap hents hrng.entries le_rfl
  have hfits : decide (2 ^ 64 ≤ state.snapshotIndex + state.entries.length) = false :=
    decide_eq_false (not_le.mpr hidx)
  simp only [decodeLogState, takeBytes_magic length_logStateMagic, record, flatMap_cons,
    flatMap_nil, append_nil, append_assoc, bind_eq_bind, bind_some,
    takeLe_append hrng.snapshotIndex, takeLe_append hrng.snapshotTerm, takeLe_append hsnapshotLt,
    takeLe_append hentriesLt, takeBytes_append, reject, bne_self_eq_false, length_append,
    Bool.false_eq_true, if_false, hread, hfits]

/-! ### Refinement -/

/-- The contents of a store in memory, as they are kept on disk. -/
def LogState.of (log : LogStore) : LogState where
  snapshotIndex := log.snapshotIndex
  snapshotTerm := log.snapshotTerm
  snapshot := log.snapshotData
  entries := log.entries

def PersistentState.of (state : Charlotte.Graft.PersistentState) : PersistentState where
  term := state.currentTerm
  votedFor := state.votedFor
  admission := state.joinAdmission

theorem LogState.of_truncateFrom {log : LogStore} {index : ℕ} (h : ¬index ≤ log.snapshotIndex) :
    of (log.truncateFrom index) = { of log with
      entries := log.entries.take (index - log.snapshotIndex - 1) } := by
  rw [LogStore.truncateFrom, if_neg h]
  rfl

theorem LogState.of_installSnapshot (log : LogStore) (index term : ℕ) (data : Bytes) :
    of (log.installSnapshot index term data) = (of log).installSnapshot index term data := by
  simp only [LogStore.installSnapshot, LogStore.retainFrom, installSnapshot]
  refine congrArg (mk index term data) ?_
  by_cases hsame : index = log.snapshotIndex ∧ term = log.snapshotTerm
  · have hsame' : index = (of log).snapshotIndex ∧ term = (of log).snapshotTerm := hsame
    rw [if_pos hsame, if_pos hsame']
    rfl
  · have hsame' : ¬(index = (of log).snapshotIndex ∧ term = (of log).snapshotTerm) := hsame
    rw [if_neg hsame, if_neg hsame']
    by_cases hlat : log.snapshotIndex < index
    · have hlat' : (of log).snapshotIndex < index := hlat
      rw [if_pos hlat, if_pos hlat']
      have hoff : index - log.snapshotIndex = index - (of log).snapshotIndex - 1 + 1 := by
        have hbase : (of log).snapshotIndex = log.snapshotIndex := rfl
        omega
      change _ = Option.elim (if (log.entries[index - log.snapshotIndex - 1]?.any
        fun entry => entry.term == term) = true then _ else none) _ _
      rw [← hoff]
      cases hent : log.entries[index - log.snapshotIndex - 1]? with
      | none => rfl
      | some entry =>
        simp only [any_some, beq_iff_eq]
        by_cases hterm : entry.term = term
        · rw [if_pos hterm]
          rfl
        · rw [if_neg hterm]
          rfl
    · have hlat' : ¬(of log).snapshotIndex < index := hlat
      rw [if_neg hlat, if_neg hlat']
      rfl

theorem answers_of (m : MemoryStores) (objects : Objects) :
    Stores.answers ⟨of m.log, PersistentState.of m.state, objects⟩ = m.answers := by
  have hlastTerm : (of m.log).lastTerm = m.log.lastTerm := by
    simp only [lastTerm, LogStore.lastTerm, of]
    cases m.log.entries.getLast? <;> rfl
  have htermAt : (of m.log).termAt = m.log.termAt := by
    funext index
    simp only [termAt, LogStore.termAt, of]
    cases m.log.entries[index - m.log.snapshotIndex - 1]? <;> rfl
  have hentriesFrom : (of m.log).entriesFrom = m.log.entriesFrom := by
    funext index
    rw [entriesFrom, LogStore.entriesFrom, LogStore.lastIndex_eq]
    by_cases hlast : m.log.snapshotIndex + m.log.entries.length < index
    · rw [if_pos hlast]
      exact if_pos hlast
    · rw [if_neg hlast]
      refine (if_neg hlast).trans ?_
      by_cases hbase : index ≤ m.log.snapshotIndex
      · rw [if_pos hbase]
        exact congrArg (m.log.entries.drop ·) (if_pos hbase)
      · rw [if_neg hbase]
        exact congrArg (m.log.entries.drop ·) (if_neg hbase)
  have hlastIndex : (of m.log).lastIndex = m.log.lastIndex := m.log.lastIndex_eq.symm
  simp only [Stores.answers, answers, hlastTerm, htermAt, hentriesFrom, hlastIndex]
  rfl

/-- The arguments of an operation fit the types of the source. -/
def InRange : StoreOperation → Prop
  | .reset => True
  | .append entries => ∀ entry ∈ entries, entry.term < 256 ^ 8 ∧ valid entry.peerId = true
  | .truncateFrom index => index < 256 ^ 8
  | .installSnapshot index term _ => index < 256 ^ 8 ∧ term < 256 ^ 8
  | .setCurrentTerm term => term < 256 ^ 8
  | .setVotedFor peerId => ∀ vote, peerId = some vote → valid vote = true
  | .setJoinAdmission admission => ∀ a, admission = some a →
      valid a.anchorId = true ∧ a.snapshotIndex < 256 ^ 8

/-- The contents of the stores in memory that the records on disk can hold. -/
structure Encodable (m : MemoryStores) : Prop where
  vote : ∀ vote, m.state.votedFor = some vote → vote ≠ [] ∧ vote.length ≤ 256
  anchor : ∀ admission, m.state.joinAdmission = some admission → admission.anchorId ≠ [] ∧
    admission.anchorId.length ≤ 256
  index : m.log.snapshotIndex + m.log.entries.length < 2 ^ 64
  entries : ∀ entry ∈ m.log.entries, encodable entry = true
  length : 40 + m.log.snapshotData.length + (m.log.entries.flatMap entryBytes).length < 2 ^ 64

/-- The stores on disk hold what those in memory hold, and the objects its encoding. -/
structure Simulates (m : MemoryStores) (s : Stores) : Prop where
  log : s.log = of m.log
  state : s.state = PersistentState.of m.state
  logRange : s.log.InRange
  stateRange : s.state.InRange
  logObject : ∃ bytes, s.objects.log = some bytes ∧ serializeLogState s.log = some bytes
  stateObject : ∃ bytes, s.objects.state = some bytes ∧ serializePersistentState s.state = some bytes

variable {m : MemoryStores} {s : Stores} (h : Simulates m s)
include h

theorem Simulates.encodable : Encodable m := by
  obtain ⟨_, -, hlog⟩ := h.logObject
  obtain ⟨_, -, hst⟩ := h.stateObject
  rw [h.log] at hlog
  rw [h.state] at hst
  obtain ⟨hidx, hents, hlen, -⟩ := serializeLogState_eq_some.mp hlog
  obtain ⟨hvote, hanchor, -⟩ := serializePersistentState_eq_some.mp hst
  exact ⟨hvote, hanchor, hidx, hents, hlen⟩

theorem Simulates.openFrom : openFrom s.objects = .ok s := by
  obtain ⟨logBytes, hlogObject, hlog⟩ := h.logObject
  obtain ⟨stateBytes, hstateObject, hst⟩ := h.stateObject
  have hlogMagic : checkMagic logBytes logStateMagic .log = .ok () := by
    obtain ⟨-, -, -, rfl⟩ := serializeLogState_eq_some.mp hlog
    exact checkMagic_append length_logStateMagic _ _
  have hstateMagic : checkMagic stateBytes stateMagic .state = .ok () := by
    obtain ⟨-, -, rfl⟩ := serializePersistentState_eq_some.mp hst
    exact checkMagic_append length_stateMagic _ _
  unfold Disk.openFrom
  rw [hlogObject, hstateObject]
  simp only
  refine check_bind_eq_ok.mpr ⟨hstateMagic, check_bind_eq_ok.mpr ⟨hlogMagic, okOr_bind_ok.mpr
    ⟨s.state, decode_serializePersistentState h.stateRange hst, okOr_bind_ok.mpr
      ⟨s.log, decode_serializeLogState h.logRange hlog, rfl⟩⟩⟩⟩

/-- Persisting a new log keeps the simulation, and succeeds if the log can be encoded. -/
theorem Simulates.persistLogState (log : LogStore) (hrng : (of log).InRange) :
    (∀ s', Stores.persistLogState { s with log := of log } .accepted = some s' →
        Simulates { m with log } s') ∧
      (Encodable { m with log } →
        (Stores.persistLogState { s with log := of log } .accepted).isSome = true) := by
  constructor
  · intro s' hper
    obtain ⟨bytes, hbs, hper⟩ := bind_eq_some_iff.mp hper
    cases hper
    exact ⟨rfl, h.state, hrng, h.stateRange, ⟨bytes, rfl, hbs⟩, h.stateObject⟩
  · intro henc
    have hbs : serializeLogState (of log) = some _ := serializeLogState_eq_some.mpr
      ⟨henc.index, henc.entries, henc.length, rfl⟩
    exact isSome_iff_exists.mpr ⟨_, bind_eq_some_iff.mpr ⟨_, hbs, if_pos rfl⟩⟩

theorem Simulates.persistState
    (state : Charlotte.Graft.PersistentState) (hrng : (PersistentState.of state).InRange) :
    (∀ s', Stores.persistState { s with state := PersistentState.of state } .accepted = some s' →
        Simulates { m with state } s') ∧
      (Encodable { m with state } →
        (Stores.persistState { s with state := PersistentState.of state } .accepted).isSome = true) := by
  constructor
  · intro s' hper
    obtain ⟨bytes, hbs, hper⟩ := bind_eq_some_iff.mp hper
    cases hper
    exact ⟨h.log, rfl, h.logRange, hrng, h.logObject, ⟨bytes, rfl, hbs⟩⟩
  · intro henc
    have hbs : serializePersistentState (PersistentState.of state) = some _ :=
      serializePersistentState_eq_some.mpr ⟨henc.vote, henc.anchor, rfl⟩
    exact isSome_iff_exists.mpr ⟨_, bind_eq_some_iff.mpr ⟨_, hbs, if_pos rfl⟩⟩

omit h in
theorem LogState.InRange.sublist {state' : LogState} (h : state.InRange)
    (hidx : state'.snapshotIndex < 256 ^ 8) (hterm : state'.snapshotTerm < 256 ^ 8)
    (hents : ∀ entry ∈ state'.entries, entry ∈ state.entries) : state'.InRange :=
  ⟨hidx, hterm, fun entry hmem => h.entries entry (hents entry hmem)⟩

omit h in
theorem mem_installSnapshot {s : LogState} {index term : ℕ} {data : Bytes}
    (h : entry ∈ (s.installSnapshot index term data).entries) : entry ∈ s.entries := by
  simp only [installSnapshot] at h
  cases hretain : (if index = s.snapshotIndex ∧ term = s.snapshotTerm then some 0
    else if s.snapshotIndex < index then
      if s.entries[index - s.snapshotIndex - 1]?.any (fun entry => entry.term == term) then
        some (index - s.snapshotIndex - 1 + 1) else none
    else none) with
  | none =>
    rw [hretain] at h
    cases h
  | some count =>
    rw [hretain] at h
    exact mem_of_mem_drop h

/-- One operation keeps the simulation, and succeeds if its outcome can be encoded. -/
theorem Simulates.apply {operation : StoreOperation} (hrng : InRange operation) :
    (∀ s', s.apply .accepted operation = some s' → Simulates (m.apply operation) s') ∧
      (Encodable (m.apply operation) → (s.apply .accepted operation).isSome = true) := by
  obtain ⟨log, state, _⟩ := s
  obtain rfl : log = of m.log := h.log
  obtain rfl : state = PersistentState.of m.state := h.state
  have hlog := h.logRange
  have hst := h.stateRange
  cases operation with
  | reset => exact h.persistLogState (.new) ⟨by decide, by decide, nofun⟩
  | append entries =>
    refine h.persistLogState (m.log.append entries) ⟨hlog.snapshotIndex, hlog.snapshotTerm, ?_⟩
    intro entry hmem
    exact (mem_append.mp hmem).elim (hlog.entries entry) (hrng entry)
  | truncateFrom index =>
    simp only [Stores.apply, apply]
    by_cases hkept : index ≤ (of m.log).snapshotIndex
    · have hsame : m.log.truncateFrom index = m.log := if_pos hkept
      rw [if_pos hkept, hsame]
      exact ⟨fun s' hs' => some.inj hs' ▸ h, fun _ => rfl⟩
    · have htrun := of_truncateFrom hkept
      rw [if_neg hkept]
      have hstep := h.persistLogState (m.log.truncateFrom index) (htrun ▸
        hlog.sublist hlog.snapshotIndex hlog.snapshotTerm fun _ hmem => mem_of_mem_take hmem)
      rw [htrun] at hstep
      exact hstep
  | installSnapshot index term data =>
    have hinst := of_installSnapshot m.log index term data
    have hstep := h.persistLogState (m.log.installSnapshot index term data) (hinst ▸
      hlog.sublist hrng.1 hrng.2 fun _ hmem => mem_installSnapshot hmem)
    rw [hinst] at hstep
    exact hstep
  | setCurrentTerm term =>
    exact h.persistState { m.state with currentTerm := term } ⟨hrng, hst.votedFor, hst.admission⟩
  | setVotedFor peerId =>
    exact h.persistState { m.state with votedFor := peerId } ⟨hst.term, hrng, hst.admission⟩
  | setJoinAdmission admission =>
    exact h.persistState { m.state with joinAdmission := admission } ⟨hst.term, hst.votedFor, hrng⟩

/-- A run keeps the simulation, and goes on for as long as every outcome can be encoded. -/
theorem Simulates.run {operations : List StoreOperation}
    (hrng : ∀ operation ∈ operations, InRange operation) :
    (∀ s', s.run operations = some s' → Simulates (m.run operations) s') ∧
      ((s.run operations).isSome = true ↔ ∀ k, Encodable (m.run (operations.take k))) := by
  induction operations generalizing m s with
  | nil =>
    refine ⟨fun s' hs' => ?_, ⟨fun _ k => ?_, fun _ => rfl⟩⟩
    · cases hs'
      exact h
    · rw [take_nil]
      exact h.encodable
  | cons operation operations ih =>
    obtain ⟨hfst, hrest⟩ := forall_mem_cons.mp hrng
    obtain ⟨hstep, hsome⟩ := h.apply hfst
    have hcons : s.run (operation :: operations) =
        (s.apply .accepted operation).bind fun s₁ => s₁.run operations := foldlM_cons
    rw [hcons]
    constructor
    · intro s' hs'
      obtain ⟨s₁, hs₁, hs'⟩ := bind_eq_some_iff.mp hs'
      exact (ih (hstep s₁ hs₁) hrest).1 s' hs'
    · constructor
      · intro hdone k
        obtain ⟨s', hs'⟩ := isSome_iff_exists.mp hdone
        obtain ⟨s₁, hs₁, hs'⟩ := bind_eq_some_iff.mp hs'
        cases k with
        | zero => exact h.encodable
        | succ k =>
          exact (ih (hstep s₁ hs₁) hrest).2.mp (isSome_iff_exists.mpr ⟨s', hs'⟩) k
      · intro henc
        have hfst : Encodable (m.apply operation) := by
          have hone := henc 1
          exact hone
        obtain ⟨s₁, hs₁⟩ := isSome_iff_exists.mp (hsome hfst)
        rw [hs₁, bind_some]
        refine (ih (hstep s₁ hs₁) hrest).2.mpr fun k => ?_
        exact henc (k + 1)

omit h

theorem openFrom_new : ∃ start, openFrom {} = .ok start ∧ Simulates .new start := by
  refine ⟨_, rfl, ⟨rfl, rfl, ⟨by decide, by decide, nofun⟩,
    ⟨by decide, nofun, nofun⟩, ⟨_, rfl, rfl⟩, ⟨_, rfl, rfl⟩⟩⟩

/-- A run over new objects in which every write and flush is accepted stops exactly where the contents
can no longer be encoded. Until then the stores answer like those in memory, and so do the stores that
are opened again. -/
theorem disk_refines_memory (operations : List StoreOperation)
    (hrange : ∀ operation ∈ operations, InRange operation) : ∃ start, openFrom {} = .ok start ∧
      ((start.run operations).isSome = true ↔
        ∀ k, Encodable (MemoryStores.new.run (operations.take k))) ∧
      ∀ s, start.run operations = some s → s.answers = (MemoryStores.new.run operations).answers ∧
        ∃ reopened, openFrom s.objects = .ok reopened ∧
          reopened.answers = (MemoryStores.new.run operations).answers := by
  obtain ⟨start, hopen, hsta⟩ := openFrom_new
  obtain ⟨hsimu, hstops⟩ := hsta.run hrange
  refine ⟨start, hopen, hstops, fun s hs => ?_⟩
  have hsim := hsimu s hs
  have hansw : s.answers = (new.run operations).answers := by
    obtain ⟨log, state, objects⟩ := s
    obtain rfl : log = of _ := hsim.log
    obtain rfl : state = PersistentState.of _ := hsim.state
    exact answers_of _ objects
  exact ⟨hansw, s, hsim.openFrom, hansw⟩

/-- A vote, an entry and a snapshot of it. -/
def persistedOperations : List StoreOperation :=
  [.setCurrentTerm 1, .setVotedFor (some (ascii "a")), .append [⟨1, ascii "a", [7]⟩, ⟨1, ascii "a", []⟩],
    .installSnapshot 1 1 [9], .truncateFrom 5]

theorem disk_refines_memory_voted : ∃ start s reopened, openFrom {} = .ok start ∧
    start.run persistedOperations = some s ∧ openFrom s.objects = .ok reopened ∧
    reopened.answers.votedFor = some (ascii "a") ∧ reopened.answers.lastIndex = 2 := by
  have hrng : ∀ operation ∈ persistedOperations, InRange operation := by
    simp only [persistedOperations, forall_mem_cons, InRange]
    refine ⟨by decide, ?_, ⟨⟨by decide, by decide⟩, ⟨by decide, by decide⟩, nofun⟩, by decide,
      by decide, nofun⟩
    intro vote hvote
    cases hvote
    decide
  obtain ⟨start, hopen, -, hansw⟩ := disk_refines_memory persistedOperations hrng
  have hdone : ∀ start, openFrom {} = .ok start → (start.run persistedOperations).isSome = true := by
    intro start h
    cases h
    decide
  obtain ⟨s, hs⟩ := isSome_iff_exists.mp (hdone start hopen)
  obtain ⟨-, reopened, hreop, hsame⟩ := hansw s hs
  exact ⟨start, s, reopened, hopen, hs, hreop, by rw [hsame]; decide, by rw [hsame]; decide⟩

/-- An entry without term, peer and data is kept in memory and stops the thread on disk, before anything
is written. -/
theorem zero_entry_stops_disk : ∃ start, openFrom {} = .ok start ∧
    start.run [.append [⟨0, [], []⟩]] = none ∧
    (MemoryStores.new.run [.append [⟨0, [], []⟩]]).answers.lastIndex = 1 :=
  ⟨_, rfl, by decide, by decide⟩

end Disk

end Charlotte.Graft
