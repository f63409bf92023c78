import Charlotte.Graft.Types
import Charlotte.Lib.ReplicatedLog

/-!
# Log and persistent state

`log_store.rs`: the log keeps a snapshot of a prefix and the entries after it.
Index `i` counts from one; the snapshot covers the indices up to
`snapshotIndex`.

`Represents` relates a store to the complete log it stands for, of which it
keeps a suffix.
-/

namespace Charlotte.Graft

open List

structure JoinAdmission where
  anchorId : Text
  snapshotIndex : ℕ
  deriving DecidableEq, Repr

/-- Contents of the persistent state store. -/
structure PersistentState where
  currentTerm : ℕ
  votedFor : Option Text
  joinAdmission : Option JoinAdmission
  deriving DecidableEq, Repr

def PersistentState.new : PersistentState := ⟨0, none, none⟩

/-- Contents of the log store. -/
structure LogStore where
  entries : List LogEntry
  snapshotIndex : ℕ
  snapshotTerm : ℕ
  snapshotData : Bytes
  deriving DecidableEq, Repr

namespace LogStore

def new : LogStore := ⟨[], 0, 0, []⟩

variable (s : LogStore)

def lastIndex : ℕ :=
  if s.entries.isEmpty then s.snapshotIndex else s.snapshotIndex + s.entries.length

def lastTerm : ℕ :=
  match s.entries.getLast? with
  | none => s.snapshotTerm
  | some entry => entry.term

variable (index : ℕ)

def termAt : ℕ :=
  if index = 0 then 0
  else if index = s.snapshotIndex then s.snapshotTerm
  else if s.snapshotIndex < index then
    match s.entries[index - s.snapshotIndex - 1]? with
    | some entry => entry.term
    | none => 0
  else 0

def entryAt : Option LogEntry :=
  if index ≤ s.snapshotIndex then none else s.entries[index - s.snapshotIndex - 1]?

def append (entries : List LogEntry) : LogStore :=
  { s with entries := s.entries ++ entries }

def truncateFrom : LogStore :=
  if index ≤ s.snapshotIndex then s
  else { s with entries := s.entries.take (index - s.snapshotIndex - 1) }

def entriesFrom : List LogEntry :=
  if s.lastIndex < index then []
  else if index ≤ s.snapshotIndex then s.entries
  else s.entries.drop (index - s.snapshotIndex - 1)

/-- Where the retained suffix starts after a snapshot, if the log agrees with
the snapshot's last entry. -/
def retainFrom (lastIncludedIndex lastIncludedTerm : ℕ) : Option ℕ :=
  if lastIncludedIndex = s.snapshotIndex ∧ lastIncludedTerm = s.snapshotTerm then some 0
  else if s.snapshotIndex < lastIncludedIndex then
    match s.entries[lastIncludedIndex - s.snapshotIndex - 1]? with
    | some entry =>
      if entry.term = lastIncludedTerm then some (lastIncludedIndex - s.snapshotIndex)
      else none
    | none => none
  else none

def installSnapshot (lastIncludedIndex lastIncludedTerm : ℕ) (snapshotData : Bytes) : LogStore where
  entries :=
    match s.retainFrom lastIncludedIndex lastIncludedTerm with
    | some count => s.entries.drop count
    | none => []
  snapshotIndex := lastIncludedIndex
  snapshotTerm := lastIncludedTerm
  snapshotData

theorem truncateFrom_snapshotIndex : (s.truncateFrom index).snapshotIndex = s.snapshotIndex := by
  rw [truncateFrom]
  split <;> rfl

theorem truncateFrom_snapshotData : (s.truncateFrom index).snapshotData = s.snapshotData := by
  rw [truncateFrom]
  split <;> rfl

theorem lastIndex_eq : s.lastIndex = s.snapshotIndex + s.entries.length := by
  rw [lastIndex]
  split
  · rename_i h
    rw [isEmpty_iff_length_eq_zero] at h
    rw [h, Nat.add_zero]
  · rfl

variable {s} {index}

/-- A store has an entry at each index from its snapshot to its end. -/
theorem entryAt_isSome (hs : s.snapshotIndex < index)
    (hi : index ≤ s.lastIndex) : ∃ entry, s.entryAt index = some entry := by
  rw [lastIndex_eq] at hi
  rw [entryAt, if_neg (by omega)]
  exact ⟨_, getElem?_eq_getElem (by omega)⟩

variable {entry : LogEntry}

variable (h : s.entryAt index = some entry)
include h

theorem lt_of_entryAt : s.snapshotIndex < index := by
  rw [entryAt] at h
  split at h
  · cases h
  · omega

theorem le_of_entryAt : index ≤ s.lastIndex := by
  have hlt := lt_of_entryAt h
  rw [entryAt, if_neg (by omega)] at h
  have := (List.getElem?_eq_some_iff.mp h).1
  rw [lastIndex_eq]
  omega

theorem termAt_of_entryAt : s.termAt index = entry.term := by
  have hlt := lt_of_entryAt h
  rw [entryAt, if_neg (by omega)] at h
  rw [termAt, if_neg (by omega), if_neg (by omega), if_pos hlt, h]

omit h

theorem entryAt_truncateFrom (hs : s.snapshotIndex < index) (i : ℕ) :
    (s.truncateFrom index).entryAt i = if i < index then s.entryAt i else none := by
  rw [truncateFrom, if_neg (by omega)]
  simp only [entryAt, getElem?_take]
  split
  · split <;> rfl
  · split
    · rw [if_pos (by omega)]
    · rw [if_neg (by omega)]

theorem lastIndex_truncateFrom (hs : s.snapshotIndex < index)
    (hi : index ≤ s.lastIndex + 1) : (s.truncateFrom index).lastIndex = index - 1 := by
  rw [lastIndex_eq] at hi
  rw [truncateFrom, if_neg (by omega), lastIndex_eq]
  simp only [length_take]
  omega

theorem entryAt_append (s : LogStore) (entries : List LogEntry) (i : ℕ) : (s.append entries).entryAt i =
      if i ≤ s.lastIndex then s.entryAt i else entries[i - s.lastIndex - 1]? := by
  change (if i ≤ s.snapshotIndex then none
    else (s.entries ++ entries)[i - s.snapshotIndex - 1]?) = _
  rw [lastIndex_eq, entryAt]
  by_cases hs : i ≤ s.snapshotIndex
  · rw [if_pos hs, if_pos (by omega), if_pos hs]
  · rw [if_neg hs, if_neg hs]
    split
    · exact getElem?_append_left (by omega)
    · rw [getElem?_append_right (by omega)]
      congr 1
      omega

/-- Compaction up to an index of the log keeps the entries after it. -/
theorem entryAt_installSnapshot {i : ℕ} (hs : s.snapshotIndex < index) (hi : index < i) (data : Bytes) :
    (s.installSnapshot index (s.termAt index) data).entryAt i = s.entryAt i := by
  have hne : ¬(index = s.snapshotIndex ∧ s.termAt index = s.snapshotTerm) := by omega
  simp only [entryAt, installSnapshot, retainFrom, if_neg hne, if_pos hs]
  rw [if_neg (by omega), if_neg (by omega), termAt, if_neg (by omega), if_neg (by omega), if_pos hs]
  cases he : s.entries[index - s.snapshotIndex - 1]? with
  | none =>
    rw [getElem?_eq_none_iff] at he
    rw [getElem?_eq_none (l := s.entries) (by omega)]
    rfl
  | some =>
    simp only [if_true, getElem?_drop]
    congr 1
    omega

end LogStore

/-- The term of the entry at a one-based index of a complete log, zero before
the first entry and after the last. -/
def termAtIndex (log : List LogEntry) (index : ℕ) : ℕ :=
  if index = 0 then 0 else ((log[index - 1]?).map LogEntry.term).getD 0

theorem termAtIndex_take (log : List LogEntry) (index : ℕ) :
    termAtIndex (log.take index) index = termAtIndex log index := by
  rw [termAtIndex, termAtIndex]
  split
  · rfl
  · rw [getElem?_take_of_lt (by omega)]

/-- The term at an index depends on the log up to that index only. -/
theorem termAtIndex_congr {log log' : List LogEntry} {index : ℕ}
    (h : log.take index = log'.take index) : termAtIndex log index = termAtIndex log' index := by
  rw [← termAtIndex_take log, h, termAtIndex_take]

/-- The store keeps the entries of the complete log after its snapshot. -/
structure LogStore.Represents (s : LogStore) (log : List LogEntry) : Prop where
  entries : s.entries = log.drop s.snapshotIndex
  index_le : s.snapshotIndex ≤ log.length
  term : s.snapshotTerm = termAtIndex log s.snapshotIndex

namespace LogStore.Represents

variable {s : LogStore} {log : List LogEntry} (h : s.Represents log)
include h

theorem length_entries : s.entries.length = log.length - s.snapshotIndex := by
  rw [h.entries, length_drop]

theorem lastIndex : s.lastIndex = log.length := by
  have hlen := h.length_entries
  have hle := h.index_le
  rw [LogStore.lastIndex]
  split
  · rename_i he
    rw [isEmpty_iff_length_eq_zero] at he
    omega
  · omega

variable {index : ℕ} (hi : s.snapshotIndex < index)
include hi

theorem getElem?_entries : s.entries[index - s.snapshotIndex - 1]? = log[index - 1]? := by
  rw [h.entries, getElem?_drop]
  congr 1
  omega

omit hi in
theorem termAt (hi : s.snapshotIndex ≤ index) : s.termAt index = termAtIndex log index := by
  rw [LogStore.termAt, termAtIndex]
  split
  · rfl
  rename_i h0
  split
  · rename_i heq
    rw [h.term, termAtIndex, ← heq, if_neg h0]
  · have hlt : s.snapshotIndex < index := by omega
    rw [if_pos hlt, h.getElem?_entries hlt]
    cases log[index - 1]? <;> rfl

theorem entryAt : s.entryAt index = log[index - 1]? := by
  rw [LogStore.entryAt, if_neg (by omega), h.getElem?_entries hi]

omit hi in
theorem append (new : List LogEntry) : (s.append new).Represents (log ++ new) where
  entries := by
    rw [LogStore.append, h.entries, drop_append_of_le_length h.index_le]
  index_le := by
    rw [length_append]
    exact h.index_le.trans (Nat.le_add_right _ _)
  term := by
    refine h.term.trans (termAtIndex_congr ?_)
    exact (take_append_of_le_length h.index_le).symm

theorem truncateFrom : (s.truncateFrom index).Represents (log.take (index - 1)) := by
  rw [LogStore.truncateFrom, if_neg (by omega)]
  constructor
  case entries =>
    rw [h.entries, drop_take, Nat.sub_right_comm]
  case index_le =>
    have := h.index_le
    simp only [length_take]
    omega
  case term =>
    refine h.term.trans (termAtIndex_congr ?_)
    rw [take_take, Nat.min_eq_left (by omega)]

theorem entriesFrom : s.entriesFrom index = log.drop (index - 1) := by
  rw [LogStore.entriesFrom, h.lastIndex]
  split
  · rw [drop_of_length_le (by omega)]
  · rw [if_neg (by omega), h.entries, drop_drop]
    congr 1
    omega

variable {term : ℕ}

/-- A snapshot beyond the present one keeps the suffix of a log that agrees
with its last entry. -/
theorem retainFrom : s.retainFrom index term =
      if index ≤ log.length ∧ termAtIndex log index = term then some (index - s.snapshotIndex)
      else none := by
  rw [LogStore.retainFrom, if_neg (by omega), if_pos hi, h.getElem?_entries hi, termAtIndex,
    if_neg (show ¬index = 0 by omega)]
  by_cases hl : index ≤ log.length
  · rw [getElem?_eq_getElem (by omega)]
    simp [hl]
  · rw [getElem?_eq_none (by omega)]
    simp [hl]

theorem installSnapshot (hl : index ≤ log.length) (ht : termAtIndex log index = term) (data : Bytes) :
    (s.installSnapshot index term data).Represents log := by
  constructor
  case entries =>
    change (match s.retainFrom index term with
      | some count => s.entries.drop count
      | none => []) = log.drop index
    rw [h.retainFrom hi, if_pos ⟨hl, ht⟩, h.entries]
    simp only [drop_drop]
    congr 1
    omega
  case index_le => exact hl
  case term => exact ht.symm

/-- A snapshot that the log contradicts or does not reach stands alone. -/
theorem installSnapshot_replace
    (hne : ¬(index ≤ log.length ∧ termAtIndex log index = term)) (data : Bytes)
    {log' : List LogEntry} (hl : log'.length = index) (ht : termAtIndex log' index = term) :
    (s.installSnapshot index term data).Represents log' := by
  constructor
  case entries =>
    change (match s.retainFrom index term with
      | some count => s.entries.drop count
      | none => []) = log'.drop index
    rw [h.retainFrom hi, if_neg hne, ← hl, drop_length]
  case index_le => exact hl.ge
  case term => exact ht.symm

omit hi

theorem lastTerm : s.lastTerm = Lib.ReplicatedLog.lastTerm LogEntry.term log := by
  rw [LogStore.lastTerm, Lib.ReplicatedLog.lastTerm, h.entries]
  have hle := h.index_le
  by_cases heq : s.snapshotIndex = log.length
  · rw [heq, drop_length, h.term, heq, termAtIndex]
    cases log with
    | nil => rfl
    | cons => simp [getLast?_eq_getElem?]
  · rw [getLast?_drop, if_neg (by omega)]
    have hne : log ≠ [] := by
      rintro rfl
      simp at hle
      exact heq hle
    rw [getLast?_eq_some_getLast hne]
    rfl

end LogStore.Represents

theorem LogStore.represents_new : LogStore.new.Represents [] := ⟨rfl, le_rfl, rfl⟩

end Charlotte.Graft
