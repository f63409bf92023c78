import Charlotte.Graft.Safety.Calls

/-!
# Commands of the application

Commands and membership changes share the log, and an entry is taken for a membership change
by its bytes alone. `submit_command` does not look at them: a client whose bytes decode as a
membership change makes one. Any other non-empty command is handed to the application and
changes nothing else.
-/

namespace Charlotte.Graft

variable {σ : Type}

open List Cluster

namespace RaftNode

variable {M : StateMachine σ}

theorem entryAt_eq_none {store : LogStore} {position : ℕ} (h : ¬ position ≤ store.lastIndex) :
    store.entryAt position = none := by
  cases he : store.entryAt position with
  | none => rfl
  | some => exact absurd (LogStore.le_of_entryAt he) h

theorem entryAt_appendEntry (n : RaftNode σ) (command : Bytes) (position : ℕ) :
    (n.appendEntry command).logStore.entryAt position = n.logStore.entryAt position ∨
      n.logStore.entryAt position = none ∧
        (n.appendEntry command).logStore.entryAt position = some ⟨n.currentTerm, n.me.id, command⟩ := by
  simp only [appendEntry, store, LogStore.entryAt_append]
  by_cases hle : position ≤ n.logStore.lastIndex
  · exact .inl (if_pos hle)
  · rw [if_neg hle, entryAt_eq_none hle]
    cases hget : [(⟨n.currentTerm, n.me.id, command⟩ : LogEntry)][position - n.logStore.lastIndex - 1]? with
    | none => exact .inl rfl
    | some =>
      obtain rfl := mem_singleton.mp (mem_of_getElem? hget)
      exact .inr ⟨rfl, rfl⟩

/-- Entries that are no membership changes change the configuration at no index when a leader or a
follower appends them; so no assertion fails for them. -/
theorem configurationAt_append (n : RaftNode σ) {entries : List LogEntry} (hplain : ∀ e ∈ entries, e.Plain)
    (index : ℕ) : (n.store (n.logStore.append entries)).configurationAt index = n.configurationAt index := by
  unfold configurationAt
  congr 1
  funext configuration position
  simp only [store, LogStore.entryAt_append]
  by_cases hle : position ≤ n.logStore.lastIndex
  · rw [if_pos hle]
  · rw [if_neg hle, entryAt_eq_none hle]
    cases hget : entries[position - n.logStore.lastIndex - 1]? with
    | none => rfl
    | some entry =>
      have hnone : Configuration.decode entry.data = none := hplain entry (mem_of_getElem? hget)
      simp only [ClusterConfiguration.follow, hnone]

theorem applyToMachine_same (n : RaftNode σ) (entry : LogEntry) :
    (n.applyToMachine M entry).logStore = n.logStore ∧ (n.applyToMachine M entry).lastApplied = n.lastApplied ∧
      (n.applyToMachine M entry).pendingJoiners = n.pendingJoiners := by
  unfold applyToMachine
  split <;> exact ⟨rfl, rfl, rfl⟩

/-- A command that is accepted is appended once, by the one entry after the log. -/
theorem submitCommand_appends {n n' : RaftNode σ} {command : Bytes} {currentMillis index : ℕ}
    (h : submitCommand M command currentMillis n = .ok (n', .ok index)) :
    index = n.logStore.lastIndex + 1 ∧
      advanceCommitIndex M ({ n with currentMillis }.appendEntry command) = .ok n' := by
  unfold submitCommand submitCommandWith at h
  simp only at h
  split at h
  · cases h
  split at h
  · cases h
  · obtain ⟨m, hm, h⟩ := Call.bind_eq_ok.mp h
    cases h
    exact ⟨by simp [appendEntry, store, LogStore.append, LogStore.lastIndex_eq, Nat.add_assoc], hm⟩

theorem handleClientCommand_submits {n n' : RaftNode σ} {command : Bytes} {currentMillis : ℕ}
    {answer : Except (RaftError × Option Text) Bytes}
    (h : handleClientCommand M command currentMillis n = .ok (n', answer)) :
    ∃ result, submitCommand M command currentMillis n = .ok (n', result) := by
  obtain ⟨⟨m, result⟩, hm, h⟩ := Call.bind_eq_ok.mp h
  refine ⟨result, hm.trans ?_⟩
  cases result with
  | error => cases h; rfl
  | ok =>
    simp only at h
    split at h <;> cases h <;> rfl

end RaftNode

/-- A cluster of one voter. -/
def oneVoter : ClusterConfiguration := ⟨Members.collect [.voter (ascii "a") 1], .empty, by decide⟩

end Charlotte.Graft
