import Mathlib

/-!
# Data types of the Raft crate

Records, messages and limits of `catten-graft/src/types.rs`. Strings are their
UTF-8 bytes, which is also the order a `BTreeMap` keeps them in. Terms, log
indices and byte counts are natural numbers.
-/

namespace Charlotte.Graft

abbrev Bytes := List UInt8

/-- A Rust string, as its bytes. -/
abbrev Text := List UInt8

/-- The bytes of an ASCII literal. -/
def ascii (s : String) : Text := s.toList.map fun c => UInt8.ofNat c.toNat

/-- `BTreeMap<String, α>`. -/
abbrev TextMap (α : Type) := Std.ExtTreeMap Text α

/-- `BTreeSet<String>`. -/
abbrev TextSet := Std.ExtTreeSet Text

inductive Role
  | voter
  | learner
  deriving DecidableEq, Repr

structure Peer where
  id : Text
  serviceName : UInt64
  role : Role
  deriving DecidableEq, Repr

namespace Peer

def voter (id : Text) (serviceName : UInt64) : Peer := ⟨id, serviceName, .voter⟩

def learner (id : Text) (serviceName : UInt64) : Peer := ⟨id, serviceName, .learner⟩

def isVoter (peer : Peer) : Bool := peer.role == .voter

end Peer

structure LogEntry where
  term : ℕ
  peerId : Text
  data : Bytes
  deriving DecidableEq, Repr

namespace LogEntry

def isNoop (entry : LogEntry) : Bool := entry.data.isEmpty

end LogEntry

inductive NodeState
  | follower
  | candidate
  | leader
  deriving DecidableEq, Repr

structure VoteRequest where
  term : ℕ
  candidateId : Text
  lastLogIndex : ℕ
  lastLogTerm : ℕ
  deriving DecidableEq, Repr

structure VoteResponse where
  peerId : Text
  term : ℕ
  voteGranted : Bool
  deriving DecidableEq, Repr

structure AppendEntriesRequest where
  term : ℕ
  leaderId : Text
  prevLogIndex : ℕ
  prevLogTerm : ℕ
  leaderCommit : ℕ
  entries : List LogEntry
  deriving DecidableEq, Repr

structure AppendEntriesResponse where
  peerId : Text
  term : ℕ
  success : Bool
  matchIndex : ℕ
  deriving DecidableEq, Repr

structure InstallSnapshotRequest where
  term : ℕ
  leaderId : Text
  lastIncludedIndex : ℕ
  lastIncludedTerm : ℕ
  offset : ℕ
  data : Bytes
  done : Bool
  deriving DecidableEq, Repr

structure InstallSnapshotResponse where
  peerId : Text
  term : ℕ
  success : Bool
  lastIncludedIndex : ℕ
  nextOffset : ℕ
  done : Bool
  deriving DecidableEq, Repr

/-- The error codes the consensus calls return. -/
inductive RaftError
  | notLeader
  | tooLarge
  | readBarrier
  | notCommitted
  | configInProgress
  | resourceLimit
  deriving DecidableEq, Repr

/-- Leaves room for Raft metadata and peer ids in a one-page transport object. -/
def maxCommandBytes : ℕ := 3000

/-- Upper bound on a reassembled snapshot stream. -/
def maxSnapshotBytes : ℕ := 64 * 1024 * 1024

/-- Addition of `u64` values that stops at the largest one. -/
def saturatingAdd (a b : ℕ) : ℕ := min (a + b) (2 ^ 64 - 1)

/-- Multiplication of `u64` values that stops at the largest one. -/
def saturatingMul (a b : ℕ) : ℕ := min (a * b) (2 ^ 64 - 1)

end Charlotte.Graft
