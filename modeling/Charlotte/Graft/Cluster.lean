import Charlotte.Graft.Node.Client

/-!
# Clusters and their runs

A cluster is a set of nodes with their disks and a history of everything the
nodes have done to the outside world. A run is a list of steps; each step makes
one call on one node, and may cut the call short with a crash after any number
of its effects.

The network is the history: any message that was ever sent can be delivered at
any later step, any number of times or never. A transport may shorten the
entries of a request to a beginning that fits its frames.
-/

namespace Charlotte.Graft

open Function

/-- What does not change during a run: the application and how each node is
launched. -/
structure Setting (σ : Type) where
  machine : StateMachine σ
  launch : Text → Option (RaftNodeConfig σ)
  launched : ∀ {id config}, launch id = some config → config.me.id = id

structure Cluster (σ : Type) where
  /-- The running processes. -/
  nodes : Text → Option (RaftNode σ)
  disks : Text → Durable
  /-- How often each node has been started. -/
  starts : Text → ℕ
  /-- How many read domains have been allocated. -/
  domains : ℕ
  history : List (Text × Effect)

inductive Action
  | start (id : Text) (currentMillis : ℕ)
  | crash (id : Text)
  | startElection (id : Text) (currentMillis : ℕ)
  | broadcastHeartbeat (id : Text) (currentMillis : ℕ)
  | submitCommand (id : Text) (command : Bytes) (currentMillis : ℕ)
  | beginRead (id : Text) (query : Bytes) (currentMillis : ℕ) (memory : Bool)
  | submitJointConfiguration (id : Text) (members : List Peer) (currentMillis : ℕ)
  | submitFinalizeConfiguration (id : Text) (currentMillis : ℕ)
  | submitJoin (id : Text) (peer : Peer) (currentMillis : ℕ)
  | beginJoining (id anchorId : Text) (currentMillis : ℕ)
  /-- Deliver the message at a position of the history. `keep` entries of an
  append request pass; `echo` chooses the transport that reports a snapshot
  chunk's progress as the follower answered it. -/
  | deliver (position keep : ℕ) (echo : Bool) (currentMillis : ℕ)
  deriving DecidableEq, Repr

/-- One step of a run; `cut` is the number of effects after which the node
crashes, if it does. -/
structure Step where
  action : Action
  cut : Option ℕ
  deriving DecidableEq, Repr

/-- The durable stores after some effects. -/
def lastWrite (effects : List Effect) (durable : Durable) : Durable :=
  effects.foldl (fun durable effect =>
    match effect with
    | .write durable => durable
    | _ => durable) durable

namespace Message

def dest : Message → Text
  | voteRequest dest _ => dest
  | voteResponse dest _ _ => dest
  | appendEntries dest _ => dest
  | appendEntriesResponse dest _ _ => dest
  | installSnapshot dest _ => dest
  | installSnapshotResponse dest _ _ _ _ => dest

/-- The call a message makes on its addressee, with the answer it sends back. -/
def handle {σ : Type} (M : StateMachine σ) (keep : ℕ) (echo : Bool) (currentMillis : ℕ)
    (n : RaftNode σ) : Message → Call (RaftNode σ)
  | voteRequest dest request => do
      let (n, response) ← n.handleVoteRequest request currentMillis
      pure (n.send (voteResponse request.candidateId dest response))
  | voteResponse _ peerId response => n.handleVoteResponse M peerId response currentMillis
  | appendEntries dest request => do
      let request := { request with entries := request.entries.take keep }
      let (n, response) ← n.handleAppendEntries M request currentMillis
      pure (n.send (appendEntriesResponse request.leaderId dest response))
  | appendEntriesResponse _ peerId response =>
    n.handleAppendEntriesResponse M peerId response currentMillis
  | installSnapshot dest request => do
      let (n, response) ← n.handleInstallSnapshot M request currentMillis
      let sentNextOffset := if echo then response.nextOffset
        else saturatingAdd request.offset request.data.length
      let sentDone := if echo then response.done else request.done
      pure (n.send (installSnapshotResponse request.leaderId dest response sentNextOffset sentDone))
  | installSnapshotResponse _ peerId response sentNextOffset sentDone =>
    n.handleInstallSnapshotResponse M peerId response sentNextOffset sentDone currentMillis

end Message

namespace Cluster

variable {σ : Type} (S : Setting σ)

/-- No node has been started and every disk is empty. -/
def initial : Cluster σ where
  nodes := fun _ => none
  disks := fun _ => ⟨.new, .new⟩
  starts := fun _ => 0
  domains := 0
  history := []

variable (c : Cluster σ)

/-- The message at a position of the history. -/
def messageAt (position : ℕ) : Option Message :=
  match c.history[position]? with
  | some (_, .send message) => some message
  | _ => none

/-- The cluster after some effects of one node. -/
def observe (id : Text) (effects : List Effect) : Cluster σ :=
  { c with
    disks := update c.disks id (lastWrite effects (c.disks id))
    history := c.history ++ effects.map fun effect => (id, effect) }

/-- Replace the process of a node. -/
def setNode (id : Text) (node : Option (RaftNode σ)) : Cluster σ :=
  { c with nodes := update c.nodes id node }

/-- The cluster after a call on a node. The process is gone after a crash, a
failed assertion or a failed start. -/
def settle (id : Text) (call : Call (Option (RaftNode σ))) (cut : Option ℕ) : Cluster σ :=
  let effects := match call with
    | .ok (some n) => n.effects
    | .ok none => []
    | .error effects => effects
  match cut, call with
  | some count, _ => (c.observe id (effects.take count)).setNode id none
  | none, .ok (some n) => (c.observe id effects).setNode id (some { n with effects := [] })
  | none, _ => (c.observe id effects).setNode id none

/-- Make a call on a running node. -/
def call (id : Text) (cut : Option ℕ) (body : RaftNode σ → Call (RaftNode σ)) : Cluster σ :=
  match c.nodes id with
  | none => c
  | some n => c.settle id ((body n).map some) cut

def step (s : Step) : Cluster σ :=
  match s.action with
  | .start id currentMillis =>
    match S.launch id with
    | none => c
    | some config =>
      let c := { c with starts := update c.starts id (c.starts id + 1) }
      c.settle id ((RaftNode.new S.machine config (c.disks id) currentMillis).map Except.toOption) s.cut
  | .crash id => c.setNode id none
  | .startElection id currentMillis =>
    c.call id s.cut fun n => n.startElection S.machine currentMillis
  | .broadcastHeartbeat id currentMillis =>
    c.call id s.cut fun n => n.broadcastHeartbeat S.machine currentMillis
  | .submitCommand id command currentMillis =>
    c.call id s.cut fun n => (n.submitCommand S.machine command currentMillis).map Prod.fst
  | .beginRead id query currentMillis memory =>
    let domain := if memory then some c.domains else none
    ({ c with domains := c.domains + 1 }).call id s.cut fun n =>
      (n.beginRead S.machine query currentMillis domain).map Prod.fst
  | .submitJointConfiguration id members currentMillis =>
    c.call id s.cut fun n =>
      (n.submitJointConfiguration S.machine members currentMillis).map Prod.fst
  | .submitFinalizeConfiguration id currentMillis =>
    c.call id s.cut fun n =>
      (n.submitFinalizeConfiguration S.machine currentMillis).map Prod.fst
  | .submitJoin id peer currentMillis =>
    c.call id s.cut fun n => (n.submitJoin S.machine peer currentMillis).map Prod.fst
  | .beginJoining id anchorId currentMillis =>
    c.call id s.cut fun n => pure (n.beginJoining S.machine anchorId currentMillis)
  | .deliver position keep echo currentMillis =>
    match c.messageAt position with
    | none => c
    | some message =>
      c.call message.dest s.cut fun n =>
        message.handle S.machine keep echo currentMillis n

/-- The cluster after a run. -/
def run (steps : List Step) : Cluster σ := steps.foldl (step S) initial

end Cluster

end Charlotte.Graft
