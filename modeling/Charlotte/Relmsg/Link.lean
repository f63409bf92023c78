import Charlotte.Relmsg.Labels

/-!
# Two services on a lossy link

A sending and a receiving service exchange frames over a link that loses, repeats,
reorders and delays them: every frame that was ever transmitted may be handed to
either side, any number of times, or never. The NICs accept every frame, the receiver
keeps running, and the sender may restart under a larger generation.
-/

namespace Charlotte.Relmsg

open Lib

/-- An accepting NIC; the grants of memory vary. -/
def granting (reserved allocated : Bool) : Environment := ⟨fun _ _ => true, reserved, allocated⟩

/-- What one side is asked to do. -/
inductive Input
  | send (arg : ℕ) (object : Option Bytes)
  | recv
  /-- The link hands over the frame that was transmitted as the i-th. -/
  | deliver (i : ℕ)
  | tick

inductive Action
  | sender (input : Input) (reserved allocated : Bool)
  | receiver (input : Input) (reserved allocated : Bool)
  /-- The sender restarts under a new generation. -/
  | restart (generation : ℕ)

structure Network where
  sender : Service
  receiver : Service
  /-- The service generation of the sender. -/
  generation : ℕ
  /-- Every frame that was ever transmitted. -/
  net : List Bytes
  /-- The number of the next call. -/
  calls : Call
  /-- The messages for the receiver that the sender was asked to send. -/
  submitted : List (Call × Bytes)
  /-- The messages from the sender that the receiver has queued. -/
  queued : List Bytes
  /-- The replies of the sender to its callers. -/
  replies : List (Call × ℤ)

namespace Network

def transmitted (effects : List Effect) : List Bytes :=
  effects.filterMap fun
    | .transmit frame true => some frame
    | _ => none

def repliesOf (effects : List Effect) : List (Call × ℤ) :=
  effects.filterMap fun
    | .reply call value => some (call, value)
    | _ => none

def queuedFrom (mac : Mac) (effects : List Effect) : List Bytes :=
  effects.filterMap fun
    | .queued message => if message.source = mac then some message.payload else none
    | _ => none

variable (σ : Network)

def request : Input → Option Service.Request
  | .send arg object => some (.send σ.calls arg object)
  | .recv => some (.recv σ.calls)
  | .deliver i => σ.net[i]?.map (.frame σ.calls)
  | .tick => some .tick

/-- The message for the receiver that an input submits to the sender. -/
def submission : Input → List (Call × Bytes)
  | .send arg object =>
    match σ.sender.readSend arg object with
    | some (destination, payload) =>
      if destination = σ.receiver.localMac then [(σ.calls, payload)] else []
    | none => []
  | _ => []

def step : Action → Network
  | .sender input reserved allocated =>
    match σ.request input with
    | none => σ
    | some request =>
      let result := σ.sender.handle (granting reserved allocated) request
      { σ with
        sender := result.1
        net := σ.net ++ transmitted result.2
        calls := σ.calls + 1
        submitted := σ.submitted ++ σ.submission input
        replies := σ.replies ++ repliesOf result.2 }
  | .receiver input reserved allocated =>
    match σ.request input with
    | none => σ
    | some request =>
      let result := σ.receiver.handle (granting reserved allocated) request
      { σ with
        receiver := result.1
        net := σ.net ++ transmitted result.2
        calls := σ.calls + 1
        queued := σ.queued ++ queuedFrom σ.sender.localMac result.2 }
  | .restart generation =>
    match initialWireSession generation with
    | none => σ
    | some session =>
      if σ.generation < generation then
        { σ with sender := .start σ.sender.localMac session, generation }
      else σ

/-- Both services have just started. -/
def start (a b : Mac) (generation session remoteSession : ℕ) : Network :=
  { sender := .start a session
    receiver := .start b remoteSession
    generation, net := [], calls := 0, submitted := [], queued := [], replies := [] }

def run (actions : List Action) : Network := actions.foldl step σ

/-- The messages that the receiver has queued are submitted ones, in their order and each at
most once, and every message that was answered with its length is among them. -/
def Delivers : Prop :=
  (σ.submitted.map Prod.fst).Nodup ∧
  ∃ delivered : List (Call × Bytes), delivered.Sublist σ.submitted ∧
    σ.queued = delivered.map Prod.snd ∧
    ∀ call payload, (call, payload) ∈ σ.submitted →
      (call, (payload.length : ℤ)) ∈ σ.replies → (call, payload) ∈ delivered

/-- A message for the receiver is taken only while the session has a sequence number after
the next one. -/
def Unwrapped : Action → Prop
  | .sender input _ _ => σ.submission input ≠ [] →
      (σ.sender.view σ.receiver.localMac).pending = none →
      (σ.sender.view σ.receiver.localMac).nextTxSeq < 2 ^ 32 - 1
  | _ => True

end Network

end Charlotte.Relmsg
