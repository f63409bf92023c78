import Charlotte.Relmsg.Wire

/-!
# The reliable message service

The state and the handlers of `relmsg.rs`. A handler returns the new state and what
it does in order: frames handed to the NIC, replies to calls, messages queued for the
application. What the system decides (whether the NIC accepts a frame, whether memory
is granted) comes with each request.
-/

namespace Charlotte.Relmsg

open Lib
open Std (ExtTreeMap)

def maxMsg : ℕ := 1024 * 1024
def maxPeers : ℕ := 16
def maxRetries : ℕ := 10
def maxRetryDelayTicks : ℕ := 25
def maxReceivedMessages : ℕ := 32
def maxReassemblyFragments : ℕ := (maxMsg + maxPayloadSize - 1) / maxPayloadSize
def maxQueuedReceiveBytes : ℕ := 4 * maxMsg
def maxReassemblyBytes : ℕ := 4 * maxMsg
def maxOutboundBytes : ℕ := 4 * maxMsg

def errPeerUnreachable : ℤ := -1
def errUnknown : ℤ := -3
def errBusy : ℤ := -4

/-- A reply capability of a call. -/
abbrev Call := ℕ

structure ReceivedMessage where
  source : Mac
  payload : Bytes
  deriving DecidableEq, Repr

structure Outbound where
  seq : ℕ
  reply : Call
  payloadLen : ℕ
  /-- One frame for each fragment of the message. -/
  frames : List Bytes
  retries : ℕ
  ticksUntilRetry : ℕ
  deriving DecidableEq, Repr

structure Reassembly where
  seq : ℕ
  /-- The buffered fragments by their offset. -/
  fragments : ExtTreeMap ℕ Bytes
  bufferedBytes : ℕ
  /-- The message length that every fragment advertises. -/
  total : ℕ

def Reassembly.new (seq total : ℕ) : Reassembly := ⟨seq, ∅, 0, total⟩

def fragmentWithinCeiling (total offset payloadLen max : ℕ) : Bool :=
  decide (total ≤ max) && decide (offset + payloadLen ≤ total)

/-- The loop of `assemble` from an offset. Fragments are not empty, so that one step for
each byte of the message is enough. -/
def assembleFrom (fragments : ExtTreeMap ℕ Bytes) (total : ℕ) : ℕ → ℕ → Bytes → Option Bytes
  | 0, offset, out => if offset = total then some out else none
  | steps + 1, offset, out =>
    if offset < total then
      (fragments[offset]?).bind fun bytes =>
        assembleFrom fragments total steps (offset + bytes.length) (out ++ bytes)
    else if offset = total then some out else none

/-- `assemble`; `reserved` says whether the memory for the message was granted. -/
def assemble (reassembly : Reassembly) (max : ℕ) (reserved : Bool) : Option Bytes :=
  if max < reassembly.total || !reserved then none
  else assembleFrom reassembly.fragments reassembly.total reassembly.total 0 []

structure Peer where
  mac : Mac
  /-- The session that labels what is sent to the peer; zero once it is exhausted. -/
  txSession : ℕ
  nextTxSeq : ℕ
  nextRxSeq : ℕ
  pending : Option Outbound
  reassembling : Option Reassembly
  remoteSession : Option ℕ

/-- `wrapping_add(1).max(1)`. -/
def succSeq (seq : ℕ) : ℕ := max ((seq + 1) % 2 ^ 32) 1

namespace Peer

def new (mac : Mac) (txSession : ℕ) : Peer := ⟨mac, txSession, 1, 1, none, none, none⟩

def acceptSession (peer : Peer) (session : ℕ) (syn : Bool) : Option Peer :=
  if peer.remoteSession = some session then some peer
  else if !syn || !wireSessionIsNewer session (peer.remoteSession.getD 0) then none
  else some { peer with remoteSession := some session, nextRxSeq := 1, reassembling := none }

def abandonTransmitSession (peer : Peer) : Peer :=
  { peer with txSession := (nextWireSession peer.txSession).getD 0, nextTxSeq := 1 }

/-- The reassembly of the message, which may have to begin. -/
def reassembly (peer : Peer) (message : MessageHeader) : Reassembly :=
  (peer.reassembling.filter (·.seq == message.sequence)).getD
    (.new message.sequence message.totalMessageLen)

/-- A new fragment is beyond the limits. `buffered` is what all peers have buffered. -/
def refuses (peer : Peer) (buffered : ℕ) (message : MessageHeader) (payload : Bytes) : Bool :=
  (peer.reassembly message).fragments[message.fragmentOffset]?.isNone &&
    (decide (maxReassemblyFragments ≤ (peer.reassembly message).fragments.size) ||
      decide (maxReassemblyBytes < buffered + payload.length))

/-- Buffer a fragment of the expected message, as far as the limits allow it. -/
def buffer (peer : Peer) (buffered : ℕ) (message : MessageHeader) (payload : Bytes) : Peer :=
  let reassembly := peer.reassembly message
  let opened : Peer := { peer with reassembling := some reassembly }
  let replaced := reassembly.fragments[message.fragmentOffset]?
  let bufferedBytes := reassembly.bufferedBytes - (replaced.map List.length).getD 0 + payload.length
  if reassembly.total != message.totalMessageLen then { peer with reassembling := none }
  else if peer.refuses buffered message payload then opened
  else if maxMsg < bufferedBytes then { peer with reassembling := none }
  else
    { peer with
      reassembling := some { reassembly with
        fragments := reassembly.fragments.insert message.fragmentOffset payload, bufferedBytes } }

end Peer

/-- What a handler does to the outside. -/
inductive Effect
  | transmit (frame : Bytes) (accepted : Bool)
  | reply (call : Call) (value : ℤ)
  /-- A message is moved to the application that asked for one. -/
  | replyMove (call : Call) (message : ReceivedMessage)
  /-- A message is queued for the application. -/
  | queued (message : ReceivedMessage)
  deriving DecidableEq, Repr

/-- What the system decides while a request is handled: whether the NIC accepts the n-th
frame for the m-th peer, and whether memory is granted. -/
structure Environment where
  accepts : ℕ → ℕ → Bool
  reserved : Bool
  allocated : Bool

/-- `send_frame`. -/
def sendFrame (accepts : Bool) (frame : Bytes) : Bool := decide (frame.length ≤ 4096) && accepts

structure Service where
  localMac : Mac
  localSession : ℕ
  peers : List Peer
  received : List ReceivedMessage
  pendingRecv : Option Call

namespace Service

def start (localMac : Mac) (localSession : ℕ) : Service := ⟨localMac, localSession, [], [], none⟩

variable (s : Service)

def peer? (mac : Mac) : Option Peer := s.peers.find? (·.mac == mac)

/-- Store the record of a peer that is in the table. -/
def setPeer (peer : Peer) : Service :=
  { s with peers := s.peers.map fun other => if other.mac = peer.mac then peer else other }

/-- `peer_index`: the entry of a peer, which is made where the table has room. -/
def peerIndex (mac : Mac) : Option (Service × Peer) :=
  match s.peer? mac with
  | some peer => some (s, peer)
  | none =>
    if maxPeers ≤ s.peers.length then none
    else
      let peer := Peer.new mac s.localSession
      some ({ s with peers := s.peers ++ [peer] }, peer)

def queuedBytes : ℕ := (s.received.map (·.payload.length)).sum

variable (env : Environment)

/-- `queue_received`. -/
def queueReceived (message : ReceivedMessage) : Option Service :=
  if maxReceivedMessages ≤ s.received.length ∨
      maxQueuedReceiveBytes < s.queuedBytes + message.payload.length ∨ env.allocated = false then none
  else some { s with received := s.received ++ [message] }

/-- `deliver_received`. -/
def deliverReceived : Service × List Effect :=
  match s.pendingRecv, s.received with
  | some call, message :: rest =>
    ({ s with received := rest, pendingRecv := none }, [.replyMove call message])
  | _, _ => (s, [])

/-- One peer of `retransmit_pending`. -/
def retransmitPeer (accepts : ℕ → Bool) (peer : Peer) : Peer × List Effect :=
  match peer.pending with
  | none => (peer, [])
  | some pending =>
    if 1 < pending.ticksUntilRetry then
      ({ peer with pending := some { pending with ticksUntilRetry := pending.ticksUntilRetry - 1 } },
        [])
    else if maxRetries ≤ pending.retries then
      ({ peer with pending := none }.abandonTransmitSession,
        [.reply pending.reply errPeerUnreachable])
    else
      ({ peer with
          pending := some { pending with
            retries := pending.retries + 1
            ticksUntilRetry := min (max pending.frames.length 1) maxRetryDelayTicks } },
        pending.frames.zipIdx.map fun (frame, n) => .transmit frame (sendFrame (accepts n) frame))

/-- `retransmit_pending`. -/
def retransmitPending : Service × List Effect :=
  let results := s.peers.zipIdx.map fun (peer, m) => retransmitPeer (env.accepts m) peer
  ({ s with peers := results.map Prod.fst }, results.flatMap Prod.snd)

/-- The part of `process_frame` for acknowledgements. -/
def processAck (peer : Peer) (message : MessageHeader) : Service × List Effect :=
  if message.payloadLen ≠ 0 then (s, [])
  else
    match peer.pending with
    | none => (s, [])
    | some pending =>
      if message.session = peer.txSession ∧ pending.seq = message.acknowledgment then
        (s.setPeer { peer with pending := none }, [.reply pending.reply pending.payloadLen])
      else (s, [])

/-- What all peers have buffered for reassembly. -/
def globallyBuffered : ℕ :=
  (s.peers.filterMap fun peer => peer.reassembling.map (·.bufferedBytes)).sum

/-- Queue the next message of a peer. -/
def deliver (peer : Peer) (payload : Bytes) : Service × List Effect :=
  match s.queueReceived env ⟨peer.mac, payload⟩ with
  | none => (s.setPeer peer, [])
  | some s => (s.setPeer { peer with nextRxSeq := succSeq peer.nextRxSeq }, [.queued ⟨peer.mac, payload⟩])

/-- A fragment of the next message of a peer. -/
def processFragment (peer : Peer) (message : MessageHeader)
    (payload : Bytes) : Service × List Effect :=
  if fragmentWithinCeiling message.totalMessageLen message.fragmentOffset message.payloadLen maxMsg then
    let buffered := (s.setPeer peer).globallyBuffered
    let after := peer.buffer buffered message payload
    -- nothing is assembled on account of a fragment that is not buffered
    if peer.refuses buffered message payload then (s.setPeer after, [])
    else
      match after.reassembling.bind (assemble · maxMsg env.reserved) with
      | none => (s.setPeer after, [])
      | some assembled => s.deliver env { after with reassembling := none } assembled
  else (s.setPeer peer, [])

/-- A data frame of an accepted session that carries the expected sequence number. -/
def processExpected (peer : Peer) (message : MessageHeader)
    (payload : Bytes) : Service × List Effect :=
  if message.has flagFrag then s.processFragment env peer message payload
  else s.deliver env peer payload

/-- The header of the cumulative acknowledgement for a peer. -/
def ackHeader (mac : Mac) (session nextRxSeq : ℕ) : FrameHeader :=
  { destination := mac
    source := s.localMac
    message :=
      { session
        sequence := 0
        acknowledgment := (nextRxSeq + (2 ^ 32 - 1)) % 2 ^ 32
        fragmentOffset := 0
        totalMessageLen := 0
        payloadLen := 0
        flags := flagSyn ||| flagAck } }

def ackFrame (mac : Mac) (session nextRxSeq : ℕ) : Bytes :=
  makeFrame (s.ackHeader mac session nextRxSeq) []

/-- The part of `process_frame` for data frames. -/
def processData (peer : Peer) (message : MessageHeader) (payload : Bytes) : Service × List Effect :=
  match peer.acceptSession message.session (message.has flagSyn) with
  | none => (s, [])
  | some peer =>
    if message.payloadLen = 0 then (s.setPeer peer, [])
    else
      let (s, effects) :=
        if message.sequence = peer.nextRxSeq then s.processExpected env peer message payload
        else (s.setPeer peer, [])
      match s.peer? peer.mac with
      | none => (s, effects)
      | some after =>
        -- an incomplete fragment of the expected message is not acknowledged
        if message.sequence = after.nextRxSeq then (s, effects)
        else
          let ack := s.ackFrame peer.mac message.session after.nextRxSeq
          (s, effects ++ [.transmit ack (sendFrame (env.accepts 0 0) ack)])

/-- `process_frame`. -/
def processFrame (frame : Bytes) : Service × List Effect :=
  match parseFrameHeaderChecked frame with
  | .error _ => (s, [])
  | .ok header =>
    let message := header.message
    if header.destination ≠ s.localMac ∨ header.source = s.localMac then (s, [])
    else if !message.has flagAck && message.has flagFrag &&
        !fragmentWithinCeiling message.totalMessageLen message.fragmentOffset message.payloadLen
          maxMsg then (s, [])
    else
      match s.peerIndex header.source with
      | none => (s, [])
      | some (s, peer) =>
        if message.has flagAck then s.processAck peer message
        else s.processData env peer message (payloadOf header frame)

/-- The header of a fragment of a message. -/
def fragmentHeader (destination : Mac) (session seq offset : ℕ) (payload : Bytes) :
    FrameHeader :=
  let chunkLen := min (payload.length - offset) maxPayloadSize
  { destination
    source := s.localMac
    message :=
      { session, sequence := seq, acknowledgment := 0, fragmentOffset := offset
        totalMessageLen := payload.length, payloadLen := chunkLen
        flags :=
          if payload.length ≤ maxPayloadSize then flagSyn
          else if payload.length ≤ offset + chunkLen then flagSyn ||| flagFrag
          else flagSyn ||| flagFrag ||| flagMore } }

def chunk (payload : Bytes) (offset : ℕ) : Bytes :=
  (payload.drop offset).take (min (payload.length - offset) maxPayloadSize)

/-- The frames of a message from an offset on. -/
def fragmentsFrom (s : Service) (destination : Mac) (session seq : ℕ) (payload : Bytes) (offset : ℕ) :
    List Bytes :=
  if offset < payload.length then
    makeFrame (s.fragmentHeader destination session seq offset payload) (chunk payload offset) ::
      s.fragmentsFrom destination session seq payload
        (offset + min (payload.length - offset) maxPayloadSize)
  else []
termination_by payload.length - offset
decreasing_by
  have hpositive : 0 < maxPayloadSize := by decide
  omega

/-- Hand frames to the NIC until it refuses one. -/
def transmitAll (accepts : ℕ → Bool) : ℕ → List Bytes → Bool × List Effect
  | _, [] => (true, [])
  | n, frame :: rest =>
    if sendFrame (accepts n) frame then
      let (ok, effects) := transmitAll accepts (n + 1) rest
      (ok, .transmit frame true :: effects)
    else (false, [.transmit frame false])

/-- What all peers have on the way. -/
def outboundBytes : ℕ :=
  (s.peers.filterMap fun peer => peer.pending.map (·.payloadLen)).sum

/-- The destination and the payload of an `OP_SEND` that passes the checks of its object. -/
def readSend (arg : ℕ) (object : Option Bytes) : Option (Mac × Bytes) := do
  reject (arg != 0)
  let object ← object
  let envelope ← parseIpcMessageHeader object
  reject (envelope.payloadLen == 0 || decide (maxMsg < envelope.payloadLen) ||
    envelope.peer == s.localMac || decide (maxOutboundBytes < s.outboundBytes + envelope.payloadLen))
  some (envelope.peer, (object.drop ipcMessageHeaderSize).take envelope.payloadLen)

/-- Send a message to an idle peer. A message whose frames are not all accepted is
forgotten, and its sequence number is used again. -/
def submit (call : Call) (peer : Peer) (payload : Bytes) : Service × List Effect :=
  let frames := s.fragmentsFrom peer.mac peer.txSession peer.nextTxSeq payload 0
  let (ok, effects) := transmitAll (env.accepts 0) 0 frames
  if ok then
    (s.setPeer { peer with
        nextTxSeq := succSeq peer.nextTxSeq
        pending := some
          { seq := peer.nextTxSeq, reply := call, payloadLen := payload.length, frames, retries := 0
            ticksUntilRetry := min (max frames.length 1) maxRetryDelayTicks } },
      effects)
  else (s, effects ++ [.reply call errPeerUnreachable])

/-- `OP_SEND`; `object` is the memory that came with the call, if it can be mapped. -/
def send (call : Call) (arg : ℕ) (object : Option Bytes) : Service × List Effect :=
  match s.readSend arg object with
  | none => (s, [.reply call errUnknown])
  | some (destination, payload) =>
    match s.peerIndex destination with
    | none => (s, [.reply call errPeerUnreachable])
    | some (s, peer) =>
      if peer.pending.isSome then (s, [.reply call errBusy])
      else if peer.txSession = 0 then (s, [.reply call errPeerUnreachable])
      else s.submit env call peer payload

/-- `OP_RECV`. -/
def recv (call : Call) : Service × List Effect :=
  if s.pendingRecv.isSome then (s, [.reply call errBusy])
  else { s with pendingRecv := some call }.deliverReceived

/-- What the loop of `serve` handles. -/
inductive Request
  | send (call : Call) (arg : ℕ) (object : Option Bytes)
  | recv (call : Call)
  /-- `OP_FRAME` of the receive pump. -/
  | frame (call : Call) (frame : Bytes)
  /-- The retransmission timer. -/
  | tick

def handle : Request → Service × List Effect
  | .send call arg object => s.send env call arg object
  | .recv call => s.recv call
  | .frame call frame =>
    if 4096 < frame.length then (s, [.reply call errUnknown])
    else
      let (s, effects) := s.processFrame env frame
      let (s, delivered) := s.deliverReceived
      (s, effects ++ delivered ++ [.reply call 0])
  | .tick => s.retransmitPending env

end Service

end Charlotte.Relmsg
