import Charlotte.Relmsg.Delivery
import Charlotte.Lib.TreeMap

/-!
# A session that uses up its sequence numbers

The number after `2 ^ 32 - 1` is 1 again, within the same session. A receiver that has
queued as many messages takes a delayed frame of the first one for the next message.
-/

namespace Charlotte.Relmsg

open Lib Service List Option

deriving instance DecidableEq for Reassembly, Peer, Service

/-- The first session of generation 1. -/
def firstSession : ℕ := 2 ^ 32 + 1

/-- The sender after `n` messages that have all been acknowledged. -/
def senderAt (n : ℕ) : Service :=
  { localMac := node 1
    localSession := firstSession
    peers := [⟨node 2, firstSession, n + 1, 1, none, none, none⟩]
    received := []
    pendingRecv := none }

/-- The receiver that expects the message with number `next`. -/
def receiverAt (next : ℕ) (received : List ReceivedMessage) : Service :=
  { localMac := node 2
    localSession := firstSession
    peers := [⟨node 1, firstSession, 1, next, none, none, some firstSession⟩]
    received
    pendingRecv := none }

/-- The frame of the message `[7]` under a sequence number. -/
def dataFrame (seq : ℕ) : Bytes := (senderAt 0).fragmentFrame (node 2) firstSession seq [7] 0

def sendingAt (n : ℕ) (call : Call) : Service :=
  { senderAt n with
    peers := [⟨node 2, firstSession, succSeq (n + 1), 1,
      some ⟨n + 1, call, 1, [dataFrame (n + 1)], 0, 1⟩, none, none⟩] }

theorem length_dataFrame (seq : ℕ) : (dataFrame seq).length = 47 := by
  simp [dataFrame, fragmentFrame, makeFrame, buildFrameHeader, buildHeader, fragmentHeader, chunk,
    senderAt, node, maxPayloadSize, ethernetHeaderSize, headerSize]

theorem parse_dataFrame {seq : ℕ} (hseq : seq < 2 ^ 32) : parseFrameHeaderChecked (dataFrame seq) =
        .ok ((senderAt 0).fragmentHeader (node 2) firstSession seq 0 [7]) ∧
      payloadOf ((senderAt 0).fragmentHeader (node 2) firstSession seq 0 [7]) (dataFrame seq) = [7] := by
  have hses : firstSession < 2 ^ 64 := by decide
  have hlen : [(7 : UInt8)].length ≤ maxMsg := by decide
  exact parse_fragmentFrame (s := senderAt 0) (e := ⟨node 2, firstSession, seq, [7]⟩) rfl
    ⟨rfl, hses, hseq, zero_lt_one, hlen⟩ zero_lt_one rfl

theorem send_senderAt (n : ℕ) (call : Call) :
    (senderAt n).send (granting true true) call 0 (some (sendObject (node 2) [7])) =
      (sendingAt n call, [.transmit (dataFrame (n + 1)) true]) := by
  have hread : (senderAt n).readSend 0 (some (sendObject (node 2) [7])) = some (node 2, [7]) := rfl
  have hidx : (senderAt n).peerIndex (node 2) =
      some (senderAt n, ⟨node 2, firstSession, n + 1, 1, none, none, none⟩) := rfl
  have hfrms : (senderAt n).fragmentsFrom (node 2) firstSession (n + 1) [7] 0 =
      [dataFrame (n + 1)] := by
    rw [fragmentsFrom, if_pos (by decide), fragmentsFrom, if_neg (by decide)]
    rfl
  have hsend : sendFrame true (dataFrame (n + 1)) = true := by
    simp [sendFrame, length_dataFrame]
  simp only [send, hread, hidx, submit, hfrms, transmitAll]
  rfl

/-- The acknowledgement of the receiver. -/
def ackOf (next : ℕ) : Bytes := (receiverAt 1 []).ackFrame (node 1) firstSession next

theorem length_ackOf (next : ℕ) : (ackOf next).length = 46 := by
  simp [ackOf, ackFrame, makeFrame, buildFrameHeader, buildHeader, ackHeader, receiverAt, node]

/-- The header of the data frame, as far as the receiver looks at it. -/
theorem header_dataFrame {seq : ℕ} (hseq : seq < 2 ^ 32) :
    ∃ header, parseFrameHeaderChecked (dataFrame seq) = .ok header ∧
      payloadOf header (dataFrame seq) = [7] ∧ header.destination = node 2 ∧ header.source = node 1 ∧
      header.message.session = firstSession ∧ header.message.sequence = seq ∧
      header.message.payloadLen = 1 ∧ header.message.has flagAck = false ∧
      header.message.has flagFrag = false := by
  obtain ⟨hprs, hpay⟩ := parse_dataFrame hseq
  obtain ⟨hack, -, hfrag, -⟩ := flags_fragmentHeader (senderAt 0) (node 2) firstSession seq 0 [7]
  exact ⟨_, hprs, hpay, rfl, rfl, rfl, rfl, rfl, hack, hfrag⟩

theorem frame_receiverAt {next : ℕ} (hnext : next < 2 ^ 32) (call : Call) :
    (receiverAt next []).handle (granting true true) (.frame call (dataFrame next)) =
      (receiverAt (succSeq next) [⟨node 1, [7]⟩],
        [.queued ⟨node 1, [7]⟩, .transmit (ackOf (succSeq next)) true, .reply call 0]) := by
  obtain ⟨_, hprs, hpay, hdst, hsrc, hses, hseq, hlen, hack, hfrag⟩ := header_dataFrame hnext
  have hdiff : next ≠ succSeq next := by
    unfold succSeq
    omega
  have hidx : (receiverAt next []).peerIndex (node 1) = some (receiverAt next [],
      ⟨node 1, firstSession, 1, next, none, none, some firstSession⟩) := rfl
  have hdeli : (receiverAt next []).deliver (granting true true)
      ⟨node 1, firstSession, 1, next, none, none, some firstSession⟩ [7] =
      (receiverAt (succSeq next) [⟨node 1, [7]⟩], [.queued ⟨node 1, [7]⟩]) := rfl
  have hpeer : (receiverAt (succSeq next) [⟨node 1, [7]⟩]).peer? (node 1) =
      some ⟨node 1, firstSession, 1, succSeq next, none, none, some firstSession⟩ := rfl
  have hackFrame : (receiverAt (succSeq next) [⟨node 1, [7]⟩]).ackFrame (node 1) firstSession
      (succSeq next) = ackOf (succSeq next) := rfl
  have hsend : sendFrame ((granting true true).accepts 0 0) (ackOf (succSeq next)) = true := by
    simp [sendFrame, length_ackOf, granting]
  have hadr : ¬ (node 2 ≠ (receiverAt next []).localMac ∨ node 1 = (receiverAt next []).localMac) := by
    change ¬ (node 2 ≠ node 2 ∨ node 1 = node 2)
    decide
  have hfrm : (receiverAt next []).processFrame (granting true true) (dataFrame next) =
      (receiverAt (succSeq next) [⟨node 1, [7]⟩],
        [.queued ⟨node 1, [7]⟩, .transmit (ackOf (succSeq next)) true]) := by
    simp only [processFrame, hprs, hdst, hsrc, if_neg hadr, hack, hfrag,
      Bool.and_false, Bool.false_and, Bool.false_eq_true, if_false, hidx, hpay, processData,
      Peer.acceptSession, hses, if_true, hlen, one_ne_zero, hseq, processExpected,
      hdeli, hpeer, if_neg hdiff, hackFrame, hsend]
    rfl
  have hsht : ¬ 4096 < (dataFrame next).length := by
    rw [length_dataFrame]
    decide
  simp only [Service.handle, if_neg hsht, hfrm]
  rfl

variable {n : ℕ}

theorem setPeer_sendingAt {call : Call} {peer : Peer} (h : peer.mac = node 2) :
    (sendingAt n call).setPeer peer = { senderAt n with peers := [peer] } := by
  simp [setPeer, sendingAt, h, senderAt]

theorem processFrame_sendingAt (hn : n + 2 < 2 ^ 32) (call : Call) :
    (sendingAt n call).processFrame (granting true true) (ackOf (n + 2)) =
      (senderAt (n + 1), [.reply call 1]) := by
  have hsucc : succSeq (n + 1) = n + 2 := by
    unfold succSeq
    omega
  have hses : firstSession < 2 ^ 64 := by decide
  have hprs : parseFrameHeaderChecked (ackOf (n + 2)) =
      .ok ((receiverAt 1 []).ackHeader (node 1) firstSession (n + 2)) :=
    parse_ackFrame rfl rfl hses
  have hackn : ((receiverAt 1 []).ackHeader (node 1) firstSession
      (n + 2)).message.acknowledgment = n + 1 := by
    simp only [ackHeader]
    omega
  have hidx : (sendingAt n call).peerIndex (node 2) = some (sendingAt n call,
      ⟨node 2, firstSession, succSeq (n + 1), 1, some ⟨n + 1, call, 1, [dataFrame (n + 1)], 0, 1⟩,
        none, none⟩) := rfl
  unfold processFrame
  rw [hprs]
  simp only
  rw [if_neg (by change ¬ (node 1 ≠ node 1 ∨ node 2 = node 1); decide)]
  rw [has_ackHeader]
  simp only [Bool.not_true, Bool.false_and, Bool.false_eq_true, if_false, if_true]
  rw [show ((receiverAt 1 []).ackHeader (node 1) firstSession (n + 2)).source = node 2 from rfl, hidx]
  simp only [processAck, hackn]
  rw [if_neg (by simp [ackHeader]), if_pos ⟨rfl, trivial⟩, hsucc, setPeer_sendingAt rfl]
  rfl

theorem frame_sendingAt (hn : n + 2 < 2 ^ 32) (call pump : Call) :
    (sendingAt n call).handle (granting true true) (.frame pump (ackOf (n + 2))) =
      (senderAt (n + 1), [.reply call 1, .reply pump 0]) := by
  have hsht : ¬ 4096 < (ackOf (n + 2)).length := by
    rw [length_ackOf]
    decide
  have hqt : (senderAt (n + 1)).deliverReceived = (senderAt (n + 1), []) := rfl
  rw [Service.handle, if_neg hsht, processFrame_sendingAt hn]
  simp only
  rfl

theorem recv_receiverAt (next : ℕ) (call : Call) :
    (receiverAt next [⟨node 1, [7]⟩]).handle (granting true true) (.recv call) =
      (receiverAt next [], [.replyMove call ⟨node 1, [7]⟩]) := rfl

namespace Network

/-- The message `[7]` is sent. -/
def sendSeven : Action := .sender (.send 0 (some (sendObject (node 2) [7]))) true true

variable {σ : Network}

theorem step_sendSeven {next : ℕ} {received : List ReceivedMessage}
    (hsen : σ.sender = senderAt n) (hrcv : σ.receiver = receiverAt next received) : σ.step sendSeven =
      { σ with
        sender := sendingAt n σ.calls
        net := σ.net ++ [dataFrame (n + 1)]
        calls := σ.calls + 1
        submitted := σ.submitted ++ [(σ.calls, [7])] } := by
  have hsend : σ.sender.handle (granting true true)
      (.send σ.calls 0 (some (sendObject (node 2) [7]))) =
      (sendingAt n σ.calls, [.transmit (dataFrame (n + 1)) true]) := by
    rw [hsen]
    exact send_senderAt n σ.calls
  have hread : σ.sender.readSend 0 (some (sendObject (node 2) [7])) = some (node 2, [7]) := by
    rw [hsen]
    rfl
  have hmac : node 2 = σ.receiver.localMac := by
    rw [hrcv]
    rfl
  simp only [step, sendSeven, request, hsend, submission, hread, if_pos hmac]
  simp [transmitted, repliesOf]

theorem step_data {next i : ℕ} (hnext : next < 2 ^ 32)
    (hrcv : σ.receiver = receiverAt next []) (hsen : σ.sender.localMac = node 1)
    (hi : σ.net[i]? = some (dataFrame next)) : σ.step (.receiver (.deliver i) true true) = { σ with
        receiver := receiverAt (succSeq next) [⟨node 1, [7]⟩]
        net := σ.net ++ [ackOf (succSeq next)]
        calls := σ.calls + 1
        queued := σ.queued ++ [[7]] } := by
  have hfrm : σ.receiver.handle (granting true true) (.frame σ.calls (dataFrame next)) =
      (receiverAt (succSeq next) [⟨node 1, [7]⟩],
        [.queued ⟨node 1, [7]⟩, .transmit (ackOf (succSeq next)) true, .reply σ.calls 0]) := by
    rw [hrcv]
    exact frame_receiverAt hnext σ.calls
  simp only [step, request, hi, map_some, hfrm]
  simp [transmitted, queuedFrom, hsen]

theorem step_ack {i : ℕ} {call : Call} (hn : n + 2 < 2 ^ 32)
    (hsen : σ.sender = sendingAt n call) (hi : σ.net[i]? = some (ackOf (n + 2))) :
    σ.step (.sender (.deliver i) true true) = { σ with
        sender := senderAt (n + 1)
        calls := σ.calls + 1
        replies := σ.replies ++ [(call, 1), (σ.calls, 0)] } := by
  have hfrm : σ.sender.handle (granting true true) (.frame σ.calls (ackOf (n + 2))) =
      (senderAt (n + 1), [.reply call 1, .reply σ.calls 0]) := by
    rw [hsen]
    exact frame_sendingAt hn call σ.calls
  simp only [step, request, hi, map_some, hfrm]
  simp [transmitted, repliesOf, submission]

theorem step_recv {next : ℕ} (hrcv : σ.receiver = receiverAt next [⟨node 1, [7]⟩]) :
    σ.step (.receiver .recv true true) =
      { σ with receiver := receiverAt next [], calls := σ.calls + 1 } := by
  have hrecv : σ.receiver.handle (granting true true) (.recv σ.calls) =
      (receiverAt next [], [.replyMove σ.calls ⟨node 1, [7]⟩]) := by
    rw [hrcv]
    exact recv_receiverAt next σ.calls
  simp only [step, request, hrecv]
  simp [transmitted, queuedFrom]

/-- `n` messages have been sent, queued, acknowledged and handed out, and the frame of the first
one is still on the link. -/
structure Round (n : ℕ) (σ : Network) : Prop where
  sender : σ.sender = senderAt n
  receiver : σ.receiver = receiverAt (n + 1) []
  first : σ.net[0]? = some (dataFrame 1)
  submitted : σ.submitted.length = n
  queued : σ.queued.length = n

theorem Round.next (h : Round n σ) (hn : n + 2 < 2 ^ 32) :
    ∃ actions, Round (n + 1) (σ.run actions) := by
  have hsucc : succSeq (n + 1) = n + 2 := by
    unfold succSeq
    omega
  refine ⟨[sendSeven, .receiver (.deliver σ.net.length) true true,
    .sender (.deliver (σ.net.length + 1)) true true, .receiver .recv true true], ?_⟩
  have hnet : 0 < σ.net.length := (List.getElem?_eq_some_iff.mp h.first).1
  simp only [run, foldl_cons, foldl_nil]
  have hseq : n + 1 < 2 ^ 32 := by omega
  rw [step_sendSeven h.sender h.receiver]
  rw [step_data hseq (by exact h.receiver) rfl (by simp)]
  rw [step_ack hn rfl (by simp [hsucc]), step_recv rfl]
  exact
    { sender := rfl
      receiver := by rw [hsucc]
      first := by
        rw [append_assoc, getElem?_append_left hnet]
        exact h.first
      submitted := by simp [h.submitted]
      queued := by simp [h.queued] }

theorem Round.first_round :
    ∃ actions, Round 1 ((start (node 1) (node 2) 1 firstSession firstSession).run actions) := by
  refine ⟨[sendSeven, .receiver (.deliver 0) true true, .sender (.deliver 1) true true,
    .receiver .recv true true], ?_⟩
  constructor
  all_goals decide +kernel

/-- Every number of messages goes through that the session has sequence numbers for. -/
theorem Round.reached (hn : n + 2 < 2 ^ 32) :
    ∃ actions, Round (n + 1) ((start (node 1) (node 2) 1 firstSession firstSession).run actions) := by
  induction n with
  | zero => exact Round.first_round
  | succ n ih =>
    obtain ⟨actions, h⟩ := ih (by omega)
    obtain ⟨more, _⟩ := h.next (by omega)
    refine ⟨actions ++ more, ?_⟩
    rwa [run, foldl_append]

/-- The last sequence number of the session is used, and the frame of the first message is
delivered once more. -/
theorem Round.repeated (h : Round n σ) (hn : n + 2 = 2 ^ 32) :
    ∃ actions, (σ.run actions).submitted.length < (σ.run actions).queued.length := by
  have hsucc : succSeq (n + 1) = 1 := by
    unfold succSeq
    omega
  refine ⟨[sendSeven, .receiver (.deliver σ.net.length) true true, .receiver .recv true true,
    .receiver (.deliver 0) true true], ?_⟩
  have hnet : 0 < σ.net.length := (List.getElem?_eq_some_iff.mp h.first).1
  simp only [run, foldl_cons, foldl_nil]
  have hseq : n + 1 < 2 ^ 32 := by omega
  have hone : 1 < 2 ^ 32 := by decide
  rw [step_sendSeven h.sender h.receiver]
  rw [step_data (i := σ.net.length) hseq (by exact h.receiver) rfl (by simp), step_recv rfl]
  have hfst : ((σ.net ++ [dataFrame (n + 1)]) ++ [ackOf (succSeq (n + 1))])[0]? =
      some (dataFrame 1) := by
    rw [append_assoc, getElem?_append_left hnet]
    exact h.first
  rw [step_data hone (by rw [hsucc]) rfl hfst]
  simp [h.submitted, h.queued]

/-- More messages are queued than were ever submitted. -/
theorem message_repeated_after_wraparound : initialWireSession 1 = some firstSession ∧ ∃ actions,
        ¬ ((start (node 1) (node 2) 1 firstSession firstSession).run actions).Delivers := by
  obtain ⟨before, hround⟩ := Round.reached (n := 2 ^ 32 - 3) (by omega)
  obtain ⟨last, hmore⟩ := hround.repeated (by omega)
  refine ⟨by decide, before ++ last, ?_⟩
  rintro ⟨-, _, hsubl, hqu, -⟩
  rw [run, foldl_append] at hsubl hqu
  rw [run, run] at hmore
  rw [hqu, length_map] at hmore
  exact absurd hsubl.length_le (not_le.mpr hmore)

/-- A message goes through and is answered. -/
def exchange : List Action :=
  [sendSeven, .receiver (.deliver 0) true true, .sender (.deliver 1) true true]

theorem reliable_delivery_exchange :
    ((start (node 1) (node 2) 1 firstSession firstSession).run exchange).replies = [(0, 1), (2, 0)] ∧
      ((start (node 1) (node 2) 1 firstSession firstSession).run exchange).Delivers := by
  refine ⟨by decide +kernel, reliable_delivery (node 1) (node 2) rfl rfl (by decide) 1 firstSession
    firstSession (by decide) (by decide) exchange ?_ 3⟩
  intro i action hi
  match i with
  | 0 =>
    cases hi
    intro _ _
    decide +kernel
  | 1 =>
    cases hi
    trivial
  | 2 =>
    cases hi
    exact fun h => absurd rfl h
  | n + 3 => cases hi

end Network

end Charlotte.Relmsg
