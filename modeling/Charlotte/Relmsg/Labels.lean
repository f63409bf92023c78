import Charlotte.Lib.Runs
import Charlotte.Relmsg.Peers

/-!
# One label, one message

Everything a sender emits to a destination under one session and sequence number is a
part of one submitted message, as long as the NIC takes a message whole or not at all and
the sequence numbers of a session are not used up.
-/

namespace Charlotte.Relmsg

open Lib List Option

namespace Service

variable {s s' : Service} {env : Environment} {call : Call} {arg : ℕ} {object : Option Bytes}
  {destination d : Mac} {session seq offset : ℕ} {payload : Bytes} {effects : List Effect}

/-- The frame of a message at an offset. -/
def fragmentFrame (s : Service) (destination : Mac) (session seq : ℕ) (payload : Bytes)
    (offset : ℕ) : Bytes :=
  makeFrame (s.fragmentHeader destination session seq offset payload) (chunk payload offset)

theorem mem_fragmentsFrom {frame : Bytes} (hoff : offset % maxPayloadSize = 0)
    (h : frame ∈ s.fragmentsFrom destination session seq payload offset) :
    ∃ start, start < payload.length ∧ start % maxPayloadSize = 0 ∧
      frame = s.fragmentFrame destination session seq payload start := by
  fun_induction fragmentsFrom with
  | case1 offset hlt ih =>
    rcases mem_cons.mp h with rfl | hrest
    · exact ⟨offset, hlt, hoff, rfl⟩
    · by_cases hfull : maxPayloadSize ≤ payload.length - offset
      · refine ih ?_ hrest
        rw [min_eq_right hfull, Nat.add_mod_right]
        exact hoff
      · -- the last chunk: nothing follows it
        rw [fragmentsFrom, if_neg (by omega)] at hrest
        cases hrest
  | case2 offset hge => cases h

variable {n : ℕ}

/-- The n-th frame starts `n` full chunks after the first one. -/
theorem lt_of_lt_length_fragmentsFrom
    (h : n < (s.fragmentsFrom destination session seq payload offset).length) :
    offset + n * maxPayloadSize < payload.length := by
  fun_induction fragmentsFrom generalizing n with
  | case1 offset hlt ih =>
    cases n with
    | zero => omega
    | succ =>
      have hrest := ih (Nat.lt_of_succ_lt_succ h)
      rw [Nat.succ_mul]
      omega
  | case2 offset hge => exact absurd h (Nat.not_lt_zero n)

variable {accepts : ℕ → Bool} {frames : List Bytes}

theorem transmitAll_true (h : (transmitAll accepts n frames).1 = true) :
    (transmitAll accepts n frames).2 = frames.map fun frame => .transmit frame true := by
  induction frames generalizing n with
  | nil => rfl
  | cons frame rest ih =>
    unfold transmitAll at h ⊢
    split at h
    · rename_i hacce
      simp only [hacce, if_true, map_cons]
      rw [ih h]
    · cases h

/-- A refused message has been accepted as far as the first frame that is refused. -/
theorem transmitAll_of_accepts (hlen : ∀ frame ∈ frames, frame.length ≤ 4096)
    (hacce : ∀ m, m < frames.length → accepts (n + m) = true) :
    (transmitAll accepts n frames).1 = true := by
  induction frames generalizing n with
  | nil => rfl
  | cons frame rest ih =>
    have hfst : sendFrame (accepts n) frame = true := by
      have hzero := hacce 0 (Nat.zero_lt_succ _)
      rw [add_zero] at hzero
      simp [sendFrame, hzero, hlen frame mem_cons_self]
    unfold transmitAll
    simp only [hfst, if_true]
    refine ih (fun frame hfrm => hlen frame (mem_cons_of_mem _ hfrm)) ?_
    intro m hm
    have hnext := hacce (m + 1) (Nat.succ_lt_succ hm)
    rw [add_right_comm]
    exact hnext

theorem transmitAll_of_refused
    (h : accepts n = false) : ∀ frame, .transmit frame true ∉ (transmitAll accepts n frames).2 := by
  intro frame
  cases frames with
  | nil => exact not_mem_nil
  | cons => simp [transmitAll, sendFrame, h]

/-- The frames of a message to a peer. -/
def messageFrames (s : Service) (peer : Peer) (payload : Bytes) : List Bytes :=
  s.fragmentsFrom peer.mac peer.txSession peer.nextTxSeq payload 0

/-- The record of a message that is on its way to a peer. -/
def outbound (s : Service) (call : Call) (peer : Peer) (payload : Bytes) : Outbound :=
  { seq := peer.nextTxSeq
    reply := call
    payloadLen := payload.length
    frames := s.messageFrames peer payload
    retries := 0
    ticksUntilRetry := min (max (s.messageFrames peer payload).length 1) maxRetryDelayTicks }

/-- The record of a peer that a message has been submitted to. -/
def submitted (s : Service) (call : Call) (peer : Peer) (payload : Bytes) : Peer :=
  { peer with
    nextTxSeq := succSeq peer.nextTxSeq
    pending := some (s.outbound call peer payload) }

/-- The effect of an `OP_SEND`. -/
inductive SendStep (s : Service) (env : Environment) (call : Call) (arg : ℕ) (object : Option Bytes) :
    Service → List Effect → Prop
  | refuse {s' : Service} {value : ℤ} (hvalue : value < 0) (table : Table s s')
      (view : ∀ d, s'.view d = s.view d) : SendStep s env call arg object s' [.reply call value]
  | fail {s' : Service} {destination : Mac} {payload : Bytes}
      (hread : s.readSend arg object = some (destination, payload))
      (hfail : (transmitAll (env.accepts 0) 0 (s.messageFrames (s.view destination) payload)).1 = false)
      (table : Table s s') (view : ∀ d, s'.view d = s.view d) :
      SendStep s env call arg object s'
        ((transmitAll (env.accepts 0) 0 (s.messageFrames (s.view destination) payload)).2 ++
          [.reply call errPeerUnreachable])
  | submit {s' : Service} {destination : Mac} {payload : Bytes}
      (hread : s.readSend arg object = some (destination, payload))
      (hidle : (s.view destination).pending = none)
      (hsession : (s.view destination).txSession ≠ 0)
      (table : Table s s')
      (view : ∀ d, s'.view d =
        if destination = d then s.submitted call (s.view destination) payload else s.view d) :
      SendStep s env call arg object s'
        ((s.messageFrames (s.view destination) payload).map fun frame => .transmit frame true)

theorem fragmentsFrom_of_table (h : Table s s') :
    s'.fragmentsFrom destination session seq payload offset =
      s.fragmentsFrom destination session seq payload offset := by
  fun_induction s.fragmentsFrom destination session seq payload offset with
  | case1 offset hlt ih =>
    rw [fragmentsFrom, if_pos hlt, ih]
    simp only [fragmentHeader, h.localMac]
  | case2 offset hge => rw [fragmentsFrom, if_neg hge]

theorem sendStep_send (s : Service) (env : Environment) (call : Call) (arg : ℕ)
    (object : Option Bytes) :
    SendStep s env call arg object (s.send env call arg object).1 (s.send env call arg object).2 := by
  unfold send
  split
  · exact .refuse (by decide) (.refl s) fun _ => rfl
  rename_i destination payload hread
  split
  · exact .refuse (by decide) (.refl s) fun _ => rfl
  rename_i indexed _ hidx
  obtain ⟨rfl, hpeer, hview, -⟩ := peerIndex_spec hidx
  have htab := table_peerIndex hidx
  split
  · exact .refuse (by decide) htab hview
  rename_i hidle
  split
  · exact .refuse (by decide) htab hview
  rename_i hses
  have hfrms : indexed.fragmentsFrom (s.view destination).mac (s.view destination).txSession
      (s.view destination).nextTxSeq payload 0 = s.messageFrames (s.view destination) payload :=
    fragmentsFrom_of_table htab
  unfold submit
  simp only [hfrms]
  split
  · rename_i hok
    rw [transmitAll_true hok]
    refine .submit hread (by simpa using hidle) hses (htab.trans table_setPeer) fun d => ?_
    rw [view_setPeer, hview]
    · change (if (s.view destination).mac = d then s.submitted call (s.view destination) payload
        else s.view d) = _
      rw [mac_view]
    · simp only [mac_view, hpeer, isSome_some]
  · rename_i hfail
    exact .fail hread (by simpa using hfail) htab hview

end Service

open Service

/-- A message that a sender has put on the wire, with its label. -/
structure Submission where
  destination : Mac
  session : ℕ
  seq : ℕ
  payload : Bytes
  deriving DecidableEq, Repr

def Submission.label (e : Submission) : Mac × ℕ × ℕ := (e.destination, e.session, e.seq)

/-- The label fits the wire, and the message is one that `OP_SEND` takes. -/
structure Submission.Fits (e : Submission) : Prop where
  destination : e.destination.length = 6
  session : e.session < 2 ^ 64
  seq : e.seq < 2 ^ 32
  nonempty : 0 < e.payload.length
  length : e.payload.length ≤ maxMsg

/-- The frame is a part of the message, under its label. -/
structure Carries (source : Mac) (e : Submission) (header : FrameHeader) (data : Bytes) : Prop where
  source : header.source = source
  destination : header.destination = e.destination
  session : header.message.session = e.session
  sequence : header.message.sequence = e.seq
  ack : header.message.has flagAck = false
  syn : header.message.has flagSyn = true
  total : header.message.totalMessageLen = e.payload.length
  offset : header.message.fragmentOffset < e.payload.length
  start : header.message.fragmentOffset % maxPayloadSize = 0
  fragment : header.message.has flagFrag = decide (maxPayloadSize < e.payload.length)
  data : data = chunk e.payload header.message.fragmentOffset

/-- The frame is parsed as a part of the message. -/
def CarriesFrame (source : Mac) (e : Submission) (frame : Bytes) : Prop :=
  ∃ header, parseFrameHeaderChecked frame = .ok header ∧
    Carries source e header (payloadOf header frame)

/-- The frame is an acknowledgement. -/
def AckFrame (source destination : Mac) (session acknowledgment : ℕ) (frame : Bytes) : Prop :=
  ∃ header, parseFrameHeaderChecked frame = .ok header ∧ header.source = source ∧
    header.destination = destination ∧ header.message.has flagAck = true ∧
    header.message.session = session ∧ header.message.acknowledgment = acknowledgment

namespace Service

variable {s s' : Service} {env : Environment} {call : Call} {arg : ℕ} {object : Option Bytes}
  {destination d : Mac} {session seq offset : ℕ} {payload : Bytes} {effects : List Effect}
  {e : Submission}

theorem length_chunk (hoff : offset < payload.length) :
    (chunk payload offset).length = min (payload.length - offset) maxPayloadSize := by
  rw [chunk, length_take, length_drop]
  omega

theorem flags_fragmentHeader (s : Service) (destination : Mac) (session seq offset : ℕ)
    (payload : Bytes) : let header := (s.fragmentHeader destination session seq offset payload).message
    header.has flagAck = false ∧ header.has flagSyn = true ∧
      header.has flagFrag = decide (maxPayloadSize < payload.length) ∧ header.flags < 2 ^ 16 := by
  simp only [fragmentHeader, MessageHeader.has]
  by_cases hsg : payload.length ≤ maxPayloadSize
  · simp only [if_pos hsg, Nat.not_lt_of_le hsg]
    decide
  · simp only [if_neg hsg, Nat.lt_of_not_le hsg]
    split
    · decide
    · decide

theorem check_fragmentHeader (hoff : offset < payload.length)
    (hsta : offset % maxPayloadSize = 0) (hlen : payload.length ≤ maxMsg) :
    (s.fragmentHeader destination session seq offset payload).message.check = .ok () := by
  have hmsg : maxMsg = 1048576 := rfl
  have hmax : maxPayloadSize = 1454 := rfl
  by_cases hsg : payload.length ≤ maxPayloadSize
  · have hzero : offset = 0 := by
      rw [← hsta]
      exact (Nat.mod_eq_of_lt (by omega)).symm
    subst hzero
    apply check_single
    · simp only [fragmentHeader, if_pos hsg]
    · rfl
    · simp only [fragmentHeader]
      omega
    · exact min_le_right _ _
    · simp only [fragmentHeader]
      omega
  · apply check_fragment
    · simp only [fragmentHeader, if_neg hsg]
      split
      · rw [if_neg (by omega)]
      · rw [if_pos (by omega)]
    · simp only [fragmentHeader]
      omega
    · exact min_le_right _ _
    all_goals
      simp only [fragmentHeader]
      omega

theorem parse_fragmentFrame (hmac : s.localMac.length = 6) (he : e.Fits)
    (hoff : offset < e.payload.length) (hsta : offset % maxPayloadSize = 0) :
    parseFrameHeaderChecked (s.fragmentFrame e.destination e.session e.seq e.payload offset) =
        .ok (s.fragmentHeader e.destination e.session e.seq offset e.payload) ∧
      payloadOf (s.fragmentHeader e.destination e.session e.seq offset e.payload)
        (s.fragmentFrame e.destination e.session e.seq e.payload offset) = chunk e.payload offset := by
  have hmsg : maxMsg = 1048576 := rfl
  have hmax : maxPayloadSize = 1454 := rfl
  have hlen := he.length
  obtain ⟨-, -, -, hfl⟩ := flags_fragmentHeader s e.destination e.session e.seq offset e.payload
  have hfits : (s.fragmentHeader e.destination e.session e.seq offset e.payload).Fits := by
    refine ⟨he.destination, hmac, he.session, he.seq, by simp [fragmentHeader], ?_, ?_, ?_, hfl⟩
    all_goals
      simp only [fragmentHeader]
      omega
  exact parseFrameHeaderChecked_makeFrame hfits (check_fragmentHeader hoff hsta hlen)
    (length_chunk hoff)

theorem carries_fragmentFrame (hmac : s.localMac.length = 6) (he : e.Fits)
    (hoff : offset < e.payload.length) (hsta : offset % maxPayloadSize = 0) :
    CarriesFrame s.localMac e (s.fragmentFrame e.destination e.session e.seq e.payload offset) := by
  obtain ⟨hack, hsyn, hfrag, -⟩ :=
    flags_fragmentHeader s e.destination e.session e.seq offset e.payload
  obtain ⟨hprs, hpay⟩ := parse_fragmentFrame hmac he hoff hsta
  exact ⟨_, hprs, rfl, rfl, rfl, rfl, hack, hsyn, rfl, hoff, hsta, hfrag, hpay⟩

variable {mac : Mac} {nextRxSeq : ℕ}

theorem parse_ackFrame (hmac : s.localMac.length = 6)
    (hdst : mac.length = 6) (hses : session < 2 ^ 64) :
    parseFrameHeaderChecked (s.ackFrame mac session nextRxSeq) = .ok (s.ackHeader mac session nextRxSeq) := by
  have hfits : (s.ackHeader mac session nextRxSeq).Fits := by
    refine ⟨hdst, hmac, hses, ?_, Nat.mod_lt _ (by decide), ?_, ?_, ?_, ?_⟩
    all_goals
      simp only [ackHeader]
      decide
  exact (parseFrameHeaderChecked_makeFrame hfits (check_ack rfl rfl rfl rfl) length_nil).1

theorem has_ackHeader : (s.ackHeader mac session nextRxSeq).message.has flagAck = true := by
  simp only [ackHeader, MessageHeader.has]
  decide

theorem ackFrame_ackFrame (hmac : s.localMac.length = 6)
    (hdst : mac.length = 6) (hses : session < 2 ^ 64) :
    AckFrame s.localMac mac session ((nextRxSeq + (2 ^ 32 - 1)) % 2 ^ 32)
      (s.ackFrame mac session nextRxSeq) :=
  ⟨_, parse_ackFrame hmac hdst hses, rfl, rfl, has_ackHeader, rfl, rfl⟩

/-- The object of an `OP_SEND` names the destination and the payload. -/
def Names (object : Option Bytes) (destination : Mac) (payload : Bytes) : Prop :=
  ∃ bytes header, object = some bytes ∧ parseIpcMessageHeader bytes = some header ∧
    header.peer = destination ∧ payload = (bytes.drop ipcMessageHeaderSize).take header.payloadLen

theorem readSend_spec (h : s.readSend arg object = some (destination, payload)) :
    Names object destination payload ∧ destination.length = 6 ∧ destination ≠ s.localMac ∧
      0 < payload.length ∧ payload.length ≤ maxMsg := by
  simp only [readSend, bind_eq_bind, bind_eq_some_iff, reject_eq_some] at h
  obtain ⟨-, -, bytes, hobj, envelope, henv, -, hck, h⟩ := h
  cases h
  obtain ⟨hpeer, _⟩ := length_of_parseIpcMessageHeader henv
  simp only [Bool.or_eq_false_iff, beq_eq_false_iff_ne, ne_eq, decide_eq_false_iff_not,
    not_lt] at hck
  have hpay : ((bytes.drop ipcMessageHeaderSize).take envelope.payloadLen).length =
      envelope.payloadLen := by
    rw [length_take, length_drop]
    omega
  refine ⟨⟨bytes, envelope, hobj, henv, rfl, rfl⟩, hpeer, hck.1.2, ?_, ?_⟩
  · rw [hpay]
    exact pos_of_ne_zero hck.1.1.1
  · rw [hpay]
    exact hck.1.1.2

end Service

/-- What identifies a message on its way. -/
def Outbound.core (out : Outbound) : ℕ × Call × ℕ × List Bytes :=
  (out.seq, out.reply, out.payloadLen, out.frames)

/-- What can happen to the transmit side of a peer, a submission apart: the message on its way
is kept or done with, or it is given up together with its session. -/
inductive Settles (peer after : Peer) : Prop
  | keep (txSession : after.txSession = peer.txSession) (nextTxSeq : after.nextTxSeq = peer.nextTxSeq)
      (pending : ∀ out, after.pending = some out → ∃ old, peer.pending = some old ∧ out.core = old.core)
  | abandon (txSession : after.txSession = (nextWireSession peer.txSession).getD 0)
      (nextTxSeq : after.nextTxSeq = 1) (pending : after.pending = none)

variable {peer after : Peer}

/-- No other frames get on their way. -/
theorem Settles.frames {out : Outbound} (hset : Settles peer after) (hout : after.pending = some out) :
    ∃ old, peer.pending = some old ∧ out.frames = old.frames := by
  cases hset with
  | keep _ _ hpend =>
    obtain ⟨old, hold, hcore⟩ := hpend out hout
    exact ⟨old, hold, congrArg (·.2.2.2) hcore⟩
  | abandon _ _ hnone => cases hnone.symm.trans hout

theorem Settles.of_sameTx (h : SameTx peer after) : Settles peer after :=
  .keep h.txSession h.nextTxSeq fun out hout => ⟨out, h.pending ▸ hout, rfl⟩

theorem settles_tick (peer : Peer) : Settles peer (tick peer) := by
  unfold tick retransmitPeer
  split
  · exact .of_sameTx (.refl peer)
  rename_i pending hpend
  split
  · refine .keep rfl rfl fun out hout => ⟨pending, hpend, ?_⟩
    cases hout
    rfl
  · split
    · exact .abandon rfl rfl rfl
    · refine .keep rfl rfl fun out hout => ⟨pending, hpend, ?_⟩
      cases hout
      rfl

/-- A newer session is larger, and none follows an exhausted one. -/
theorem nextWireSession_spec {session : ℕ} (h : session < 2 ^ 64) :
    (nextWireSession session).getD 0 < 2 ^ 64 ∧
      ((nextWireSession session).getD 0 = 0 ∨ (nextWireSession session).getD 0 = session + 1) := by
  have hatt : sessionAttempts = 2 ^ 32 := rfl
  unfold nextWireSession
  simp only
  split
  · exact ⟨by simp, .inl rfl⟩
  · rename_i hnot
    refine ⟨?_, .inr rfl⟩
    rw [hatt] at hnot
    rw [getD_some]
    omega

namespace Service

variable {s s' : Service} {env : Environment} {call : Call} {arg : ℕ} {object : Option Bytes}
  {effects new : List Effect} {request : Request} {log : List Submission} {e : Submission}

/-- The label of a message has been used for the peer. -/
def Used (peer : Peer) (e : Submission) : Prop :=
  peer.txSession = 0 ∨ e.session < peer.txSession ∨
    (e.session = peer.txSession ∧ e.seq < peer.nextTxSeq)

theorem Used.of_settles (hses : peer.txSession < 2 ^ 64)
    (h : Used peer e) (hset : Settles peer after) : Used after e := by
  cases hset with
  | keep htx hseq =>
    rw [Used, htx, hseq]
    exact h
  | abandon htx hseq _ =>
    obtain ⟨-, hnext⟩ := nextWireSession_spec hses
    rw [Used, htx]
    rcases hnext with hzero | _
    · exact .inl hzero
    · rcases h with hzero | _ | ⟨_, -⟩
      · rw [hzero]
        exact .inl rfl
      · exact .inr (.inl (by omega))
      · exact .inr (.inl (by omega))

/-- The messages that a sender has put on the wire account for everything it has emitted and
will emit again. -/
structure Labeled (s : Service) (effects : List Effect) (log : List Submission) : Prop where
  localMac : s.localMac.length = 6
  nodup : (s.peers.map (·.mac)).Nodup
  session : ∀ d, (s.view d).txSession < 2 ^ 64
  seq : ∀ d, (s.view d).nextTxSeq < 2 ^ 32
  fits : ∀ e ∈ log, e.Fits
  used : ∀ e ∈ log, Used (s.view e.destination) e
  distinct : (log.map Submission.label).Nodup
  pending : ∀ d out, (s.view d).pending = some out → ∀ frame ∈ out.frames,
    ∃ e ∈ log, CarriesFrame s.localMac e frame
  emitted : ∀ frame, .transmit frame true ∈ effects → (∃ destination session acknowledgment,
      AckFrame s.localMac destination session acknowledgment frame) ∨
    ∃ e ∈ log, CarriesFrame s.localMac e frame

theorem Labeled.settle (h : Labeled s effects log) (table : Table s s')
    (hset : ∀ d, Settles (s.view d) (s'.view d)) (hnew : ∀ frame, .transmit frame true ∈ new →
      (∃ destination session acknowledgment,
        AckFrame s.localMac destination session acknowledgment frame) ∨
      ∃ e ∈ log, CarriesFrame s.localMac e frame) : Labeled s' (effects ++ new) log where
  localMac := table.localMac ▸ h.localMac
  nodup := table.nodup h.nodup
  session d := by
    cases hset d with
    | keep htx => exact htx ▸ h.session d
    | abandon htx => exact htx ▸ (nextWireSession_spec (h.session d)).1
  seq d := by
    cases hset d with
    | keep _ hseq => exact hseq ▸ h.seq d
    | abandon _ hseq =>
      rw [hseq]
      decide
  fits := h.fits
  used e he := (h.used e he).of_settles (h.session _) (hset _)
  distinct := h.distinct
  pending d out hout frame hfrm := by
    rw [table.localMac]
    obtain ⟨old, hold, hfrms⟩ := (hset d).frames hout
    exact h.pending d old hold frame (hfrms ▸ hfrm)
  emitted frame hfrm := by
    rw [table.localMac]
    exact (mem_append.mp hfrm).elim (h.emitted frame) (hnew frame)

variable {frame : Bytes}

/-- What an acknowledgement or data does to the transmit side of the peers. -/
theorem FrameStep.settles (h : FrameStep s env frame s' new) :
    Table s s' ∧ ∀ d, Settles (s.view d) (s'.view d) := by
  cases h with
  | ignore table view => exact ⟨table, fun d => view d ▸ .of_sameTx (.refl _)⟩
  | @ack header pending _ _ _ _ hpend _ _ table view =>
    refine ⟨table, fun d => ?_⟩
    rw [view d]
    split
    · rename_i hd
      subst hd
      exact .keep rfl rfl fun out hout => nomatch hout
    · exact .of_sameTx (.refl _)
  | @data header accepted after delivered _ _ _ _ hacc hstep table view =>
    refine ⟨table, fun d => ?_⟩
    rw [view d]
    split
    · rename_i hd
      subst hd
      exact .of_sameTx ((sameTx_acceptSession hacc).trans hstep.sameTx)
    · exact .of_sameTx (.refl _)

/-- A frame is answered by an acknowledgement at most. -/
theorem FrameStep.transmits (h : FrameStep s env frame s' new)
    (hmac : s.localMac.length = 6) {sent : Bytes} {accepted : Bool}
    (hsent : .transmit sent accepted ∈ new) : ∃ destination session acknowledgment,
      AckFrame s.localMac destination session acknowledgment sent := by
  cases h with
  | ignore => cases hsent
  | ack => cases mem_singleton.mp hsent
  | @data header accepted' after delivered hprs _ _ _ hacc hstep table view =>
    have hfits := fits_of_parse hprs
    have haf : after.mac = header.source := by
      rw [hstep.sameTx.mac, mac_acceptSession hacc, mac_view]
    rcases mem_append.mp hsent with hqu | hack
    · cases delivered with
      | none => cases hqu
      | some => cases mem_singleton.mp hqu
    · unfold ackEffects at hack
      split at hack
      · cases hack
      · cases mem_singleton.mp hack
        refine ⟨_, _, _, ackFrame_ackFrame hmac ?_ hfits.session⟩
        rw [haf]
        exact hfits.source

theorem deliverReceived_spec (s : Service) :
    Table s s.deliverReceived.1 ∧ (∀ d, s.deliverReceived.1.view d = s.view d) ∧
      ∀ frame accepted, .transmit frame accepted ∉ s.deliverReceived.2 := by
  unfold deliverReceived
  split
  · exact ⟨⟨rfl, rfl, id⟩, fun _ => rfl, by simp⟩
  · exact ⟨.refl s, fun _ => rfl, by simp⟩

/-- The fields of the receive side are equal. -/
structure SameRx (peer after : Peer) : Prop where
  remoteSession : after.remoteSession = peer.remoteSession
  nextRxSeq : after.nextRxSeq = peer.nextRxSeq
  reassembling : after.reassembling = peer.reassembling

theorem SameRx.refl (peer : Peer) : SameRx peer peer := ⟨rfl, rfl, rfl⟩

theorem sameRx_tick (peer : Peer) : SameRx peer (tick peer) := by
  unfold tick retransmitPeer
  split
  · exact .refl peer
  · split
    · exact ⟨rfl, rfl, rfl⟩
    · split
      · exact ⟨rfl, rfl, rfl⟩
      · exact ⟨rfl, rfl, rfl⟩

/-- A step that submits and takes nothing: it transmits what is on its way, and its replies are no
lengths of messages. -/
structure Quiet (s s' : Service) (new : List Effect) : Prop where
  table : Table s s'
  settles : ∀ d, Settles (s.view d) (s'.view d)
  sameRx : ∀ d, SameRx (s.view d) (s'.view d)
  sends : (s.peers.map (·.mac)).Nodup → ∀ frame, .transmit frame true ∈ new →
    ∃ d out, (s.view d).pending = some out ∧ frame ∈ out.frames
  replies : ∀ call value, .reply call value ∈ new → ¬ 0 < value
  queued : ∀ message, .queued message ∉ new

theorem quiet_refused {value : ℤ} (hvl : value < 0) (table : Table s s')
    (view : ∀ d, s'.view d = s.view d) : Quiet s s' [.reply call value] where
  table
  settles d := view d ▸ .of_sameTx (.refl _)
  sameRx d := view d ▸ .refl _
  sends := by simp
  replies _ _ hrpl := by
    cases mem_singleton.mp hrpl
    omega
  queued := by simp

theorem quiet_recv (s : Service) (call : Call) : Quiet s (s.recv call).1 (s.recv call).2 := by
  unfold recv
  split
  · exact quiet_refused (by decide) (.refl s) fun _ => rfl
  · unfold deliverReceived
    split <;> exact ⟨⟨rfl, rfl, id⟩, fun _ => .of_sameTx (.refl _), fun _ => .refl _,
      by simp, by simp, by simp⟩

theorem quiet_tick (s : Service) (env : Environment) :
    Quiet s (s.retransmitPending env).1 (s.retransmitPending env).2 where
  table := table_retransmitPending
  settles d := by
    rw [view_retransmitPending]
    exact settles_tick _
  sameRx d := by
    rw [view_retransmitPending]
    exact sameRx_tick _
  sends hnd frame hfrm := by
    obtain ⟨peer, hpeer, out, hout, ⟨_, hsent, _, heq⟩ | heq⟩ := mem_effects_retransmitPending hfrm
    · cases heq
      exact ⟨peer.mac, out, (view_of_mem hnd hpeer).symm ▸ hout, hsent⟩
    · cases heq
  replies _ _ hrpl := by
    obtain ⟨_, -, _, -, ⟨_, _, _, heq⟩ | heq⟩ := mem_effects_retransmitPending hrpl
    · cases heq
    · cases heq
      decide
  queued _ hmsg := by
    obtain ⟨_, -, _, -, ⟨_, _, _, heq⟩ | heq⟩ := mem_effects_retransmitPending hmsg
    · cases heq
    · cases heq

theorem Labeled.quiet (h : Labeled s effects log) (q : Quiet s s' new) :
    Labeled s' (effects ++ new) log := by
  refine h.settle q.table q.settles fun frame hfrm => ?_
  obtain ⟨d, out, hout, hmem⟩ := q.sends h.nodup frame hfrm
  exact .inr (h.pending d out hout frame hmem)

/-- The NIC takes the message of an `OP_SEND` whole or refuses its first frame, and the
session has a sequence number left for another one. -/
def Whole (s : Service) (env : Environment) : Request → Prop
  | .send _ arg object => ∀ destination payload, s.readSend arg object = some (destination, payload) →
      (s.view destination).nextTxSeq < 2 ^ 32 - 1 ∧
        (env.accepts 0 0 = true → ∀ n, n * maxPayloadSize < payload.length → env.accepts 0 n = true)
  | _ => True

variable {destination : Mac} {payload : Bytes}

theorem length_messageFrames (hmac : s.localMac.length = 6) (hdst : destination.length = 6)
    (h : frame ∈ s.messageFrames (s.view destination) payload) : frame.length ≤ 4096 := by
  obtain ⟨_, hsta, -, rfl⟩ := mem_fragmentsFrom (Nat.zero_mod _) h
  have hmax : maxPayloadSize = 1454 := rfl
  have hchunk := length_chunk hsta
  rw [fragmentFrame, makeFrame, length_append, hchunk]
  simp only [buildFrameHeader, buildHeader, fragmentHeader, length_append, length_beBytes,
    mac_view, hdst, hmac]
  omega

/-- A message that is not taken whole has not left at all. -/
theorem not_accepted_of_fail (hmac : s.localMac.length = 6) (hdst : destination.length = 6)
    (hwh : env.accepts 0 0 = true → ∀ n, n * maxPayloadSize < payload.length → env.accepts 0 n = true)
    (hfail : (transmitAll (env.accepts 0) 0
      (s.messageFrames (s.view destination) payload)).1 = false) (frame : Bytes) :
    .transmit frame true ∉
      (transmitAll (env.accepts 0) 0 (s.messageFrames (s.view destination) payload)).2 := by
  cases hfst : env.accepts 0 0 with
  | false => exact transmitAll_of_refused hfst frame
  | true =>
    have hok : (transmitAll (env.accepts 0) 0
        (s.messageFrames (s.view destination) payload)).1 = true := by
      refine transmitAll_of_accepts (fun frame hfrm => length_messageFrames hmac hdst hfrm)
        fun n hn => ?_
      rw [zero_add]
      have hlt := lt_of_lt_length_fragmentsFrom hn
      rw [zero_add] at hlt
      exact hwh hfst n hlt
    rw [hok] at hfail
    cases hfail

/-- A submitted message is logged under the label that it uses up. -/
theorem Labeled.submit (h : Labeled s effects log)
    (hdst : destination.length = 6) (hpos : 0 < payload.length)
    (hlen : payload.length ≤ maxMsg) (hseq : (s.view destination).nextTxSeq < 2 ^ 32 - 1)
    (hses : (s.view destination).txSession ≠ 0) (table : Table s s') (hview : ∀ d, s'.view d =
      if destination = d then s.submitted call (s.view destination) payload else s.view d) :
    Labeled s' (effects ++ (s.messageFrames (s.view destination) payload).map
      fun frame => .transmit frame true)
      (log ++ [⟨destination, (s.view destination).txSession, (s.view destination).nextTxSeq,
        payload⟩]) := by
  have hsucc : succSeq (s.view destination).nextTxSeq = (s.view destination).nextTxSeq + 1 := by
    unfold succSeq
    omega
  have hfits : Submission.Fits ⟨destination, (s.view destination).txSession,
      (s.view destination).nextTxSeq, payload⟩ :=
    ⟨hdst, h.session _, by simp only; omega, hpos, hlen⟩
  have hfrms : ∀ frame ∈ s.messageFrames (s.view destination) payload,
      CarriesFrame s.localMac ⟨destination, (s.view destination).txSession,
        (s.view destination).nextTxSeq, payload⟩ frame := by
    intro frame hfrm
    obtain ⟨_, hsta, hmod, rfl⟩ := mem_fragmentsFrom (Nat.zero_mod _) hfrm
    rw [mac_view]
    exact carries_fragmentFrame h.localMac hfits hsta hmod
  refine ⟨table.localMac ▸ h.localMac, table.nodup h.nodup, fun d => ?_, fun d => ?_, ?_, ?_, ?_, ?_, ?_⟩
  · rw [hview d]
    split
    · exact h.session destination
    · exact h.session d
  · rw [hview d]
    split
    · simp only [submitted, hsucc]
      omega
    · exact h.seq d
  · exact forall_mem_append.mpr ⟨h.fits, forall_mem_singleton.mpr hfits⟩
  · intro e he
    rw [hview]
    rcases mem_append.mp he with hold | hnew
    · split
      · rename_i hd
        rw [hd]
        rcases h.used e hold with hzero | hlt | ⟨hsame, hlt⟩
        · exact absurd (hd ▸ hzero) hses
        · exact .inr (.inl hlt)
        · refine .inr (.inr ⟨hsame, ?_⟩)
          simp only [submitted]
          rw [← hd, hsucc, hd]
          omega
      · exact h.used e hold
    · cases mem_singleton.mp hnew
      simp only [if_true]
      refine .inr (.inr ⟨rfl, ?_⟩)
      simp only [submitted, hsucc]
      omega
  · rw [map_append, nodup_append]
    refine ⟨h.distinct, nodup_singleton _, ?_⟩
    rintro _ hold _ hnew rfl
    obtain ⟨e, he, hlab⟩ := mem_map.mp hold
    rw [map_singleton, mem_singleton, ← hlab] at hnew
    obtain ⟨hd, hsame, hused'⟩ : e.destination = destination ∧
        e.session = (s.view destination).txSession ∧ e.seq = (s.view destination).nextTxSeq := by
      simpa [Submission.label] using hnew
    have hused := h.used e he
    rw [hd] at hused
    rcases hused with hzero | _ | ⟨-, _⟩
    · exact hses hzero
    · omega
    · omega
  · intro d out hout frame hfrm
    rw [table.localMac]
    rw [hview d] at hout
    split at hout
    · cases hout
      exact ⟨_, mem_append_right _ (mem_singleton.mpr rfl), hfrms frame hfrm⟩
    · obtain ⟨e, he, hcar⟩ := h.pending d out hout frame hfrm
      exact ⟨e, mem_append_left _ he, hcar⟩
  · intro frame hfrm
    rw [table.localMac]
    rcases mem_append.mp hfrm with hold | hnew
    · rcases h.emitted frame hold with hack | ⟨e, he, hcar⟩
      · exact .inl hack
      · exact .inr ⟨e, mem_append_left _ he, hcar⟩
    · obtain ⟨_, hsent, heq⟩ := mem_map.mp hnew
      cases heq
      exact .inr ⟨_, mem_append_right _ (mem_singleton.mpr rfl), hfrms frame hsent⟩

/-- One request: everything emitted is still accounted for, and a message that is new in the
log is one that the request names. -/
theorem Labeled.handle (h : Labeled s effects log) (hwh : s.Whole env request) :
    ∃ fresh, Labeled (s.handle env request).1 (effects ++ (s.handle env request).2) (log ++ fresh) ∧
      ∀ e ∈ fresh, ∃ call arg object, request = .send call arg object ∧
        Names object e.destination e.payload := by
  cases request with
  | send call arg object =>
    have hstep := sendStep_send s env call arg object
    change ∃ fresh, Labeled (s.send env call arg object).1
      (effects ++ (s.send env call arg object).2) (log ++ fresh) ∧ _
    generalize (s.send env call arg object).1 = s' at hstep ⊢
    generalize (s.send env call arg object).2 = new at hstep ⊢
    cases hstep with
    | refuse hvl table view => exact ⟨[], by simpa using h.quiet (quiet_refused hvl table view), by simp⟩
    | fail hread hfail table view =>
      obtain ⟨-, hdst, -⟩ := readSend_spec hread
      refine ⟨[], ?_, by simp⟩
      rw [append_nil]
      refine h.settle table (fun d => view d ▸ .of_sameTx (.refl _)) fun frame hfrm => ?_
      rcases mem_append.mp hfrm with hsent | hrpl
      · exact absurd hsent (not_accepted_of_fail h.localMac hdst (hwh _ _ hread).2 hfail frame)
      · cases mem_singleton.mp hrpl
    | submit hread hidle hses table view =>
      obtain ⟨hnms, hdst, -, hpos, hlen⟩ := readSend_spec hread
      refine ⟨_, h.submit hdst hpos hlen (hwh _ _ hread).1 hses table view, ?_⟩
      intro e he
      cases mem_singleton.mp he
      exact ⟨call, arg, object, rfl, hnms⟩
  | recv call => exact ⟨[], by rw [append_nil]; exact h.quiet (quiet_recv s call), by simp⟩
  | frame call frame =>
    refine ⟨[], ?_, by simp⟩
    rw [append_nil]
    simp only [handle]
    split
    · exact h.quiet (quiet_refused (by decide) (.refl s) fun _ => rfl)
    have hstep := frameStep_processFrame s env frame
    obtain ⟨table, hset⟩ := hstep.settles
    obtain ⟨table', view, hnew⟩ := deliverReceived_spec (s.processFrame env frame).1
    refine h.settle (table.trans table') (fun d => ?_) fun sent hsent => ?_
    · rw [view d]
      exact hset d
    · rcases mem_append.mp hsent with hsent | hrpl
      · rcases mem_append.mp hsent with hsent | hdel
        · exact .inl (hstep.transmits h.localMac hsent)
        · exact absurd hdel (hnew sent true)
      · cases mem_singleton.mp hrpl
  | tick => exact ⟨[], by rw [append_nil]; exact h.quiet (quiet_tick s env), by simp⟩

/-- The state of a service and everything it has done, after a sequence of requests. -/
def serve (s : Service) (steps : List (Environment × Request)) : Service × List Effect :=
  steps.foldl (fun (s, effects) (env, request) =>
    ((s.handle env request).1, effects ++ (s.handle env request).2)) (s, [])

theorem lt_of_initialWireSession {generation session : ℕ}
    (h : initialWireSession generation = some session) : session < 2 ^ 64 := by
  have hatt : sessionAttempts = 2 ^ 32 := rfl
  unfold initialWireSession at h
  split at h
  · cases h
    rw [hatt]
    omega
  · cases h

theorem labeled_start {localMac : Mac} {session : ℕ} (hmac : localMac.length = 6)
    (hses : session < 2 ^ 64) : Labeled (start localMac session) [] [] := by
  refine ⟨hmac, nodup_nil, fun _ => hses, fun _ => ?_, by simp, by simp, .nil, ?_, by simp⟩
  · change 1 < 2 ^ 32
    decide
  · intro d out hout
    cases hout

/-- The message with a label. -/
def messageOf (log : List Submission) (destination : Mac) (session seq : ℕ) : Bytes :=
  ((log.find? fun e => e.destination == destination && e.session == session && e.seq == seq).map
    (·.payload)).getD []

theorem messageOf_eq (hdis : (log.map Submission.label).Nodup) (he : e ∈ log) :
    messageOf log e.destination e.session e.seq = e.payload := by
  unfold messageOf
  cases hfnd : log.find? fun a =>
      a.destination == e.destination && a.session == e.session && a.seq == e.seq with
  | none => exact absurd (by simp) (find?_eq_none.mp hfnd e he)
  | some a =>
    have hlab := find?_some hfnd
    simp only [Bool.and_eq_true, beq_iff_eq] at hlab
    have hsame : a.label = e.label := by
      simp only [Submission.label, hlab]
    rw [inj_on_of_nodup_map hdis (mem_of_find?_eq_some hfnd) he hsame]
    rfl

/-- All data frames that have left for a destination under one session and sequence number are
parts of one message, which a call has submitted for that destination. -/
def OneMessage (steps : List (Environment × Request)) (effects : List Effect) : Prop :=
  ∃ message : Mac → ℕ → ℕ → Bytes, ∀ frame header, .transmit frame true ∈ effects →
    parseFrameHeaderChecked frame = .ok header → header.message.has flagAck = false →
    ∃ payload, payload = message header.destination header.message.session header.message.sequence ∧
      header.message.totalMessageLen = payload.length ∧
      payloadOf header frame = chunk payload header.message.fragmentOffset ∧
      ∃ env call arg object, (env, .send call arg object) ∈ steps ∧
        Names object header.destination payload

/-- In every run in which the NIC takes messages whole and no session runs out of sequence
numbers, a label denotes one message. -/
theorem label_denotes_one_message (localMac : Mac) (hmac : localMac.length = 6) (generation session : ℕ)
    (hsession : initialWireSession generation = some session) (steps : List (Environment × Request))
    (hsteps : ∀ i env request, steps[i]? = some (env, request) →
      (serve (start localMac session) (steps.take i)).1.Whole env request) :
    OneMessage steps (serve (start localMac session) steps).2 := by
  have hinva : ∀ k, ∃ log, Labeled (serve (start localMac session) (steps.take k)).1
      (serve (start localMac session) (steps.take k)).2 log ∧
      ∀ e ∈ log, ∃ env call arg object, (env, .send call arg object) ∈ steps ∧
        Names object e.destination e.payload := by
    refine foldl_take_invariant (P := fun state : Service × List Effect => ∃ log, Labeled state.1 state.2 log ∧
      ∀ e ∈ log, ∃ env call arg object, (env, .send call arg object) ∈ steps ∧
        Names object e.destination e.payload) ?_ ?_
    · exact ⟨[], labeled_start hmac (lt_of_initialWireSession hsession), by simp⟩
    · rintro i ⟨env, request⟩ hi ⟨log, hlabe, hnms⟩
      obtain ⟨fresh, hnext, hfr⟩ := hlabe.handle (hsteps i env request hi)
      refine ⟨log ++ fresh, hnext, fun e he => ?_⟩
      rcases mem_append.mp he with hold | hnew
      · exact hnms e hold
      · obtain ⟨call, arg, object, rfl, hobj⟩ := hfr e hnew
        exact ⟨env, call, arg, object, mem_of_getElem? hi, hobj⟩
  obtain ⟨log, hlabe, hnms⟩ := hinva steps.length
  rw [take_length] at hlabe
  refine ⟨messageOf log, fun frame header hfrm hprs hdata => ?_⟩
  rcases hlabe.emitted frame hfrm with ⟨_, _, _, header', hprs', -, -, hack, -⟩ |
    ⟨e, he, header', hprs', hcar⟩
  · cases hprs.symm.trans hprs'
    rw [hack] at hdata
    cases hdata
  · cases hprs.symm.trans hprs'
    refine ⟨e.payload, ?_, hcar.total, hcar.data, ?_⟩
    · rw [hcar.destination, hcar.session, hcar.sequence]
      exact (messageOf_eq hlabe.distinct he).symm
    · rw [hcar.destination]
      exact hnms e he

end Service

/-! ### A message that the NIC takes in part -/

open Service

def node (n : UInt8) : Mac := [2, 0, 0, 0, 0, n]

def sendObject (destination : Mac) (payload : Bytes) : Bytes :=
  buildIpcMessageHeader destination payload.length ++ payload

/-- A system that grants everything. -/
def willing : Environment := ⟨fun _ _ => true, true, true⟩

/-- The NIC takes the first frame only. -/
def firstOnly : Environment := ⟨fun _ n => n == 0, true, true⟩

/-- A message of two frames of which one leaves, and then a message of one frame. -/
def cutShort : List (Environment × Request) :=
  [(firstOnly, .send 1 0 (some (sendObject (node 2) (replicate 1455 1)))),
    (firstOnly, .send 2 0 (some (sendObject (node 2) [2])))]

/-- The same messages, all of whose frames leave. -/
def sentWhole : List (Environment × Request) := cutShort.map fun step => (willing, step.2)

theorem label_denotes_one_message_willing : ∃ session, initialWireSession 1 = some session ∧
      OneMessage sentWhole (serve (start (node 1) session) sentWhole).2 := by
  refine ⟨2 ^ 32 + 1, rfl, label_denotes_one_message (node 1) rfl 1 (2 ^ 32 + 1) rfl sentWhole ?_⟩
  intro i env request hi
  have hread : (start (node 1) (2 ^ 32 + 1)).readSend 0
        (some (sendObject (node 2) (replicate 1455 1))) = some (node 2, replicate 1455 1) ∧
      (serve (start (node 1) (2 ^ 32 + 1)) (sentWhole.take 1)).1.readSend 0
        (some (sendObject (node 2) [2])) = some (node 2, [2]) := by
    decide +kernel
  match i with
  | 0 =>
    cases hi
    intro destination payload h
    cases h.symm.trans hread.1
    exact ⟨by decide +kernel, fun _ _ _ => rfl⟩
  | 1 =>
    cases hi
    intro destination payload h
    cases h.symm.trans hread.2
    exact ⟨by decide +kernel, fun _ _ _ => rfl⟩
  | n + 2 => cases hi

/-- Frames of both messages leave under sequence number 1 of the same session. -/
theorem label_reused_after_refusal : ∃ session, initialWireSession 1 = some session ∧
      ¬ OneMessage cutShort (serve (start (node 1) session) cutShort).2 := by
  refine ⟨2 ^ 32 + 1, rfl, ?_⟩
  rintro ⟨_, h⟩
  let s := start (node 1) (2 ^ 32 + 1)
  have hfst : .transmit (s.fragmentFrame (node 2) (2 ^ 32 + 1) 1 (replicate 1455 1) 0) true ∈
        (serve s cutShort).2 ∧
      parseFrameHeaderChecked (s.fragmentFrame (node 2) (2 ^ 32 + 1) 1 (replicate 1455 1) 0) =
        .ok (s.fragmentHeader (node 2) (2 ^ 32 + 1) 1 0 (replicate 1455 1)) := by
    decide +kernel
  have hsec : .transmit (s.fragmentFrame (node 2) (2 ^ 32 + 1) 1 [2] 0) true ∈
        (serve s cutShort).2 ∧
      parseFrameHeaderChecked (s.fragmentFrame (node 2) (2 ^ 32 + 1) 1 [2] 0) =
        .ok (s.fragmentHeader (node 2) (2 ^ 32 + 1) 1 0 [2]) := by
    decide +kernel
  obtain ⟨_, rfl, hlong, -⟩ := h _ _ hfst.1 hfst.2 (by decide +kernel)
  obtain ⟨_, rfl, hsht, -⟩ := h _ _ hsec.1 hsec.2 (by decide)
  exact absurd (hlong.trans hsht.symm) (by decide +kernel)

end Charlotte.Relmsg
