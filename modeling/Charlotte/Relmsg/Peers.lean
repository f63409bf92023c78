import Charlotte.Relmsg.Service

/-!
# What a request does to the peers

A peer that is not in the table yet counts as the record it will be entered with. Seen
this way a request changes the record of one peer, or, for the timer, each record by
itself.
-/

namespace Charlotte.Relmsg

open Lib List Option Function
open Std (ExtTreeMap)

namespace Service

variable {s s' : Service} {env : Environment} {peer p : Peer} {mac d : Mac}

/-- The record of a peer, or the one it would be entered with. -/
def view (s : Service) (mac : Mac) : Peer := (s.peer? mac).getD (.new mac s.localSession)

theorem mac_of_peer? (h : s.peer? mac = some peer) : peer.mac = mac := by
  simpa using find?_some h

@[simp] theorem mac_view : (s.view mac).mac = mac := by
  unfold view
  cases hpeer : s.peer? mac with
  | none => rfl
  | some => exact mac_of_peer? hpeer

theorem peer?_setPeer : (s.setPeer p).peer? d =
    if p.mac = d then (s.peer? d).map fun _ => p else s.peer? d := by
  have hmac : ((fun other : Peer => other.mac == d) ∘ fun other => if other.mac = p.mac then p else other) =
      fun other => other.mac == d := by
    funext other
    simp only [comp_apply]
    split
    · rename_i hsame
      rw [hsame]
    · rfl
  rw [peer?, setPeer, find?_map, hmac]
  change Option.map _ (s.peer? d) = _
  cases hpeer : s.peer? d with
  | none => simp
  | some =>
    have hfnd := mac_of_peer? hpeer
    by_cases hd : p.mac = d
    · simp [hfnd, hd]
    · simp [hfnd, hd, Ne.symm hd]

theorem view_setPeer (h : (s.peer? p.mac).isSome) :
    (s.setPeer p).view d = if p.mac = d then p else s.view d := by
  rw [view, peer?_setPeer]
  by_cases hd : p.mac = d
  · subst hd
    obtain ⟨_, hfnd⟩ := isSome_iff_exists.mp h
    simp [hfnd]
  · simp only [if_neg hd]
    rfl

theorem peerIndex_spec (h : s.peerIndex mac = some (s', peer)) :
    peer = s.view mac ∧ s'.peer? mac = some peer ∧ (∀ d, s'.view d = s.view d) ∧
      s'.localMac = s.localMac ∧ s'.localSession = s.localSession ∧ s'.received = s.received ∧
      s'.pendingRecv = s.pendingRecv := by
  unfold peerIndex at h
  split at h
  · rename_i hfnd
    cases h
    refine ⟨?_, hfnd, fun _ => rfl, rfl, rfl, rfl, rfl⟩
    rw [view, hfnd]
    rfl
  · rename_i hnone
    split at h
    · cases h
    cases h
    have hpeer : ∀ d, { s with peers := s.peers ++ [Peer.new mac s.localSession] }.peer? d =
        (s.peer? d).or (if mac = d then some (Peer.new mac s.localSession) else none) := by
      intro d
      rw [peer?, find?_append, find?_singleton]
      change (s.peer? d).or _ = _
      simp [Peer.new]
    refine ⟨?_, ?_, fun d => ?_, rfl, rfl, rfl, rfl⟩
    · rw [view, hnone]
      rfl
    · rw [hpeer, hnone]
      simp
    · rw [view, hpeer, view]
      cases hold : s.peer? d with
      | some => rfl
      | none =>
        by_cases hd : mac = d
        · subst hd
          simp
        · simp [hd]

/-! ### The timer -/

theorem fst_retransmitPeer (accepts : ℕ → Bool) :
    (retransmitPeer accepts peer).1 = (retransmitPeer (fun _ => true) peer).1 := by
  unfold retransmitPeer
  split
  · rfl
  · split
    · rfl
    · split <;> rfl

@[simp] theorem mac_retransmitPeer {accepts : ℕ → Bool} :
    (retransmitPeer accepts peer).1.mac = peer.mac := by
  unfold retransmitPeer
  split
  · rfl
  · split
    · rfl
    · split <;> rfl

/-- The record of a peer after the timer. -/
def tick (peer : Peer) : Peer := (retransmitPeer (fun _ => true) peer).1

variable {session : ℕ}

theorem tick_new : tick (.new mac session) = .new mac session := rfl

theorem peers_retransmitPending : (s.retransmitPending env).1.peers = s.peers.map tick := by
  have hfst : (s.retransmitPending env).1.peers = s.peers.zipIdx.map (tick ∘ Prod.fst) := by
    change List.map Prod.fst (List.map _ _) = _
    rw [List.map_map]
    exact map_congr_left fun record _ => fst_retransmitPeer _
  rw [hfst, ← List.map_map, List.zipIdx_map_fst]

theorem view_retransmitPending : (s.retransmitPending env).1.view d = tick (s.view d) := by
  have hmac : ((fun other : Peer => other.mac == d) ∘ tick) = fun other => other.mac == d := by
    funext other
    simp [tick]
  have hfind : (s.retransmitPending env).1.peer? d = (s.peer? d).map tick := by
    rw [peer?, peers_retransmitPending, find?_map, hmac]
    rfl
  rw [view, hfind, view]
  cases hpeer : s.peer? d with
  | none => exact tick_new.symm
  | some => rfl

/-- What the timer transmits is a frame that is on the way. -/
theorem mem_effects_retransmitPending {effect : Effect} (h : effect ∈ (s.retransmitPending env).2) :
    ∃ peer ∈ s.peers, ∃ pending, peer.pending = some pending ∧
      ((∃ frame ∈ pending.frames, ∃ accepted, effect = .transmit frame accepted) ∨
        effect = .reply pending.reply errPeerUnreachable) := by
  obtain ⟨_, hres, heff⟩ := mem_flatMap.mp h
  obtain ⟨⟨peer, m⟩, hpeer, rfl⟩ := mem_map.mp hres
  have hmem : peer ∈ s.peers := fst_mem_of_mem_zipIdx hpeer
  refine ⟨peer, hmem, ?_⟩
  simp only [retransmitPeer] at heff
  split at heff
  · cases heff
  rename_i pending hpend
  refine ⟨pending, hpend, ?_⟩
  split at heff
  · cases heff
  · split at heff
    · exact .inr (mem_singleton.mp heff)
    · obtain ⟨⟨frame, n⟩, hfrm, rfl⟩ := mem_map.mp heff
      exact .inl ⟨frame, fst_mem_of_mem_zipIdx hfrm, _, rfl⟩

/-! ### Frames from the network -/

/-- What the receiver does with a data frame of an accepted session: the record of the peer
afterwards, and the message that is queued. -/
inductive DataStep (peer : Peer) (message : MessageHeader) (payload : Bytes) :
    Peer → Option Bytes → Prop
  | skip : DataStep peer message payload peer none
  | single (hsingle : message.has flagFrag = false) (hnext : message.sequence = peer.nextRxSeq) :
      DataStep peer message payload { peer with nextRxSeq := succSeq peer.nextRxSeq } (some payload)
  | fragment {buffered : ℕ} (hfragment : message.has flagFrag = true)
      (hnext : message.sequence = peer.nextRxSeq) :
      DataStep peer message payload (peer.buffer buffered message payload) none
  | drop {buffered : ℕ} (hfragment : message.has flagFrag = true)
      (hnext : message.sequence = peer.nextRxSeq) :
      DataStep peer message payload
        { peer.buffer buffered message payload with reassembling := none } none
  | assembled {buffered : ℕ} {reassembly : Reassembly} {reserved : Bool} {bytes : Bytes}
      (hfragment : message.has flagFrag = true) (hnext : message.sequence = peer.nextRxSeq)
      (hreassembly : (peer.buffer buffered message payload).reassembling = some reassembly)
      (hassemble : assemble reassembly maxMsg reserved = some bytes) :
      DataStep peer message payload
        { peer.buffer buffered message payload with
          reassembling := none
          nextRxSeq := succSeq peer.nextRxSeq } (some bytes)

/-- The receive side aside, the records are equal. -/
structure SameTx (peer after : Peer) : Prop where
  mac : after.mac = peer.mac
  txSession : after.txSession = peer.txSession
  nextTxSeq : after.nextTxSeq = peer.nextTxSeq
  pending : after.pending = peer.pending

theorem SameTx.refl (peer : Peer) : SameTx peer peer := ⟨rfl, rfl, rfl, rfl⟩

theorem SameTx.trans {a b c : Peer} (hab : SameTx a b) (hbc : SameTx b c) : SameTx a c :=
  ⟨hbc.mac.trans hab.mac, hbc.txSession.trans hab.txSession, hbc.nextTxSeq.trans hab.nextTxSeq,
    hbc.pending.trans hab.pending⟩

theorem buffer_eq (peer : Peer) (buffered : ℕ) (message : MessageHeader) (payload : Bytes) :
    ∃ reassembling, peer.buffer buffered message payload = { peer with reassembling } := by
  unfold Peer.buffer
  simp only
  split
  · exact ⟨_, rfl⟩
  · split
    · exact ⟨_, rfl⟩
    · split
      · exact ⟨_, rfl⟩
      · exact ⟨_, rfl⟩

variable {buffered : ℕ} {message : MessageHeader} {payload : Bytes}

theorem sameTx_buffer : SameTx peer (peer.buffer buffered message payload) := by
  obtain ⟨_, h⟩ := buffer_eq peer buffered message payload
  rw [h]
  exact ⟨rfl, rfl, rfl, rfl⟩

theorem nextRxSeq_buffer : (peer.buffer buffered message payload).nextRxSeq = peer.nextRxSeq := by
  obtain ⟨_, h⟩ := buffer_eq peer buffered message payload
  rw [h]

theorem remoteSession_buffer :
    (peer.buffer buffered message payload).remoteSession = peer.remoteSession := by
  obtain ⟨_, h⟩ := buffer_eq peer buffered message payload
  rw [h]

variable {after : Peer}

theorem DataStep.sameTx {delivered : Option Bytes} (h : DataStep peer message payload after delivered) :
    SameTx peer after := by
  cases h with
  | skip => exact .refl peer
  | single => exact ⟨rfl, rfl, rfl, rfl⟩
  | fragment => exact sameTx_buffer
  | drop | assembled => exact sameTx_buffer.trans ⟨rfl, rfl, rfl, rfl⟩

variable {syn : Bool}

variable (h : peer.acceptSession session syn = some after)
include h

theorem acceptSession_spec : (peer.remoteSession = some session ∧ after = peer) ∨
      (peer.remoteSession ≠ some session ∧ syn = true ∧
        wireSessionIsNewer session (peer.remoteSession.getD 0) = true ∧
        after = { peer with remoteSession := some session, nextRxSeq := 1, reassembling := none }) := by
  unfold Peer.acceptSession at h
  split at h
  · rename_i hsame
    exact .inl ⟨hsame, (some.inj h).symm⟩
  rename_i hoth
  split at h
  · cases h
  · rename_i hnw
    simp only [Bool.or_eq_true, Bool.not_eq_true', not_or, Bool.not_eq_false] at hnw
    exact .inr ⟨hoth, hnw.1, hnw.2, (some.inj h).symm⟩

theorem sameTx_acceptSession : SameTx peer after := by
  rcases acceptSession_spec h with ⟨-, rfl⟩ | ⟨-, -, -, rfl⟩
  · exact .refl after
  · exact ⟨rfl, rfl, rfl, rfl⟩

omit h

/-- The identity of the service, and that its table has one record for each peer. -/
structure Table (s s' : Service) : Prop where
  localMac : s'.localMac = s.localMac
  localSession : s'.localSession = s.localSession
  nodup : (s.peers.map (·.mac)).Nodup → (s'.peers.map (·.mac)).Nodup

theorem Table.refl (s : Service) : Table s s := ⟨rfl, rfl, id⟩

theorem Table.trans {a b c : Service} (hab : Table a b) (hbc : Table b c) : Table a c :=
  ⟨hbc.localMac.trans hab.localMac, hbc.localSession.trans hab.localSession, hbc.nodup ∘ hab.nodup⟩

theorem table_setPeer : Table s (s.setPeer p) := by
  refine ⟨rfl, rfl, fun h => ?_⟩
  have hmacs : (s.setPeer p).peers.map (·.mac) = s.peers.map (·.mac) := by
    rw [setPeer, List.map_map]
    refine map_congr_left fun other _ => ?_
    simp only [comp_apply]
    split
    · rename_i hsame
      exact hsame.symm
    · rfl
  rw [hmacs]
  exact h

theorem table_peerIndex (h : s.peerIndex mac = some (s', peer)) : Table s s' := by
  refine ⟨(peerIndex_spec h).2.2.2.1, (peerIndex_spec h).2.2.2.2.1, fun hnd => ?_⟩
  unfold peerIndex at h
  split at h
  · cases h
    exact hnd
  rename_i hnone
  split at h
  · cases h
  cases h
  rw [map_append, nodup_append]
  refine ⟨hnd, by simp, ?_⟩
  rintro a ha b hb rfl
  obtain ⟨other, hoth, rfl⟩ := mem_map.mp ha
  have hne := find?_eq_none.mp hnone other hoth
  exact hne (by simpa [Peer.new] using hb)

theorem table_retransmitPending : Table s (s.retransmitPending env).1 := by
  refine ⟨rfl, rfl, fun h => ?_⟩
  have hmacs : (s.peers.map tick).map (·.mac) = s.peers.map (·.mac) := by
    rw [List.map_map]
    exact map_congr_left fun other _ => by simp [tick]
  rw [peers_retransmitPending, hmacs]
  exact h

/-- In a table with one record for each peer, each record is the view of its peer. -/
theorem view_of_mem (hnd : (s.peers.map (·.mac)).Nodup) (h : peer ∈ s.peers) :
    s.view peer.mac = peer := by
  have hfind : s.peer? peer.mac = some peer := by
    unfold peer?
    cases hfnd : s.peers.find? (·.mac == peer.mac) with
    | none => exact absurd (by simp) (find?_eq_none.mp hfnd peer h)
    | some other =>
      have hmac : other.mac = peer.mac := by simpa using find?_some hfnd
      rw [inj_on_of_nodup_map hnd (mem_of_find?_eq_some hfnd) h hmac]
  rw [view, hfind]
  rfl

/-- The frame that acknowledges what has been received. -/
def ackEffects (s : Service) (env : Environment) (after : Peer) (message : MessageHeader) :
    List Effect :=
  if message.payloadLen = 0 ∨ message.sequence = after.nextRxSeq then []
  else
    let ack := s.ackFrame after.mac message.session after.nextRxSeq
    [.transmit ack (sendFrame (env.accepts 0 0) ack)]

theorem deliver_cases (s : Service) (env : Environment) (peer : Peer) (payload : Bytes) :
    (s.deliver env peer payload = (s.setPeer peer, [])) ∨ (∃ received, s.deliver env peer payload =
        ({ s with received }.setPeer { peer with nextRxSeq := succSeq peer.nextRxSeq },
          [.queued ⟨peer.mac, payload⟩])) := by
  unfold deliver
  split
  · exact .inl rfl
  rename_i hqueue
  unfold queueReceived at hqueue
  split at hqueue
  · cases hqueue
  · cases hqueue
    exact .inr ⟨_, rfl⟩

/-- Storing a record that is in the table. -/
structure Stores (s s' : Service) (after : Peer) : Prop where
  table : Table s s'
  peer : s'.peer? after.mac = some after
  view : ∀ d, s'.view d = if after.mac = d then after else s.view d

theorem stores_setPeer (h : (s.peer? p.mac).isSome) : Stores s (s.setPeer p) p := by
  refine ⟨table_setPeer, ?_, fun d => view_setPeer h⟩
  obtain ⟨_, hfnd⟩ := isSome_iff_exists.mp h
  simp [peer?_setPeer, hfnd]

/-- The messages that a step queues. -/
def queuedEffects (mac : Mac) (delivered : Option Bytes) : List Effect :=
  (delivered.map fun bytes => Effect.queued ⟨mac, bytes⟩).toList

theorem deliver_stores (h : (s.peer? peer.mac).isSome) (payload : Bytes) :
    (∃ s', s.deliver env peer payload = (s', queuedEffects peer.mac none) ∧ Stores s s' peer) ∨
      ∃ s', s.deliver env peer payload = (s', queuedEffects peer.mac (some payload)) ∧
        Stores s s' { peer with nextRxSeq := succSeq peer.nextRxSeq } := by
  rcases deliver_cases s env peer payload with hkeep | ⟨received, hdeli⟩
  · exact .inl ⟨_, hkeep, stores_setPeer h⟩
  · refine .inr ⟨_, hdeli, ?_⟩
    have hsto : Stores { s with received } ({ s with received }.setPeer
        { peer with nextRxSeq := succSeq peer.nextRxSeq }) { peer with nextRxSeq := succSeq peer.nextRxSeq } :=
      stores_setPeer h
    exact ⟨⟨rfl, rfl, hsto.table.nodup⟩, hsto.peer, hsto.view⟩

theorem processExpected_spec
    (hpeer : (s.peer? peer.mac).isSome) (hnext : message.sequence = peer.nextRxSeq) :
    ∃ s' after delivered, DataStep peer message payload after delivered ∧ Stores s s' after ∧
      s.processExpected env peer message payload = (s', queuedEffects peer.mac delivered) := by
  unfold processExpected
  cases hfrag : message.has flagFrag with
  | false =>
    obtain ⟨s', hres, hsto⟩ | ⟨s', hres, hsto⟩ := deliver_stores hpeer payload
    · exact ⟨s', peer, none, .skip, hsto, hres⟩
    · exact ⟨s', _, some payload, .single hfrag hnext, hsto, hres⟩
  | true =>
    simp only [if_true, processFragment]
    split
    · generalize (s.setPeer peer).globallyBuffered = buffered
      have hmac : (peer.buffer buffered message payload).mac = peer.mac := sameTx_buffer.mac
      split
      · exact ⟨_, _, none, .fragment hfrag hnext, stores_setPeer (hmac ▸ hpeer), rfl⟩
      split
      · exact ⟨_, _, none, .fragment hfrag hnext, stores_setPeer (hmac ▸ hpeer), rfl⟩
      rename_i bytes hasse
      obtain ⟨_, hras, hasm⟩ := bind_eq_some_iff.mp hasse
      have hdrp : (s.peer? ({ peer.buffer buffered message payload with
          reassembling := none } : Peer).mac).isSome := hmac ▸ hpeer
      obtain ⟨s', hres, hsto⟩ | ⟨s', hres, hsto⟩ := deliver_stores hdrp bytes
      · exact ⟨s', _, none, .drop hfrag hnext, hsto, hres⟩
      · refine ⟨s', _, some bytes, .assembled hfrag hnext hras hasm, ?_, ?_⟩
        · have hseq := hsto
          rw [nextRxSeq_buffer] at hseq
          exact hseq
        · rw [hres]
          simp only [queuedEffects, hmac]
    · exact ⟨_, peer, none, .skip, stores_setPeer hpeer, rfl⟩

theorem mac_acceptSession (h : peer.acceptSession session syn = some after) : after.mac = peer.mac :=
  (sameTx_acceptSession h).mac

theorem ackEffects_of_table (h : Table s s') (after : Peer) (message : MessageHeader) :
    s'.ackEffects env after message = s.ackEffects env after message := by
  simp only [ackEffects, ackFrame, ackHeader, h.localMac]

/-- A data frame either is ignored, or the record of its peer takes a step, the message that
this completes is queued, and what has been received is acknowledged. -/
theorem processData_spec (env : Environment) (message : MessageHeader) (payload : Bytes)
    (hpeer : s.peer? peer.mac = some peer) : s.processData env peer message payload = (s, []) ∨
      ∃ accepted s' after delivered,
        peer.acceptSession message.session (message.has flagSyn) = some accepted ∧
        DataStep accepted message payload after delivered ∧ Stores s s' after ∧
        s.processData env peer message payload =
          (s', queuedEffects peer.mac delivered ++ s.ackEffects env after message) := by
  unfold processData
  cases hacc : peer.acceptSession message.session (message.has flagSyn) with
  | none => exact .inl rfl
  | some accepted =>
    right
    have hmac := mac_acceptSession hacc
    have hsome : (s.peer? accepted.mac).isSome := by
      rw [hmac, hpeer]
      rfl
    simp only
    split
    · rename_i hemp
      refine ⟨accepted, _, accepted, none, rfl, .skip, stores_setPeer hsome, ?_⟩
      simp [ackEffects, hemp, queuedEffects]
    rename_i hpay
    obtain ⟨s', after, delivered, hstep, hsto, hres⟩ :
        ∃ s' after delivered, DataStep accepted message payload after delivered ∧
          Stores s s' after ∧
          (if message.sequence = accepted.nextRxSeq then
            s.processExpected env accepted message payload else (s.setPeer accepted, [])) =
          (s', queuedEffects accepted.mac delivered) := by
      split
      · rename_i hnext
        exact processExpected_spec hsome hnext
      · exact ⟨_, accepted, none, .skip, stores_setPeer hsome, rfl⟩
    refine ⟨accepted, s', after, delivered, rfl, hstep, hsto, ?_⟩
    have haf : after.mac = accepted.mac := hstep.sameTx.mac
    rw [hres]
    rw [← haf, hsto.peer]
    rw [← ackEffects_of_table hsto.table]
    unfold ackEffects
    simp only [hpay, false_or]
    split
    · rw [append_nil, haf, hmac]
    · rw [haf, hmac]

/-- The effect of a frame: it is ignored, it completes the message on the way to its
source, or it is data. -/
inductive FrameStep (s : Service) (env : Environment) (frame : Bytes) : Service → List Effect → Prop
  | ignore {s' : Service} (table : Table s s') (view : ∀ d, s'.view d = s.view d) :
      FrameStep s env frame s' []
  | ack {s' : Service} {header : FrameHeader} {pending : Outbound}
      (hparse : parseFrameHeaderChecked frame = .ok header)
      (hdestination : header.destination = s.localMac) (hsource : header.source ≠ s.localMac)
      (hack : header.message.has flagAck = true)
      (hpending : (s.view header.source).pending = some pending)
      (hsession : header.message.session = (s.view header.source).txSession)
      (hseq : pending.seq = header.message.acknowledgment)
      (table : Table s s')
      (view : ∀ d, s'.view d =
        if header.source = d then { s.view header.source with pending := none } else s.view d) :
      FrameStep s env frame s' [.reply pending.reply pending.payloadLen]
  | data {s' : Service} {header : FrameHeader} {accepted after : Peer} {delivered : Option Bytes}
      (hparse : parseFrameHeaderChecked frame = .ok header)
      (hdestination : header.destination = s.localMac) (hsource : header.source ≠ s.localMac)
      (hack : header.message.has flagAck = false)
      (haccept : (s.view header.source).acceptSession header.message.session
        (header.message.has flagSyn) = some accepted)
      (hstep : DataStep accepted header.message (payloadOf header frame) after delivered)
      (table : Table s s')
      (view : ∀ d, s'.view d = if header.source = d then after else s.view d) :
      FrameStep s env frame s'
        (queuedEffects header.source delivered ++ s.ackEffects env after header.message)

theorem frameStep_processFrame (s : Service) (env : Environment) (frame : Bytes) :
    FrameStep s env frame (s.processFrame env frame).1 (s.processFrame env frame).2 := by
  have hignore : FrameStep s env frame s [] := .ignore (.refl s) fun _ => rfl
  unfold processFrame
  split
  · exact hignore
  rename_i header hprs
  simp only
  split
  · exact hignore
  rename_i hadr
  rw [not_or, not_not] at hadr
  split
  · exact hignore
  split
  · exact hignore
  rename_i indexed _ hidx
  obtain ⟨rfl, hpeer, hview, _, -⟩ := peerIndex_spec hidx
  have htab := table_peerIndex hidx
  have hsrc : (s.view header.source).mac = header.source := mac_view
  split
  · rename_i hack
    unfold processAck
    split
    · exact .ignore htab hview
    split
    · exact .ignore htab hview
    rename_i pending hpend
    split
    · rename_i hmat
      refine .ack hprs hadr.1 hadr.2 hack hpend hmat.1 hmat.2 (htab.trans table_setPeer) fun d => ?_
      have hsome : (indexed.peer?
          ({ s.view header.source with pending := none } : Peer).mac).isSome := by
        simp only [mac_view, hpeer]
        rfl
      rw [view_setPeer hsome, hview]
      simp only [mac_view]
    · exact .ignore htab hview
  · rename_i hack
    have hpeer' : indexed.peer? (s.view header.source).mac = some (s.view header.source) := by
      rw [hsrc]
      exact hpeer
    obtain hres | ⟨_, _, after, _, hacc, hstep, hsto, hres⟩ :=
      processData_spec env header.message (payloadOf header frame) hpeer'
    · rw [hres]
      exact .ignore htab hview
    · rw [hres, hsrc, ackEffects_of_table htab]
      refine .data hprs hadr.1 hadr.2 (by simpa using hack) hacc hstep
        (htab.trans hsto.table) fun d => ?_
      have haf : after.mac = header.source := by
        rw [hstep.sameTx.mac, mac_acceptSession hacc, hsrc]
      rw [hsto.view, hview, haf]

end Service

end Charlotte.Relmsg
