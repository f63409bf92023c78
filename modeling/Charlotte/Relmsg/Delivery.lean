import Charlotte.Relmsg.Reception

/-!
# Reliable delivery

Over every run of the two services on the link, the receiver queues submitted messages
only, in their order and each at most once, and an answered call is one whose message
has been queued.
-/

namespace Charlotte.Relmsg

open Lib Service List Option

variable {a b d : Mac} {s s' r r' : Service} {log log' delivered delivered' : List Logged}
  {new : List Effect} {σ : Network}

/-- A message of the log that comes after all others can be appended to a part of the log. -/
theorem sublist_append_of_before (hsor : log.Pairwise Before) (hsub : delivered.Sublist log)
    {e : Logged} (he : e ∈ log) (hbef : ∀ x ∈ delivered, Before x e) :
    (delivered ++ [e]).Sublist log := by
  obtain ⟨_, _, rfl⟩ := append_of_mem he
  obtain ⟨_, second, rfl, hfst, hsec⟩ := sublist_append_iff.mp hsub
  rw [pairwise_append, pairwise_cons] at hsor
  have hnone : second = [] := by
    refine eq_nil_iff_forall_not_mem.mpr fun x hx => ?_
    have hless := hbef x (mem_append_right _ hx)
    rcases mem_cons.mp (hsec.subset hx) with rfl | hrest
    · rcases hless with hlt | ⟨-, hlt⟩ <;> omega
    · rcases hsor.2.1.1 x hrest with hlt | ⟨heq, hlt⟩ <;>
        rcases hless with hlt' | ⟨heq', hlt'⟩ <;> omega
  rw [hnone, append_nil]
  exact hfst.append (singleton_sublist.mpr mem_cons_self)

/-- What a frame on the link can be. -/
inductive NetFrame (a b : Mac) (log delivered : List Logged) (frame : Bytes) : Prop
  /-- A part of a message from the sender to the receiver. -/
  | message (e : Logged) (he : e ∈ log) (hcarries : CarriesFrame a e.toSubmission frame)
  /-- An acknowledgement of the sender. -/
  | senderAck (destination : Mac) (session acknowledgment : ℕ)
      (hack : AckFrame a destination session acknowledgment frame)
  /-- Data of the sender for somebody else. -/
  | foreign (header : FrameHeader) (hparse : parseFrameHeaderChecked frame = .ok header)
      (hsource : header.source = a) (hdestination : header.destination ≠ b)
  /-- Data of the receiver. -/
  | reverse (header : FrameHeader) (hparse : parseFrameHeaderChecked frame = .ok header)
      (hsource : header.source = b) (hdata : header.message.has flagAck = false)
  /-- An acknowledgement of the receiver: what it acknowledges to the sender is queued. -/
  | receiverAck (destination : Mac) (session acknowledgment : ℕ)
      (hack : AckFrame b destination session acknowledgment frame)
      (hqueued : destination = a → acknowledgment = 0 ∨
        ∃ e ∈ delivered, e.session = session ∧ e.seq = acknowledgment)

theorem NetFrame.mono {frame : Bytes} (h : NetFrame a b log delivered frame)
    (hlog : ∀ e ∈ log, e ∈ log') (hdel : ∀ e ∈ delivered, e ∈ delivered') :
    NetFrame a b log' delivered' frame := by
  cases h with
  | message e he hcar => exact .message e (hlog e he) hcar
  | senderAck destination session acknowledgment hack => exact .senderAck _ _ _ hack
  | foreign header hprs hsrc hdst => exact .foreign header hprs hsrc hdst
  | reverse header hprs hsrc hdata => exact .reverse header hprs hsrc hdata
  | receiverAck destination session acknowledgment hack hqu =>
    refine .receiverAck destination session acknowledgment hack fun hd => ?_
    rcases hqu hd with hzero | ⟨e, he, hlab⟩
    · exact .inl hzero
    · exact .inr ⟨e, hdel e he, hlab⟩

/-- The transmit side of the receiver: what it has on the way is its own data. -/
structure ReverseInv (r : Service) : Prop where
  localMac : r.localMac.length = 6
  nodup : (r.peers.map (·.mac)).Nodup
  session : ∀ d, (r.view d).txSession < 2 ^ 64
  seq : ∀ d, (r.view d).nextTxSeq < 2 ^ 32
  pending : ∀ d out, (r.view d).pending = some out → ∀ frame ∈ out.frames,
    ∃ header, parseFrameHeaderChecked frame = .ok header ∧ header.source = r.localMac ∧
      header.message.has flagAck = false

namespace ReverseInv

theorem settle (h : ReverseInv r) (table : Table r r')
    (hset : ∀ d, Settles (r.view d) (r'.view d)) : ReverseInv r' where
  localMac := table.localMac ▸ h.localMac
  nodup := table.nodup h.nodup
  session d := by
    cases hset d with
    | keep htx => exact htx ▸ h.session d
    | abandon htx => exact htx ▸ (nextWireSession_spec (h.session d)).1
  seq d := by
    cases hset d with
    | keep _ hseq => exact hseq ▸ h.seq d
    | abandon _ hseq =>
      rw [hseq]
      decide
  pending d out hout frame hfrm := by
    rw [table.localMac]
    obtain ⟨old, hold, hfrms⟩ := (hset d).frames hout
    exact h.pending d old hold frame (hfrms ▸ hfrm)

theorem submit (h : ReverseInv r) {call : Call} {payload : Bytes} (hd : d.length = 6)
    (hpos : 0 < payload.length) (hlen : payload.length ≤ maxMsg) (table : Table r r')
    (hview : ∀ m, r'.view m = if d = m then r.submitted call (r.view d) payload else r.view m) :
    ReverseInv r' where
  localMac := table.localMac ▸ h.localMac
  nodup := table.nodup h.nodup
  session m := by
    rw [hview m]
    split
    · exact h.session d
    · exact h.session m
  seq m := by
    rw [hview m]
    split
    · exact (SenderInv.succSeq_spec _).2
    · exact h.seq m
  pending m out hout frame hfrm := by
    rw [table.localMac]
    rw [hview m] at hout
    split at hout
    · cases hout
      obtain ⟨header, hprs, hcar⟩ := SenderInv.carries_messageFrames h.localMac (h.session d)
        (h.seq d) hd hpos hlen hfrm
      exact ⟨header, hprs, hcar.source, hcar.ack⟩
    · exact h.pending m out hout frame hfrm

end ReverseInv

/-- The log of the sender, the messages that the receiver has queued, and how the state of
the two services and of the link agrees with them. -/
structure Inv (a b : Mac) (σ : Network) (log delivered : List Logged) : Prop where
  senderMac : σ.sender.localMac = a
  receiverMac : σ.receiver.localMac = b
  macs : a ≠ b
  sender : SenderInv b σ.sender σ.generation log
  reverse : ReverseInv σ.receiver
  rx : Rx (σ.receiver.view a) log delivered
  net : ∀ frame ∈ σ.net, NetFrame a b log delivered frame
  calls : ∀ x ∈ σ.submitted, x.1 < σ.calls ∧ 0 < x.2.length
  nodup : (σ.submitted.map Prod.fst).Nodup
  logged : (log.map fun e => (e.call, e.payload)).Sublist σ.submitted
  part : delivered.Sublist log
  queued : σ.queued = delivered.map (·.payload)
  replies : ∀ call value, (call, value) ∈ σ.replies → 0 < value → ∃ e ∈ delivered, e.call = call

namespace Network

variable {effects : List Effect}

/-- The link after a request to the sender. -/
abbrev bySender (σ : Network) (input : Input) (s' : Service) (new : List Effect) : Network :=
  { σ with
    sender := s'
    net := σ.net ++ transmitted new
    calls := σ.calls + 1
    submitted := σ.submitted ++ σ.submission input
    replies := σ.replies ++ repliesOf new }

/-- The link after a request to the receiver. -/
abbrev byReceiver (σ : Network) (r' : Service) (new : List Effect) : Network :=
  { σ with
    receiver := r'
    net := σ.net ++ transmitted new
    calls := σ.calls + 1
    queued := σ.queued ++ queuedFrom σ.sender.localMac new }

theorem mem_transmitted {frame : Bytes} :
    frame ∈ transmitted effects ↔ .transmit frame true ∈ effects := by
  rw [transmitted, mem_filterMap]
  constructor
  · rintro ⟨_, heff, hfrm⟩
    split at hfrm
    · cases hfrm
      exact heff
    · cases hfrm
  · intro h
    exact ⟨_, h, rfl⟩

variable {call : Call} {value : ℤ}

theorem mem_repliesOf : (call, value) ∈ repliesOf effects ↔ .reply call value ∈ effects := by
  rw [repliesOf, mem_filterMap]
  constructor
  · rintro ⟨_, heff, hrpl⟩
    split at hrpl
    · cases hrpl
      exact heff
    · cases hrpl
  · intro h
    exact ⟨_, h, rfl⟩

theorem submission_spec {input : Input} {x : Call × Bytes} (h : x ∈ σ.submission input) :
    σ.submission input = [x] ∧ x.1 = σ.calls ∧ 0 < x.2.length := by
  unfold submission at h ⊢
  split at h
  · split at h
    · rename_i hread
      split at h
      · rename_i hd
        cases mem_singleton.mp h
        exact ⟨by simp only [if_pos hd], rfl, (readSend_spec hread).2.2.2.1⟩
      · cases h
    · cases h
  · cases h

variable {env : Environment} {after : Peer} {message : MessageHeader} {queued : Option Bytes}

/-- Data is not answered with a reply. -/
theorem not_reply_of_data :
    .reply call value ∉ queuedEffects d queued ++ s.ackEffects env after message := by
  intro h
  rcases mem_append.mp h with hqu | hack
  · cases queued with
    | none => cases hqu
    | some => cases mem_singleton.mp hqu
  · unfold ackEffects at hack
    split at hack
    · cases hack
    · cases mem_singleton.mp hack

theorem not_reply_of_deliverReceived : .reply call value ∉ s.deliverReceived.2 := by
  unfold deliverReceived
  split
  · simp
  · exact not_mem_nil

theorem queuedFrom_append {effects' : List Effect} :
    queuedFrom a (effects ++ effects') = queuedFrom a effects ++ queuedFrom a effects' :=
  filterMap_append

theorem queuedFrom_eq_nil (h : ∀ message, .queued message ∉ effects) : queuedFrom a effects = [] := by
  rw [queuedFrom, filterMap_eq_nil_iff]
  intro effect heff
  cases effect with
  | queued message => exact absurd heff (h message)
  | transmit | reply => rfl
  | replyMove => rfl

theorem queuedFrom_deliverReceived : queuedFrom a s.deliverReceived.2 = [] := by
  refine queuedFrom_eq_nil fun message => ?_
  unfold deliverReceived
  split
  · simp
  · exact not_mem_nil

/-- What data from a peer queues. -/
theorem queuedFrom_data :
    queuedFrom a (queuedEffects a queued ++ s.ackEffects env after message) = queued.toList := by
  have hack : queuedFrom a (s.ackEffects env after message) = [] := by
    refine queuedFrom_eq_nil fun received => ?_
    unfold ackEffects
    split
    · exact not_mem_nil
    · simp
  rw [queuedFrom_append, hack, append_nil]
  cases queued with
  | none => rfl
  | some => simp [queuedEffects, queuedFrom]

end Network

open Network

namespace Inv

open Network

variable (h : Inv a b σ log delivered)
include h

theorem delivers : σ.Delivers := by
  refine ⟨h.nodup, delivered.map fun e => (e.call, e.payload), (h.part.map _).trans h.logged, ?_, ?_⟩
  · rw [h.queued, List.map_map]
    rfl
  · intro call payload hsubm hrpl
    obtain ⟨e, he, rfl⟩ := h.replies call _ hrpl (Int.natCast_pos.mpr (h.calls _ hsubm).2)
    have hlgd : (e.call, e.payload) ∈ σ.submitted :=
      h.logged.subset (mem_map.mpr ⟨e, h.part.subset he, rfl⟩)
    have hsame := inj_on_of_nodup_map h.nodup hlgd hsubm rfl
    exact hsame ▸ mem_map.mpr ⟨e, he, rfl⟩

/-- A step of the sender, from what becomes of its transmit side and what it emits. -/
theorem senderStep (input : Input) (fresh : List Logged)
    (hsen : SenderInv b s' σ.generation (log ++ fresh)) (table : Table σ.sender s')
    (hfr : (fresh.map fun e => (e.call, e.payload)).Sublist (σ.submission input))
    (hrx : Rx (σ.receiver.view a) (log ++ fresh) delivered)
    (hnet : ∀ frame, .transmit frame true ∈ new → NetFrame a b (log ++ fresh) delivered frame)
    (hrepl : ∀ call value, .reply call value ∈ new → 0 < value → ∃ e ∈ delivered, e.call = call) :
    Inv a b (σ.bySender input s' new) (log ++ fresh) delivered where
  senderMac := table.localMac.trans h.senderMac
  receiverMac := h.receiverMac
  macs := h.macs
  sender := hsen
  reverse := h.reverse
  rx := hrx
  net frame hfrm := by
    rcases mem_append.mp hfrm with hold | hnew
    · exact (h.net frame hold).mono (fun e he => mem_append_left _ he) fun _ he => he
    · exact hnet frame (mem_transmitted.mp hnew)
  calls x hx := by
    rcases mem_append.mp hx with hold | hnew
    · exact ⟨(h.calls x hold).1.trans (Nat.lt_succ_self _), (h.calls x hold).2⟩
    · obtain ⟨-, hcall, hpos⟩ := submission_spec hnew
      exact ⟨by rw [hcall]; exact Nat.lt_succ_self _, hpos⟩
  nodup := by
    rw [map_append, nodup_append]
    refine ⟨h.nodup, ?_, ?_⟩
    · cases hsub : σ.submission input with
      | nil => exact nodup_nil
      | cons x =>
        have hmem : x ∈ σ.submission input := by
          rw [hsub]
          exact mem_cons_self
        rw [← hsub, (submission_spec hmem).1]
        exact nodup_singleton _
    · rintro _ hold _ hnew rfl
      obtain ⟨x, hx, hcall⟩ := mem_map.mp hold
      obtain ⟨y, hy, hcall'⟩ := mem_map.mp hnew
      have hlt := (h.calls x hx).1
      rw [hcall, ← hcall', (submission_spec hy).2.1] at hlt
      exact Nat.lt_irrefl _ hlt
  logged := by
    rw [map_append]
    exact h.logged.append hfr
  part := h.part.trans (sublist_append_left _ _)
  queued := h.queued
  replies call value hrpl hpos := by
    exact (mem_append.mp hrpl).elim (h.replies call value · hpos)
      fun hnew => hrepl call value (mem_repliesOf.mp hnew) hpos

variable {input : Input}

theorem senderQuiet (hsen : SenderInv b s' σ.generation log) (table : Table σ.sender s')
    (hnet : ∀ frame, .transmit frame true ∈ new → NetFrame a b log delivered frame)
    (hrepl : ∀ call value, .reply call value ∈ new → 0 < value → ∃ e ∈ delivered, e.call = call) :
    Inv a b (σ.bySender input s' new) log delivered := by
  have hstep := h.senderStep input [] (by rwa [append_nil]) table
    (nil_sublist _) (by rw [append_nil]; exact h.rx) (by rwa [append_nil]) hrepl
  rwa [append_nil] at hstep

theorem quietSender (q : Quiet σ.sender s' new) : Inv a b (σ.bySender input s' new) log delivered := by
  refine h.senderQuiet (h.sender.settle q.table q.settles) q.table (fun frame hfrm => ?_)
    fun call value hrpl hpos => absurd hpos (q.replies call value hrpl)
  obtain ⟨d, out, hout, hmem⟩ := q.sends h.sender.nodup frame hfrm
  by_cases hb : d = b
  · subst hb
    obtain ⟨e, he, -, -, -, -, hfrms⟩ := h.sender.pending out hout
    exact .message e he (h.senderMac ▸ hfrms frame hmem)
  · obtain ⟨header, hprs, hsrc, hdst⟩ := h.sender.foreign d out hb hout frame hmem
    exact .foreign header hprs (hsrc.trans h.senderMac) (hdst ▸ hb)

variable {reserved allocated : Bool} {payload : Bytes}

omit h in
theorem accepted_messageFrames (hmac : s.localMac.length = 6) (hd : d.length = 6) :
    (transmitAll ((granting reserved allocated).accepts 0) 0
      (s.messageFrames (s.view d) payload)).1 = true :=
  transmitAll_of_accepts (fun _ hfrm => length_messageFrames hmac hd hfrm) fun _ _ => rfl

theorem handle_send {arg : ℕ} {object : Option Bytes}
    (hunw : σ.Unwrapped (.sender (.send arg object) reserved allocated)) :
    ∃ log', Inv a b (σ.step (.sender (.send arg object) reserved allocated)) log' delivered := by
  have hstep := sendStep_send σ.sender (granting reserved allocated) σ.calls arg object
  simp only [step, request, Service.handle]
  generalize σ.sender.send (granting reserved allocated) σ.calls arg object = result at hstep ⊢
  obtain ⟨_, _⟩ := result
  cases hstep with
  | refuse hvl table view => exact ⟨log, h.quietSender (quiet_refused hvl table view)⟩
  | fail hread hfail =>
    rw [accepted_messageFrames h.sender.localMac (readSend_spec hread).2.1] at hfail
    cases hfail
  | @submit destination payload hread hidle hses table view =>
    obtain ⟨-, hd, -, hpos, hlen⟩ := readSend_spec hread
    have hcar : ∀ frame ∈ σ.sender.messageFrames (σ.sender.view destination) payload,
        CarriesFrame a ⟨destination, (σ.sender.view destination).txSession,
          (σ.sender.view destination).nextTxSeq, payload⟩ frame := by
      intro frame hfrm
      rw [← h.senderMac]
      exact SenderInv.carries_messageFrames h.sender.localMac (h.sender.session_lt _)
        (h.sender.seq _).2 hd hpos hlen hfrm
    have hrepl : ∀ call value, Effect.reply call value ∈
        (σ.sender.messageFrames (σ.sender.view destination) payload).map (.transmit · true) →
        0 < value → ∃ e ∈ delivered, e.call = call := by
      intro call value hrpl
      obtain ⟨_, -, heq⟩ := mem_map.mp hrpl
      cases heq
    by_cases hb : destination = b
    · subst hb
      have hsub : σ.submission (.send arg object) = [(σ.calls, payload)] := by
        simp only [submission, hread, if_pos h.receiverMac.symm]
      have hseq : (σ.sender.view destination).nextTxSeq < 2 ^ 32 - 1 := by
        rw [← h.receiverMac] at hidle ⊢
        exact hunw (by rw [hsub]; exact cons_ne_nil _ _) hidle
      refine ⟨_, h.senderStep _ _ (h.sender.submit hd hpos hlen hseq hses table view) table
        ?_ h.rx.mono ?_ hrepl⟩
      · rw [hsub]
        exact List.Sublist.refl _
      · intro frame hfrm
        obtain ⟨_, hsent, heq⟩ := mem_map.mp hfrm
        cases heq
        exact .message _ (mem_append_right _ (mem_singleton.mpr rfl)) (hcar frame hsent)
    · refine ⟨log, h.senderQuiet (h.sender.submitForeign hb hd hpos hlen table view) table ?_ hrepl⟩
      intro frame hfrm
      obtain ⟨_, hsent, heq⟩ := mem_map.mp hfrm
      cases heq
      obtain ⟨header, hprs, hpart⟩ := hcar frame hsent
      refine .foreign header hprs hpart.source ?_
      rw [hpart.destination]
      exact hb

variable {frame : Bytes} {header : FrameHeader}

/-- An acknowledgement from the receiver that completes a call is one of a queued message. -/
theorem acknowledged (hfrm : frame ∈ σ.net) {pending : Outbound}
    (hprs : parseFrameHeaderChecked frame = .ok header) (hdst : header.destination = σ.sender.localMac)
    (hsrc : header.source ≠ σ.sender.localMac) (hack : header.message.has flagAck = true)
    (hpend : (σ.sender.view header.source).pending = some pending)
    (hses : header.message.session = (σ.sender.view header.source).txSession)
    (hseq : pending.seq = header.message.acknowledgment) : ∃ e ∈ delivered, e.call = pending.reply := by
  rw [h.senderMac] at hdst hsrc
  cases h.net frame hfrm with
  | message e _ hcar =>
    obtain ⟨_, hprs', hcar⟩ := hcar
    cases hprs.symm.trans hprs'
    exact absurd hcar.source hsrc
  | senderAck _ _ _ hsenderAck =>
    obtain ⟨_, hprs', hsen, -⟩ := hsenderAck
    cases hprs.symm.trans hprs'
    exact absurd hsen hsrc
  | foreign header' hprs' hsen =>
    cases hprs.symm.trans hprs'
    exact absurd hsen hsrc
  | reverse header' hprs' _ hdata =>
    cases hprs.symm.trans hprs'
    rw [hack] at hdata
    cases hdata
  | receiverAck destination session acknowledgment hrcv hqu =>
    obtain ⟨_, hprs', hsen, hdst', -, hses', hackn⟩ := hrcv
    cases hprs.symm.trans hprs'
    rw [hsen] at hpend hses
    obtain ⟨x, hx, hxses, hxseq, hxcall, -⟩ := h.sender.pending pending hpend
    have hpos := (h.sender.fits x hx).2.2.1
    rcases hqu (hdst'.symm.trans hdst) with _ | ⟨e, he, hlab⟩
    · omega
    · have hsame : e = x := by
        refine eq_of_label h.sender.sorted (h.part.subset he) hx ?_ ?_
        · rw [hlab.1, ← hses', hses, hxses]
        · rw [hlab.2, hxseq, hseq, hackn]
      exact ⟨e, he, hsame ▸ hxcall⟩

variable {i : ℕ}

theorem handle_frame_sender :
    ∃ log', Inv a b (σ.step (.sender (.deliver i) reserved allocated)) log' delivered := by
  cases hnet : σ.net[i]? with
  | none =>
    refine ⟨log, ?_⟩
    simp only [step, request, hnet, map_none]
    exact h
  | some frame =>
    have hfrm := mem_of_getElem? hnet
    refine ⟨log, ?_⟩
    simp only [step, request, hnet, map_some, Service.handle]
    split
    · exact h.quietSender (quiet_refused (by decide) (.refl _) fun _ => rfl)
    · have hstep := frameStep_processFrame σ.sender (granting reserved allocated) frame
      obtain ⟨table, hset⟩ := hstep.settles
      obtain ⟨table', view, hqt⟩ :=
        deliverReceived_spec (σ.sender.processFrame (granting reserved allocated) frame).1
      refine h.senderQuiet (h.sender.settle (table.trans table') fun d => ?_) (table.trans table') ?_ ?_
      · rw [view d]
        exact hset d
      · intro sent hsent
        rcases mem_append.mp hsent with hsent | hrpl
        · rcases mem_append.mp hsent with hsent | hdel
          · obtain ⟨_, _, _, hack⟩ := hstep.transmits h.sender.localMac hsent
            rw [h.senderMac] at hack
            exact .senderAck _ _ _ hack
          · exact absurd hdel (hqt sent true)
        · cases mem_singleton.mp hrpl
      · intro call value hrpl hpos
        rcases mem_append.mp hrpl with hrpl | hpump
        · rcases mem_append.mp hrpl with hrpl | hdel
          · generalize σ.sender.processFrame (granting reserved allocated) frame = result at hstep hrpl
            obtain ⟨_, _⟩ := result
            cases hstep with
            | ignore => cases hrpl
            | ack hprs hdst hsrc hack hpend hses hseq =>
              cases mem_singleton.mp hrpl
              exact h.acknowledged hfrm hprs hdst hsrc hack hpend hses hseq
            | @data header accepted after queued =>
              exact absurd hrpl (not_reply_of_data)
          · exact absurd hdel (not_reply_of_deliverReceived)
        · cases mem_singleton.mp hpump
          exact absurd hpos (by decide)

theorem handle_sender (hunw : σ.Unwrapped (.sender input reserved allocated)) :
    ∃ log', Inv a b (σ.step (.sender input reserved allocated)) log' delivered := by
  cases input with
  | send => exact h.handle_send hunw
  | deliver => exact h.handle_frame_sender
  | recv => exact ⟨log, h.quietSender (quiet_recv σ.sender σ.calls)⟩
  | tick => exact ⟨log, h.quietSender (quiet_tick σ.sender (granting reserved allocated))⟩

/-- A step of the receiver, from what becomes of its two sides and what it emits. -/
theorem receiverStep (hrv : ReverseInv r')
    (table : Table σ.receiver r') (hrx : Rx (r'.view a) log delivered')
    (hpart : delivered'.Sublist log) (hgrow : ∀ e ∈ delivered, e ∈ delivered')
    (hqu : σ.queued ++ queuedFrom a new = delivered'.map (·.payload))
    (hnet : ∀ frame, .transmit frame true ∈ new → NetFrame a b log delivered' frame) :
    Inv a b (σ.byReceiver r' new) log delivered' where
  senderMac := h.senderMac
  receiverMac := table.localMac.trans h.receiverMac
  macs := h.macs
  sender := h.sender
  reverse := hrv
  rx := hrx
  net frame hfrm := by
    rcases mem_append.mp hfrm with hold | hnew
    · exact (h.net frame hold).mono (fun _ he => he) hgrow
    · exact hnet frame (mem_transmitted.mp hnew)
  calls x hx := ⟨(h.calls x hx).1.trans (Nat.lt_succ_self _), (h.calls x hx).2⟩
  nodup := h.nodup
  logged := h.logged
  part := hpart
  queued := by
    simp only [h.senderMac]
    exact hqu
  replies call value hrpl hpos := by
    obtain ⟨e, he, hcall⟩ := h.replies call value hrpl hpos
    exact ⟨e, hgrow e he, hcall⟩

theorem receiverQuiet (hrv : ReverseInv r')
    (table : Table σ.receiver r') (hrx : Rx (r'.view a) log delivered) (hqu : queuedFrom a new = [])
    (hnet : ∀ frame, .transmit frame true ∈ new → NetFrame a b log delivered frame) :
    Inv a b (σ.byReceiver r' new) log delivered := by
  refine h.receiverStep hrv table hrx h.part (fun _ he => he) ?_ hnet
  rw [hqu, append_nil]
  exact h.queued

theorem quietReceiver (q : Quiet σ.receiver r' new) : Inv a b (σ.byReceiver r' new) log delivered := by
  refine h.receiverQuiet (h.reverse.settle q.table q.settles) q.table (h.rx.of_sameRx (q.sameRx a))
    (queuedFrom_eq_nil q.queued) fun frame hfrm => ?_
  obtain ⟨d, out, hout, hmem⟩ := q.sends h.reverse.nodup frame hfrm
  obtain ⟨header, hprs, hsrc, hdata⟩ := h.reverse.pending d out hout frame hmem
  exact .reverse header hprs (hsrc.trans h.receiverMac) hdata

theorem reverse_of_messageFrames
    (hd : d.length = 6) (hpos : 0 < payload.length) (hlen : payload.length ≤ maxMsg)
    (hfrm : frame ∈ σ.receiver.messageFrames (σ.receiver.view d) payload) :
    NetFrame a b log delivered frame := by
  obtain ⟨header, hprs, hcar⟩ := SenderInv.carries_messageFrames h.reverse.localMac
    (h.reverse.session d) (h.reverse.seq d) hd hpos hlen hfrm
  exact .reverse header hprs (hcar.source.trans h.receiverMac) hcar.ack

/-- A data frame that the receiver takes from the link is a part of a logged message. -/
theorem message_of_data (hfrm : frame ∈ σ.net) (hprs : parseFrameHeaderChecked frame = .ok header)
    (hdst : header.destination = σ.receiver.localMac)
    (hsrc : header.source ≠ σ.receiver.localMac) (hdata : header.message.has flagAck = false) :
    ∃ e ∈ log, Carries a e.toSubmission header (payloadOf header frame) := by
  rw [h.receiverMac] at hdst hsrc
  cases h.net frame hfrm with
  | message e he hcar =>
    obtain ⟨_, hprs', hcar⟩ := hcar
    cases hprs.symm.trans hprs'
    exact ⟨e, he, hcar⟩
  | senderAck _ _ _ hack =>
    obtain ⟨_, hprs', -, -, hack, -⟩ := hack
    cases hprs.symm.trans hprs'
    rw [hack] at hdata
    cases hdata
  | foreign header' hprs' _ hoth =>
    cases hprs.symm.trans hprs'
    exact absurd hdst hoth
  | reverse header' hprs' hrcv =>
    cases hprs.symm.trans hprs'
    exact absurd hrcv hsrc
  | receiverAck _ _ _ hack =>
    obtain ⟨_, hprs', hrcv, -⟩ := hack
    cases hprs.symm.trans hprs'
    exact absurd hrcv hsrc

/-- Data from the sender: it queues the message that it completes, and what it acknowledges is
queued. -/
theorem receive_data (env : Environment)
    (hfrm : frame ∈ σ.net) {accepted after : Peer} {queued : Option Bytes}
    (hprs : parseFrameHeaderChecked frame = .ok header)
    (hdst : header.destination = σ.receiver.localMac)
    (hsrc : header.source ≠ σ.receiver.localMac) (hdata : header.message.has flagAck = false)
    (hacc : (σ.receiver.view header.source).acceptSession header.message.session
      (header.message.has flagSyn) = some accepted)
    (hstep : DataStep accepted header.message (payloadOf header frame) after queued) :
    header.source = a ∧ ∃ delivered', delivered'.Sublist log ∧ (∀ e ∈ delivered, e ∈ delivered') ∧
      Rx after log delivered' ∧ σ.queued ++ queued.toList = delivered'.map (·.payload) ∧
      ∀ sent, .transmit sent true ∈ σ.receiver.ackEffects env after header.message →
        NetFrame a b log delivered' sent := by
  obtain ⟨e, he, hcar⟩ := h.message_of_data hfrm hprs hdst hsrc hdata
  have hfrom : header.source = a := hcar.source
  obtain ⟨hfits, -, _, hrng⟩ := h.sender.fits e he
  rw [hfrom] at hacc
  obtain ⟨hrx, hses⟩ := h.rx.accept hacc
  rw [hcar.session] at hses
  -- the acknowledgement names the last message that is queued
  have hack : ∀ {delivered' : List Logged}, Rx after log delivered' →
      after.remoteSession = some e.session →
      ∀ sent, .transmit sent true ∈ σ.receiver.ackEffects env after header.message →
        NetFrame a b log delivered' sent := by
    intro delivered' hrx' hses' sent hsent
    unfold ackEffects at hsent
    split at hsent
    · cases hsent
    have hmac : after.mac = a := by
      rw [hstep.sameTx.mac, mac_acceptSession hacc, mac_view]
    have heq := mem_singleton.mp hsent
    injection heq with heq
    subst heq
    have hlen : a.length = 6 := h.senderMac ▸ h.sender.localMac
    have hfrm' : AckFrame σ.receiver.localMac after.mac header.message.session
        ((after.nextRxSeq + (2 ^ 32 - 1)) % 2 ^ 32)
        (σ.receiver.ackFrame after.mac header.message.session after.nextRxSeq) :=
      ackFrame_ackFrame h.reverse.localMac (hmac ▸ hlen) (hcar.session ▸ hfits.session)
    rw [h.receiverMac] at hfrm'
    refine .receiverAck _ _ _ hfrm' fun _ => ?_
    obtain ⟨_, _, hbel, -⟩ := hrx'.current e.session hses'
    by_cases hfst : after.nextRxSeq = 1
    · left
      rw [hfst]
      rfl
    · right
      have hlast : (after.nextRxSeq + (2 ^ 32 - 1)) % 2 ^ 32 = after.nextRxSeq - 1 := by omega
      rw [hlast, hcar.session]
      exact hbel _ (by omega) (by omega)
  obtain ⟨hses', ⟨rfl, hrx'⟩ | ⟨rfl, hbef, hrx'⟩⟩ :=
    hrx.data h.sender.sorted he hrng hcar hses hstep
  · refine ⟨hfrom, delivered, h.part, fun _ he => he, hrx', ?_, hack hrx' hses'⟩
    rw [toList_none, append_nil]
    exact h.queued
  · refine ⟨hfrom, delivered ++ [e], sublist_append_of_before h.sender.sorted h.part he hbef,
      fun _ he => mem_append_left _ he, hrx', ?_, hack hrx' hses'⟩
    rw [h.queued, map_append]
    rfl

theorem handle_frame_receiver :
    ∃ delivered', Inv a b (σ.step (.receiver (.deliver i) reserved allocated)) log delivered' := by
  cases hnet : σ.net[i]? with
  | none =>
    refine ⟨delivered, ?_⟩
    simp only [step, request, hnet, map_none]
    exact h
  | some frame =>
    have hfrm := mem_of_getElem? hnet
    simp only [step, request, hnet, map_some, Service.handle]
    split
    · exact ⟨delivered, h.quietReceiver (quiet_refused (by decide) (.refl _) fun _ => rfl)⟩
    have hstep := frameStep_processFrame σ.receiver (granting reserved allocated) frame
    obtain ⟨table', view, hqt⟩ :=
      deliverReceived_spec (σ.receiver.processFrame (granting reserved allocated) frame).1
    obtain ⟨table, hset⟩ := hstep.settles
    have hrv := h.reverse.settle (table.trans table') fun d => by
      rw [view d]
      exact hset d
    have hpump : ∀ {effects : List Effect}, queuedFrom a (effects ++ (deliverReceived
        (σ.receiver.processFrame (granting reserved allocated) frame).1).2 ++
        [.reply σ.calls 0]) = queuedFrom a effects := by
      intro effects
      rw [queuedFrom_append, queuedFrom_append, queuedFrom_deliverReceived]
      simp [queuedFrom]
    have hsends : ∀ {effects : List Effect} {sent : Bytes}, .transmit sent true ∈
        effects ++ (deliverReceived
          (σ.receiver.processFrame (granting reserved allocated) frame).1).2 ++
          [.reply σ.calls 0] → .transmit sent true ∈ effects := by
      intro effects sent hsent
      rcases mem_append.mp hsent with hsent | hrpl
      · rcases mem_append.mp hsent with hsent | hdel
        · exact hsent
        · exact absurd hdel (hqt sent true)
      · cases mem_singleton.mp hrpl
    have hviewa := view a
    generalize hres : σ.receiver.processFrame (granting reserved allocated) frame = result
      at hstep hpump hsends hrv hviewa table table' ⊢
    obtain ⟨_, _⟩ := result
    simp only at hstep hpump hsends hrv hviewa table table' ⊢
    cases hstep with
    | ignore _ hview =>
      refine ⟨delivered, h.receiverQuiet hrv (table.trans table') ?_ ?_ ?_⟩
      · rw [hviewa, hview]
        exact h.rx
      · rw [hpump]
        rfl
      · intro sent hsent
        cases hsends hsent
    | @ack header pending _ _ _ _ hpend _ _ _ hview =>
      refine ⟨delivered, h.receiverQuiet hrv (table.trans table') ?_ ?_ ?_⟩
      · rw [hviewa, hview]
        split
        · rename_i hsrc
          rw [hsrc]
          exact h.rx.of_sameRx ⟨rfl, rfl, rfl⟩
        · exact h.rx
      · rw [hpump]
        rfl
      · intro sent hsent
        cases mem_singleton.mp (hsends hsent)
    | @data header accepted after queued hprs hdst hsrc hdata hacc hdatastep _ hview =>
      obtain ⟨hfrom, delivered', hpart, hgrow, hrx, hqu, hacks⟩ :=
        h.receive_data (granting reserved allocated) hfrm hprs hdst hsrc hdata hacc hdatastep
      refine ⟨delivered', h.receiverStep hrv (table.trans table') ?_ hpart hgrow ?_ ?_⟩
      · rw [hviewa, hview, if_pos hfrom]
        exact hrx
      · rw [hpump, hfrom, queuedFrom_data]
        exact hqu
      · intro sent hsent
        rcases mem_append.mp (hsends hsent) with hqueue | hack
        · cases queued with
          | none => cases hqueue
          | some => cases mem_singleton.mp hqueue
        · exact hacks sent hack

theorem handle_receiver :
    ∃ delivered', Inv a b (σ.step (.receiver input reserved allocated)) log delivered' := by
  cases input with
  | deliver => exact h.handle_frame_receiver
  | send arg object =>
    refine ⟨delivered, ?_⟩
    have hstep := sendStep_send σ.receiver (granting reserved allocated) σ.calls arg object
    simp only [step, request, Service.handle]
    generalize σ.receiver.send (granting reserved allocated) σ.calls arg object = result at hstep ⊢
    obtain ⟨_, _⟩ := result
    cases hstep with
    | refuse hvl table view => exact h.quietReceiver (quiet_refused hvl table view)
    | fail hread hfail =>
      rw [accepted_messageFrames h.reverse.localMac (readSend_spec hread).2.1] at hfail
      cases hfail
    | @submit destination payload hread hidle hses table view =>
      obtain ⟨-, hd, -, hpos, hlen⟩ := readSend_spec hread
      refine h.receiverQuiet (h.reverse.submit hd hpos hlen table view) table ?_
        (queuedFrom_eq_nil (by simp)) ?_
      · rw [view a]
        split
        · rename_i hda
          rw [hda]
          exact h.rx.of_sameRx ⟨rfl, rfl, rfl⟩
        · exact h.rx
      · intro frame hfrm
        obtain ⟨_, hsent, heq⟩ := mem_map.mp hfrm
        cases heq
        exact h.reverse_of_messageFrames hd hpos hlen hsent
  | recv => exact ⟨delivered, h.quietReceiver (quiet_recv σ.receiver σ.calls)⟩
  | tick => exact ⟨delivered, h.quietReceiver (quiet_tick σ.receiver (granting reserved allocated))⟩

theorem step {action : Action} (hunw : σ.Unwrapped action) :
    ∃ log' delivered', Inv a b (σ.step action) log' delivered' := by
  cases action with
  | sender =>
    obtain ⟨log', hnext⟩ := h.handle_sender hunw
    exact ⟨log', delivered, hnext⟩
  | receiver =>
    obtain ⟨delivered', hnext⟩ := h.handle_receiver
    exact ⟨log, delivered', hnext⟩
  | restart generation =>
    refine ⟨log, delivered, ?_⟩
    unfold Network.step
    simp only
    split
    · exact h
    rename_i hses
    split
    · rename_i hlat
      exact { h with
        senderMac := h.senderMac
        sender := h.sender.restart hlat hses }
    · exact h

omit h

theorem start {generation session remoteSession : ℕ} (ha : a.length = 6) (hb : b.length = 6)
    (hab : a ≠ b) (hses : initialWireSession generation = some session)
    (hrem : remoteSession < 2 ^ 64) : Inv a b (.start a b generation session remoteSession) [] [] := by
  have hatt : sessionAttempts = 2 ^ 32 := rfl
  obtain ⟨hrng, hvl⟩ : generation < 2 ^ 32 ∧ session = generation * 2 ^ 32 + 1 := by
    unfold initialWireSession at hses
    split at hses
    · rename_i hval
      cases hses
      exact ⟨hval.1, rfl⟩
    · cases hses
  have hone : (1 : ℕ) < 2 ^ 32 := Nat.one_lt_two_pow (by decide)
  refine ⟨rfl, rfl, hab, ?_, ?_, ?_, by simp [Network.start], by simp [Network.start],
    nodup_nil, List.Sublist.refl _, List.Sublist.refl _, rfl, by simp [Network.start]⟩
  · refine ⟨ha, nodup_nil, hrng, fun d => ?_, fun d => ⟨Nat.le_refl 1, hone⟩, by simp, by simp,
      by simp, .nil, (fun out hout => nomatch hout), (fun d out _ hout => nomatch hout)⟩
    change session < (generation + 1) * 2 ^ 32
    omega
  · exact ⟨hb, nodup_nil, fun _ => hrem, fun _ => hone, fun d out hout => nomatch hout⟩
  · exact ⟨fun _ => rfl, nofun, nofun⟩

end Inv

namespace Network

/-- Over every run on the link in which no session of the sender uses up its sequence numbers,
the receiver queues the submitted messages in their order and at most once, and every call
that is answered with the length of its message is one whose message has been queued. -/
theorem reliable_delivery (a b : Mac) (ha : a.length = 6) (hb : b.length = 6) (hab : a ≠ b)
    (generation session remoteSession : ℕ) (hsession : initialWireSession generation = some session)
    (hremote : remoteSession < 2 ^ 64) (actions : List Action)
    (hactions : ∀ i action, actions[i]? = some action →
      ((start a b generation session remoteSession).run (actions.take i)).Unwrapped action) :
    ∀ k, ((start a b generation session remoteSession).run (actions.take k)).Delivers := by
  intro k
  have hinv : ∃ log delivered,
      Inv a b ((start a b generation session remoteSession).run (actions.take k)) log delivered := by
    refine foldl_take_invariant (P := fun σ => ∃ log delivered, Inv a b σ log delivered)
      ⟨[], [], .start ha hb hab hsession hremote⟩ ?_ k
    rintro i action hi ⟨_, _, h⟩
    exact h.step (hactions i action hi)
  obtain ⟨_, _, h⟩ := hinv
  exact h.delivers

end Network

end Charlotte.Relmsg
