import Charlotte.Relmsg.Link

/-!
# The sending side

The messages for the receiver that have been put on the wire, in the order of their
labels, and what the sender still has on the way.
-/

namespace Charlotte.Relmsg

open Lib Service List Option

/-- A message for the receiver that is on the wire, with the call that submitted it. -/
structure Logged extends Submission where
  call : Call

/-- The label of one message comes before that of another. -/
def Before (x y : Logged) : Prop := x.session < y.session ∨ (x.session = y.session ∧ x.seq < y.seq)

variable {a b d : Mac} {s s' : Service} {generation : ℕ} {log : List Logged}

/-- In a log with ascending labels, a label belongs to one message. -/
theorem eq_of_label (hsor : log.Pairwise Before) {x y : Logged} (hx : x ∈ log) (hy : y ∈ log)
    (hses : x.session = y.session) (hseq : x.seq = y.seq) : x = y := by
  induction log with
  | nil => cases hx
  | cons first rest ih =>
    rw [pairwise_cons] at hsor
    rcases mem_cons.mp hx with rfl | hx'
    · rcases mem_cons.mp hy with rfl | hy'
      · rfl
      · rcases hsor.1 y hy' with hlt | ⟨-, hlt⟩ <;> omega
    · rcases mem_cons.mp hy with rfl | hy'
      · rcases hsor.1 x hx' with hlt | ⟨-, hlt⟩ <;> omega
      · exact ih hsor.2 hx' hy'

/-- The transmit side of the sender. -/
structure SenderInv (b : Mac) (s : Service) (generation : ℕ) (log : List Logged) : Prop where
  localMac : s.localMac.length = 6
  nodup : (s.peers.map (·.mac)).Nodup
  range : generation < 2 ^ 32
  session : ∀ d, (s.view d).txSession < (generation + 1) * 2 ^ 32
  seq : ∀ d, 1 ≤ (s.view d).nextTxSeq ∧ (s.view d).nextTxSeq < 2 ^ 32
  fits : ∀ e ∈ log, e.Fits ∧ e.destination = b ∧ 1 ≤ e.seq ∧ e.seq < 2 ^ 32 - 1
  bound : ∀ e ∈ log, e.session < (generation + 1) * 2 ^ 32
  used : ∀ e ∈ log, Used (s.view b) e.toSubmission
  sorted : log.Pairwise Before
  pending : ∀ out, (s.view b).pending = some out → ∃ e ∈ log, e.session = (s.view b).txSession ∧
    e.seq = out.seq ∧ e.call = out.reply ∧ e.payload.length = out.payloadLen ∧
    ∀ frame ∈ out.frames, CarriesFrame s.localMac e.toSubmission frame
  /-- What is on the way to others is addressed to them. -/
  foreign : ∀ d out, d ≠ b → (s.view d).pending = some out → ∀ frame ∈ out.frames,
    ∃ header, parseFrameHeaderChecked frame = .ok header ∧ header.source = s.localMac ∧
      header.destination = d

/-- A session that is given up is followed by one of the same generation. -/
theorem nextWireSession_lt {session : ℕ} (h : session < (generation + 1) * 2 ^ 32) :
    (nextWireSession session).getD 0 < (generation + 1) * 2 ^ 32 := by
  have hatt : sessionAttempts = 2 ^ 32 := rfl
  unfold nextWireSession
  simp only
  split
  · simp
  · rename_i hnot
    rw [hatt] at hnot
    rw [getD_some]
    omega

namespace SenderInv

variable (h : SenderInv b s generation log)
include h

theorem session_lt (d : Mac) : (s.view d).txSession < 2 ^ 64 := by
  have hses := h.session d
  have hgen := h.range
  omega

/-- Whatever is not a submission keeps the log. -/
theorem settle (table : Table s s')
    (hset : ∀ d, Settles (s.view d) (s'.view d)) : SenderInv b s' generation log where
  localMac := table.localMac ▸ h.localMac
  nodup := table.nodup h.nodup
  range := h.range
  session d := by
    cases hset d with
    | keep htx => exact htx ▸ h.session d
    | abandon htx => exact htx ▸ nextWireSession_lt (h.session d)
  seq d := by
    cases hset d with
    | keep _ hseq => exact hseq ▸ h.seq d
    | abandon _ hseq =>
      rw [hseq]
      decide
  fits := h.fits
  bound := h.bound
  used e he := (h.used e he).of_settles (h.session_lt b) (hset b)
  sorted := h.sorted
  pending out hout := by
    rw [table.localMac]
    cases hset b with
    | keep htx _ hpend =>
      obtain ⟨old, hold, hcore⟩ := hpend out hout
      have hseq : out.seq = old.seq := congrArg (·.1) hcore
      have hrpl : out.reply = old.reply := congrArg (·.2.1) hcore
      have hlen : out.payloadLen = old.payloadLen := congrArg (·.2.2.1) hcore
      have hfrms : out.frames = old.frames := congrArg (·.2.2.2) hcore
      rw [htx, hseq, hrpl, hlen, hfrms]
      exact h.pending old hold
    | abandon _ _ hnone =>
      rw [hnone] at hout
      cases hout
  foreign d out hd hout frame hfrm := by
    rw [table.localMac]
    obtain ⟨old, hold, hfrms⟩ := (hset d).frames hout
    exact h.foreign d old hd hold frame (hfrms ▸ hfrm)

variable {payload : Bytes} {call : Call}

omit h in
/-- What a submission puts on the wire carries it. -/
theorem carries_messageFrames (hmac : s.localMac.length = 6) (hses : (s.view d).txSession < 2 ^ 64)
    (hseq : (s.view d).nextTxSeq < 2 ^ 32) (hd : d.length = 6)
    (hpos : 0 < payload.length) (hlen : payload.length ≤ maxMsg) {frame : Bytes}
    (hfrm : frame ∈ s.messageFrames (s.view d) payload) :
    CarriesFrame s.localMac ⟨d, (s.view d).txSession, (s.view d).nextTxSeq, payload⟩ frame := by
  obtain ⟨_, hsta, hmod, rfl⟩ := mem_fragmentsFrom (Nat.zero_mod _) hfrm
  rw [mac_view]
  exact carries_fragmentFrame hmac (e := ⟨d, (s.view d).txSession, (s.view d).nextTxSeq, payload⟩)
    ⟨hd, hses, hseq, hpos, hlen⟩ hsta hmod

omit h in
theorem succSeq_spec (seq : ℕ) : 1 ≤ succSeq seq ∧ succSeq seq < 2 ^ 32 := by
  unfold succSeq
  omega

theorem submitForeign (hd : d ≠ b)
    (hlen' : d.length = 6) (hpos : 0 < payload.length) (hlen : payload.length ≤ maxMsg)
    (table : Table s s')
    (hview : ∀ m, s'.view m = if d = m then s.submitted call (s.view d) payload else s.view m) :
    SenderInv b s' generation log where
  localMac := table.localMac ▸ h.localMac
  nodup := table.nodup h.nodup
  range := h.range
  session m := by
    rw [hview m]
    split
    · exact h.session d
    · exact h.session m
  seq m := by
    rw [hview m]
    split
    · exact succSeq_spec _
    · exact h.seq m
  fits := h.fits
  bound := h.bound
  used e he := by
    rw [hview b, if_neg hd]
    exact h.used e he
  sorted := h.sorted
  pending out hout := by
    rw [hview b, if_neg hd] at hout ⊢
    rw [table.localMac]
    exact h.pending out hout
  foreign m out hm hout frame hfrm := by
    rw [table.localMac]
    rw [hview m] at hout
    split at hout
    · rename_i hdm
      subst hdm
      cases hout
      obtain ⟨header, hprs, hcar⟩ := carries_messageFrames h.localMac (h.session_lt d) (h.seq d).2
        hlen' hpos hlen hfrm
      exact ⟨header, hprs, hcar.source, hcar.destination⟩
    · exact h.foreign m out hm hout frame hfrm

theorem submit (hb : b.length = 6)
    (hpos : 0 < payload.length) (hlen : payload.length ≤ maxMsg)
    (hseq : (s.view b).nextTxSeq < 2 ^ 32 - 1) (hses : (s.view b).txSession ≠ 0) (table : Table s s')
    (hview : ∀ m, s'.view m = if b = m then s.submitted call (s.view b) payload else s.view m) :
    SenderInv b s' generation
      (log ++ [⟨⟨b, (s.view b).txSession, (s.view b).nextTxSeq, payload⟩, call⟩]) where
  localMac := table.localMac ▸ h.localMac
  nodup := table.nodup h.nodup
  range := h.range
  session m := by
    rw [hview m]
    split
    · exact h.session b
    · exact h.session m
  seq m := by
    rw [hview m]
    split
    · exact succSeq_spec _
    · exact h.seq m
  fits := forall_mem_append.mpr ⟨h.fits, forall_mem_singleton.mpr
    ⟨⟨hb, h.session_lt b, (h.seq b).2, hpos, hlen⟩, rfl, (h.seq b).1, hseq⟩⟩
  bound := forall_mem_append.mpr ⟨h.bound, forall_mem_singleton.mpr (h.session b)⟩
  used e he := by
    have hsucc : succSeq (s.view b).nextTxSeq = (s.view b).nextTxSeq + 1 := by
      unfold succSeq
      omega
    rw [hview b, if_pos rfl]
    rcases mem_append.mp he with hold | hnew
    · rcases h.used e hold with hzero | hlt | ⟨hsame, hlt⟩
      · exact absurd hzero hses
      · exact .inr (.inl hlt)
      · refine .inr (.inr ⟨hsame, ?_⟩)
        simp only [submitted, hsucc]
        omega
    · cases mem_singleton.mp hnew
      refine .inr (.inr ⟨rfl, ?_⟩)
      simp only [submitted, hsucc]
      omega
  sorted := by
    rw [pairwise_append]
    refine ⟨h.sorted, pairwise_singleton _ _, ?_⟩
    rintro e he _ hnew
    cases mem_singleton.mp hnew
    rcases h.used e he with hzero | hlt | hsame
    · exact absurd hzero hses
    · exact .inl hlt
    · exact .inr hsame
  pending out hout := by
    rw [hview b, if_pos rfl] at hout ⊢
    cases hout
    refine ⟨_, mem_append_right _ (mem_singleton.mpr rfl), rfl, rfl, rfl, rfl, ?_⟩
    intro frame hfrm
    rw [table.localMac]
    exact carries_messageFrames h.localMac (h.session_lt b) (h.seq b).2 hb hpos hlen hfrm
  foreign m out hm hout frame hfrm := by
    rw [table.localMac]
    rw [hview m, if_neg (Ne.symm hm)] at hout
    exact h.foreign m out hm hout frame hfrm

theorem restart {later session : ℕ} (hlat : generation < later)
    (hses : initialWireSession later = some session) :
    SenderInv b (.start s.localMac session) later log := by
  have hatt : sessionAttempts = 2 ^ 32 := rfl
  obtain ⟨hrng, hvl⟩ : later < 2 ^ 32 ∧ session = later * 2 ^ 32 + 1 := by
    unfold initialWireSession at hses
    split at hses
    · rename_i hval
      cases hses
      exact ⟨hval.1, rfl⟩
    · cases hses
  have hview : ∀ d, (Service.start s.localMac session).view d = .new d session := fun _ => rfl
  have hbel : ∀ e ∈ log, e.session < later * 2 ^ 32 := fun e he =>
    lt_of_lt_of_le (h.bound e he) (Nat.mul_le_mul_right _ hlat)
  refine ⟨h.localMac, nodup_nil, hrng, ?_, ?_, h.fits, ?_, ?_, h.sorted, ?_, ?_⟩
  · intro d
    rw [hview d]
    simp only [Peer.new]
    omega
  · intro d
    exact ⟨Nat.le_refl 1, Nat.one_lt_two_pow (by decide)⟩
  · intro e he
    exact (hbel e he).trans (by omega)
  · intro e he
    refine .inr (.inl ?_)
    simp only [hvl]
    exact (hbel e he).trans (Nat.lt_succ_self _)
  · intro out hout
    cases hout
  · intro d out _ hout
    cases hout

omit h

end SenderInv

end Charlotte.Relmsg
