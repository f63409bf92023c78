import Charlotte.Relmsg.Transmission

/-!
# The receiving side

What the receiver remembers about the sender says which messages it has queued: all of
the current session below the expected sequence number, and none beyond it. The
fragments it buffers are those of one message.
-/

namespace Charlotte.Relmsg

open Lib Service List Option
open Std (ExtTreeMap)

variable {a : Mac} {log delivered : List Logged} {peer after : Peer} {payload bytes : Bytes}
  {reassembly : Reassembly} {header : FrameHeader}

/-- The fragments are those of the message at their offsets. -/
def PartsOf (payload : Bytes) (fragments : ExtTreeMap ℕ Bytes) : Prop :=
  ∀ (offset : ℕ) (bytes : Bytes), fragments[offset]? = some bytes →
    offset < payload.length ∧ bytes = chunk payload offset

/-- Putting parts of a message together from an offset gives the rest of it. -/
theorem assembleFrom_eq {fragments : ExtTreeMap ℕ Bytes} (h : PartsOf payload fragments)
    {steps offset : ℕ} (hoff : offset ≤ payload.length)
    (hasm : assembleFrom fragments payload.length steps offset (payload.take offset) =
      some bytes) : bytes = payload := by
  induction steps generalizing offset with
  | zero =>
    rw [assembleFrom] at hasm
    split at hasm
    · rename_i hend
      cases hasm
      rw [hend, take_length]
    · cases hasm
  | succ steps ih =>
    rw [assembleFrom] at hasm
    split at hasm
    · obtain ⟨part, hpart, hrest⟩ := bind_eq_some_iff.mp hasm
      obtain ⟨hlt, rfl⟩ := h offset part hpart
      have hlen := length_chunk hlt
      rw [hlen] at hrest
      have htake : payload.take offset ++ chunk payload offset =
          payload.take (offset + min (payload.length - offset) maxPayloadSize) := by
        rw [take_add, chunk]
      rw [htake] at hrest
      exact ih (by omega) hrest
    · split at hasm
      · rename_i hend
        cases hasm
        rw [hend, take_length]
      · cases hasm

theorem assemble_eq {reserved : Bool}
    (h : PartsOf payload reassembly.fragments) (htot : reassembly.total = payload.length)
    (hasm : assemble reassembly maxMsg reserved = some bytes) : bytes = payload := by
  unfold assemble at hasm
  split at hasm
  · cases hasm
  · rw [htot] at hasm
    exact assembleFrom_eq h (Nat.zero_le _) hasm

/-- The receive side of the record of the sender. -/
structure Rx (peer : Peer) (log delivered : List Logged) : Prop where
  fresh : peer.remoteSession = none → delivered = []
  current : ∀ session, peer.remoteSession = some session →
    1 ≤ peer.nextRxSeq ∧ peer.nextRxSeq < 2 ^ 32 ∧
    (∀ k, 1 ≤ k → k < peer.nextRxSeq → ∃ e ∈ delivered, e.session = session ∧ e.seq = k) ∧
    ∀ e ∈ delivered, e.session < session ∨ (e.session = session ∧ e.seq < peer.nextRxSeq)
  reassembly : ∀ reassembly, peer.reassembling = some reassembly →
    ∃ e ∈ log, peer.remoteSession = some e.session ∧ e.seq = reassembly.seq ∧
      reassembly.total = e.payload.length ∧ PartsOf e.payload reassembly.fragments

namespace Rx

variable (h : Rx peer log delivered)
include h

theorem of_sameRx (hsame : SameRx peer after) : Rx after log delivered := by
  refine ⟨?_, ?_, ?_⟩
  · rw [hsame.remoteSession]
    exact h.fresh
  · rw [hsame.remoteSession, hsame.nextRxSeq]
    exact h.current
  · rw [hsame.remoteSession, hsame.reassembling]
    exact h.reassembly

theorem mono {e : Logged} : Rx peer (log ++ [e]) delivered := by
  refine ⟨h.fresh, h.current, fun reassembly hras => ?_⟩
  obtain ⟨x, hx, hrest⟩ := h.reassembly reassembly hras
  exact ⟨x, mem_append_left _ hx, hrest⟩

theorem accept {session : ℕ} {syn : Bool} (hacc : peer.acceptSession session syn = some after) :
    Rx after log delivered ∧ after.remoteSession = some session := by
  rcases acceptSession_spec hacc with ⟨hsame, rfl⟩ | ⟨-, -, hnw, rfl⟩
  · exact ⟨h, hsame⟩
  · refine ⟨⟨nofun, ?_, nofun⟩, rfl⟩
    rintro _ hses
    cases hses
    refine ⟨le_refl 1, by simp only; decide, fun k hk hk' => absurd hk' (Nat.not_lt_of_le hk), ?_⟩
    intro e he
    refine .inl ?_
    simp only [wireSessionIsNewer, Bool.and_eq_true, decide_eq_true_eq] at hnw
    cases hold : peer.remoteSession with
    | none =>
      rw [h.fresh hold] at he
      cases he
    | some old =>
      rw [hold, getD_some] at hnw
      rcases (h.current old hold).2.2.2 e he with hlt | ⟨heq, -⟩
      · exact hlt.trans hnw.2
      · exact heq ▸ hnw.2

theorem deliver {e : Logged} (hses : peer.remoteSession = some e.session)
    (hseq : e.seq = peer.nextRxSeq) (hrng : e.seq < 2 ^ 32 - 1)
    (hrem : after.remoteSession = peer.remoteSession) (hnext : after.nextRxSeq = succSeq peer.nextRxSeq)
    (hras : ∀ reassembly, after.reassembling = some reassembly →
      ∃ x ∈ log, after.remoteSession = some x.session ∧ x.seq = reassembly.seq ∧
        reassembly.total = x.payload.length ∧ PartsOf x.payload reassembly.fragments) :
    Rx after log (delivered ++ [e]) := by
  obtain ⟨_, -, hbel, hbeyond⟩ := h.current e.session hses
  have hsucc : after.nextRxSeq = peer.nextRxSeq + 1 := by
    rw [hnext, succSeq]
    omega
  refine ⟨?_, ?_, hras⟩
  · rw [hrem, hses]
    exact nofun
  · intro session hses'
    rw [hrem, hses] at hses'
    cases hses'
    refine ⟨by omega, by omega, fun k hk hk' => ?_, fun x hx => ?_⟩
    · by_cases hlast : k = peer.nextRxSeq
      · exact ⟨e, mem_append_right _ (mem_singleton.mpr rfl), rfl, hseq.trans hlast.symm⟩
      · obtain ⟨x, hx, hlab⟩ := hbel k hk (by omega)
        exact ⟨x, mem_append_left _ hx, hlab⟩
    · rcases mem_append.mp hx with hold | hnew
      · rcases hbeyond x hold with hlt | ⟨heq, hlt⟩
        · exact .inl hlt
        · exact .inr ⟨heq, by omega⟩
      · cases mem_singleton.mp hnew
        exact .inr ⟨rfl, by omega⟩

theorem drop (hrem : after.remoteSession = peer.remoteSession)
    (hnext : after.nextRxSeq = peer.nextRxSeq) (hnone : after.reassembling = none) :
    Rx after log delivered := by
  refine ⟨?_, ?_, ?_⟩
  · rw [hrem]
    exact h.fresh
  · rw [hrem, hnext]
    exact h.current
  · rw [hnone]
    exact nofun

omit h

end Rx

/-- The reassembly after a fragment of a message, if there is one, holds parts of it. -/
theorem parts_buffer (h : Rx peer log delivered) (hsor : log.Pairwise Before) {e : Logged}
    (he : e ∈ log) {data : Bytes} (hcar : Carries a e.toSubmission header data)
    (hses : peer.remoteSession = some e.session) {buffered : ℕ}
    (hras : (peer.buffer buffered header.message data).reassembling = some reassembly) :
    reassembly.seq = e.seq ∧ reassembly.total = e.payload.length ∧
      PartsOf e.payload reassembly.fragments := by
  -- what the fragment is added to holds parts of the message already
  have hopened : ∀ opened, opened = (peer.reassembling.filter (·.seq == header.message.sequence)).getD
      (.new header.message.sequence header.message.totalMessageLen) →
      opened.seq = e.seq ∧ PartsOf e.payload opened.fragments := by
    rintro _ rfl
    cases hold : peer.reassembling.filter (·.seq == header.message.sequence) with
    | none => exact ⟨hcar.sequence, fun offset bytes hbs => absurd hbs (by simp [Reassembly.new])⟩
    | some old =>
      obtain ⟨hold, hseq⟩ := filter_eq_some_iff.mp hold
      have hseq : old.seq = e.seq := by
        rw [beq_iff_eq] at hseq
        exact hseq.trans hcar.sequence
      obtain ⟨x, hx, hrem, hxseq, -, hparts⟩ := h.reassembly old hold
      rw [hses] at hrem
      have hsame : x = e := eq_of_label hsor hx he (some.inj hrem).symm (hxseq.trans hseq)
      subst hsame
      exact ⟨hseq, hparts⟩
  obtain ⟨hseq, hparts⟩ := hopened _ rfl
  unfold Peer.buffer at hras
  simp only at hras
  split at hras
  · cases hras
  rename_i htot
  have htot : (peer.reassembly header.message).total = e.payload.length := by
    rw [← hcar.total]
    simpa using htot
  split at hras
  · cases hras
    exact ⟨hseq, htot, hparts⟩
  split at hras
  · cases hras
  cases hras
  refine ⟨hseq, htot, fun offset bytes hbs => ?_⟩
  rw [ExtTreeMap.getElem?_insert] at hbs
  split at hbs
  · rename_i hsame
    have hsame := Std.compare_eq_iff_eq.mp hsame
    cases hbs
    rw [← hsame]
    exact ⟨hcar.offset, hcar.data⟩
  · exact hparts offset bytes hbs

/-- A data frame of the sender: what is queued is the message it belongs to. -/
theorem Rx.data (h : Rx peer log delivered) (hsor : log.Pairwise Before) {e : Logged} (he : e ∈ log)
    (hrng : e.seq < 2 ^ 32 - 1) {data : Bytes}
    (hcar : Carries a e.toSubmission header data) (hses : peer.remoteSession = some e.session)
    {queued : Option Bytes} (hstep : DataStep peer header.message data after queued) :
    after.remoteSession = some e.session ∧ ((queued = none ∧ Rx after log delivered) ∨
        (queued = some e.payload ∧ (∀ x ∈ delivered, Before x e) ∧
          Rx after log (delivered ++ [e]))) := by
  have hbef : header.message.sequence = peer.nextRxSeq → ∀ x ∈ delivered, Before x e := by
    intro hnext x hx
    rw [hcar.sequence] at hnext
    rw [Before, hnext]
    exact (h.current e.session hses).2.2.2 x hx
  cases hstep with
  | skip => exact ⟨hses, .inl ⟨rfl, h⟩⟩
  | single hsg hnext =>
    have hsht : e.payload.length ≤ maxPayloadSize := by
      rw [hcar.fragment, decide_eq_false_iff_not, Nat.not_lt] at hsg
      exact hsg
    have hzero : header.message.fragmentOffset = 0 := by
      have hlt := hcar.offset
      rw [← hcar.start]
      exact (Nat.mod_eq_of_lt (by omega)).symm
    have hdata : data = e.payload := by
      rw [hcar.data, hzero, chunk, drop_zero, Nat.sub_zero, min_eq_left hsht, take_length]
    refine ⟨hses, .inr ⟨by rw [hdata], hbef hnext, ?_⟩⟩
    exact h.deliver hses (hcar.sequence.symm.trans hnext) hrng rfl rfl h.reassembly
  | @fragment buffered hfrag hnext =>
    refine ⟨remoteSession_buffer.trans hses, .inl ⟨rfl, ?_, ?_, ?_⟩⟩
    · rw [remoteSession_buffer]
      exact h.fresh
    · rw [remoteSession_buffer, nextRxSeq_buffer]
      exact h.current
    · intro reassembly hras
      obtain ⟨hseq, htot, hparts⟩ := parts_buffer h hsor he hcar hses hras
      exact ⟨e, he, remoteSession_buffer.trans hses, hseq.symm, htot, hparts⟩
  | drop =>
    exact ⟨remoteSession_buffer.trans hses,
      .inl ⟨rfl, h.drop remoteSession_buffer nextRxSeq_buffer rfl⟩⟩
  | @assembled buffered reassembly reserved bytes hfrag hnext hras hasm =>
    obtain ⟨-, htot, hparts⟩ := parts_buffer h hsor he hcar hses hras
    have hbs : bytes = e.payload := assemble_eq hparts htot hasm
    refine ⟨remoteSession_buffer.trans hses, .inr ⟨by rw [hbs], hbef hnext, ?_⟩⟩
    exact h.deliver hses (hcar.sequence.symm.trans hnext) hrng remoteSession_buffer rfl fun _ h => by cases h

end Charlotte.Relmsg
