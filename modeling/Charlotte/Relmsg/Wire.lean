import Charlotte.Lib.ByteCodec
import Charlotte.Lib.Checks

/-!
# Wire format of the reliable message layer

The frame header of `charlotte-protocol-msg`, its checked parser, and the wire
sessions. The envelope that an application hands to `relmsg` is read here as well.
-/

namespace Charlotte.Relmsg

open Lib List

abbrev Bytes := List UInt8

/-- Six bytes. -/
abbrev Mac := Bytes

def msgEthertype : ℕ := 0x88b5
def wireVersion : ℕ := 3
def headerSize : ℕ := 32
def ethernetHeaderSize : ℕ := 14
def frameHeaderSize : ℕ := ethernetHeaderSize + headerSize
def maxPayloadSize : ℕ := 1500 - ethernetHeaderSize - headerSize

def flagSyn : ℕ := 1
def flagAck : ℕ := 2
def flagFin : ℕ := 4
/-- The frame is a fragment of a message of several frames. -/
def flagFrag : ℕ := 8
/-- More fragments of the message follow. -/
def flagMore : ℕ := 16
def validFlags : ℕ := 31

structure MessageHeader where
  session : ℕ
  sequence : ℕ
  acknowledgment : ℕ
  fragmentOffset : ℕ
  totalMessageLen : ℕ
  payloadLen : ℕ
  flags : ℕ
  deriving DecidableEq, Repr

structure FrameHeader where
  destination : Mac
  source : Mac
  message : MessageHeader
  deriving DecidableEq, Repr

inductive HeaderError
  | frameTooShort
  | wrongEtherType
  | wrongVersion
  | reservedBits
  | invalidFlags
  | payloadTooLarge
  | invalidControlPayload
  deriving DecidableEq, Repr

variable (header : MessageHeader)

/-- Whether one of the given flags is set. -/
def MessageHeader.has (flags : ℕ) : Bool := header.flags &&& flags != 0

/-- `build_header`. -/
def buildHeader : Bytes :=
  beBytes 2 msgEthertype ++ (beBytes 2 wireVersion ++ (beBytes 8 header.session ++
    (beBytes 4 header.sequence ++ (beBytes 4 header.acknowledgment ++
      (beBytes 4 header.fragmentOffset ++ (beBytes 4 header.totalMessageLen ++
        (beBytes 2 header.payloadLen ++ beBytes 2 header.flags)))))))

/-- `build_frame_header`. -/
def buildFrameHeader (header : FrameHeader) : Bytes :=
  header.destination ++ (header.source ++ (beBytes 2 msgEthertype ++ buildHeader header.message))

def refuse (condition : Bool) (error : HeaderError) : Except HeaderError Unit :=
  if condition then .error error else .ok ()

def short {α : Type} (read : Option α) : Except HeaderError α :=
  read.elim (.error .frameTooShort) .ok

/-- The checks of `parse_header_checked` after the fixed fields. -/
def MessageHeader.check : Except HeaderError Unit := do
  refuse (header.has (65535 - validFlags) || (header.has flagMore && !header.has flagFrag)) .invalidFlags
  refuse (header.fragmentOffset != 0 && !header.has flagFrag) .reservedBits
  refuse (decide (maxPayloadSize < header.payloadLen) || decide (4096 < headerSize + header.payloadLen))
    .payloadTooLarge
  if header.has (flagAck ||| flagFin) then
    refuse (header.has (flagFrag ||| flagMore)) .invalidFlags
    refuse (header.payloadLen != 0 || header.fragmentOffset != 0 || header.totalMessageLen != 0)
      .invalidControlPayload
  else
    refuse (header.payloadLen == 0 || header.totalMessageLen == 0) .payloadTooLarge
    let stop := header.fragmentOffset + header.payloadLen
    refuse (decide (2 ^ 32 ≤ stop)) .payloadTooLarge
    if !header.has flagFrag then
      refuse (header.fragmentOffset != 0 || header.totalMessageLen != header.payloadLen) .reservedBits
    else
      refuse (decide (header.totalMessageLen ≤ header.payloadLen) ||
        decide (header.totalMessageLen < stop) ||
        (header.has flagMore != decide (stop < header.totalMessageLen))) .reservedBits

variable {header}

theorem check_single (hfl : header.flags = flagSyn)
    (hoff : header.fragmentOffset = 0) (hpos : 0 < header.payloadLen)
    (hmax : header.payloadLen ≤ maxPayloadSize) (htot : header.totalMessageLen = header.payloadLen) :
    header.check = .ok () := by
  have hpay : maxPayloadSize = 1454 := rfl
  have hsize : headerSize = 32 := rfl
  have hbits : header.has flagFrag = false ∧ header.has flagMore = false ∧
      header.has (65535 - validFlags) = false ∧ header.has (flagAck ||| flagFin) = false := by
    simp only [MessageHeader.has, hfl]
    decide
  obtain ⟨hfrag, hmore, hval, hcont⟩ := hbits
  have hlarge : ¬ maxPayloadSize < header.payloadLen := by omega
  have hfrm : ¬ 4096 < headerSize + header.payloadLen := by omega
  have hstop : ¬ 2 ^ 32 ≤ header.payloadLen := by omega
  have hzero : header.payloadLen ≠ 0 := by omega
  simp only [MessageHeader.check, hfrag, hmore, hval, hcont, hoff, htot, refuse, hlarge,
    hfrm, Nat.zero_add, hstop, decide_false]
  simp [hzero, bind, Except.bind]

theorem check_ack (hfl : header.flags = flagSyn ||| flagAck)
    (hoff : header.fragmentOffset = 0) (hlen : header.payloadLen = 0)
    (htot : header.totalMessageLen = 0) : header.check = .ok () := by
  simp only [MessageHeader.check, MessageHeader.has, hfl, hoff, hlen, htot]
  decide

theorem check_fragment
    (hfl : header.flags = if header.fragmentOffset + header.payloadLen < header.totalMessageLen then
      flagSyn ||| flagFrag ||| flagMore else flagSyn ||| flagFrag)
    (hpos : 0 < header.payloadLen) (hmax : header.payloadLen ≤ maxPayloadSize)
    (htot : header.payloadLen < header.totalMessageLen)
    (hstop : header.fragmentOffset + header.payloadLen ≤ header.totalMessageLen)
    (hrng : header.totalMessageLen < 2 ^ 32) : header.check = .ok () := by
  have hpay : maxPayloadSize = 1454 := rfl
  have hsize : headerSize = 32 := rfl
  have hbits : header.has flagFrag = true ∧ header.has (65535 - validFlags) = false ∧
      header.has (flagAck ||| flagFin) = false ∧ header.has flagMore =
        decide (header.fragmentOffset + header.payloadLen < header.totalMessageLen) := by
    simp only [MessageHeader.has, hfl]
    split
    · rename_i hlt
      simp only [hlt]
      decide
    · rename_i hge
      simp only [hge]
      decide
  obtain ⟨hfrag, hval, hcont, hmore⟩ := hbits
  have hlarge : ¬ maxPayloadSize < header.payloadLen := by omega
  have hfrm : ¬ 4096 < headerSize + header.payloadLen := by omega
  have hwrap : ¬ 2 ^ 32 ≤ header.fragmentOffset + header.payloadLen := by omega
  have hzero : header.payloadLen ≠ 0 := by omega
  have hzero' : header.totalMessageLen ≠ 0 := by omega
  have hle : ¬ header.totalMessageLen ≤ header.payloadLen := by omega
  have hbeyond : ¬ header.totalMessageLen < header.fragmentOffset + header.payloadLen := by omega
  simp only [MessageHeader.check, hfrag, hval, hcont, refuse, hlarge, hfrm, hwrap, hle,
    hbeyond, decide_false]
  simp [hzero, hzero', hmore, bind, Except.bind]

/-- `parse_header_checked`. -/
def parseHeaderChecked (bytes : Bytes) : Except HeaderError MessageHeader := do
  let (etherType, rest) ← short (takeBe 2 bytes)
  refuse (etherType != msgEthertype) .wrongEtherType
  let (version, rest) ← short (takeBe 2 rest)
  refuse (version != wireVersion) .wrongVersion
  let (session, rest) ← short (takeBe 8 rest)
  let (sequence, rest) ← short (takeBe 4 rest)
  let (acknowledgment, rest) ← short (takeBe 4 rest)
  let (fragmentOffset, rest) ← short (takeBe 4 rest)
  let (totalMessageLen, rest) ← short (takeBe 4 rest)
  let (payloadLen, rest) ← short (takeBe 2 rest)
  let (flags, _) ← short (takeBe 2 rest)
  let header : MessageHeader :=
    { session, sequence, acknowledgment, fragmentOffset, totalMessageLen, payloadLen, flags }
  header.check
  pure header

/-- `parse_frame_header_checked`. -/
def parseFrameHeaderChecked (frame : Bytes) : Except HeaderError FrameHeader := do
  refuse (decide (frame.length < frameHeaderSize)) .frameTooShort
  let (destination, rest) ← short (takeBytes 6 frame)
  let (source, rest) ← short (takeBytes 6 rest)
  let (etherType, rest) ← short (takeBe 2 rest)
  refuse (etherType != msgEthertype) .wrongEtherType
  let message ← parseHeaderChecked rest
  refuse (decide (frame.length < frameHeaderSize + message.payloadLen)) .frameTooShort
  pure ⟨destination, source, message⟩

def makeFrame (header : FrameHeader) (payload : Bytes) : Bytes := buildFrameHeader header ++ payload

/-- The payload of a frame, as its header delimits it. -/
def payloadOf (header : FrameHeader) (frame : Bytes) : Bytes :=
  (frame.drop frameHeaderSize).take header.message.payloadLen

/-- The fields are in the range of their wire types. -/
structure FrameHeader.Fits (header : FrameHeader) : Prop where
  destination : header.destination.length = 6
  source : header.source.length = 6
  session : header.message.session < 2 ^ 64
  sequence : header.message.sequence < 2 ^ 32
  acknowledgment : header.message.acknowledgment < 2 ^ 32
  fragmentOffset : header.message.fragmentOffset < 2 ^ 32
  totalMessageLen : header.message.totalMessageLen < 2 ^ 32
  payloadLen : header.message.payloadLen < 2 ^ 16
  flags : header.message.flags < 2 ^ 16

theorem length_buildFrameHeader {header : FrameHeader} (h : header.Fits) :
    (buildFrameHeader header).length = frameHeaderSize := by
  simp [buildFrameHeader, buildHeader, h.destination, h.source, frameHeaderSize,
    ethernetHeaderSize, headerSize]

theorem takeBytes_six {taken : Bytes} (h : taken.length = 6) (rest : Bytes) :
    takeBytes 6 (taken ++ rest) = some (taken, rest) := by
  rw [← h]
  exact takeBytes_append taken rest

theorem parseHeaderChecked_build {header : FrameHeader} (h : header.Fits)
    (hck : header.message.check = .ok ()) (payload : Bytes) :
    parseHeaderChecked (buildHeader header.message ++ payload) = .ok header.message := by
  have hses : header.message.session < 256 ^ 8 := h.session
  have hseq : header.message.sequence < 256 ^ 4 := h.sequence
  have hack : header.message.acknowledgment < 256 ^ 4 := h.acknowledgment
  have hoff : header.message.fragmentOffset < 256 ^ 4 := h.fragmentOffset
  have htot : header.message.totalMessageLen < 256 ^ 4 := h.totalMessageLen
  have hlen : header.message.payloadLen < 256 ^ 2 := h.payloadLen
  have hfl : header.message.flags < 256 ^ 2 := h.flags
  have hethe : msgEthertype < 256 ^ 2 := by decide
  have hver : wireVersion < 256 ^ 2 := by decide
  simp only [parseHeaderChecked, buildHeader, append_assoc, takeBe_append hethe,
    takeBe_append hver, takeBe_append hses, takeBe_append hseq, takeBe_append hack,
    takeBe_append hoff, takeBe_append htot, takeBe_append hlen, takeBe_append hfl, short,
    Option.elim_some, refuse, bne_self_eq_false, Bool.false_eq_true, if_false, bind, Except.bind,
    hck]
  rfl

/-- A frame that is built from a checked header is parsed as that header and its payload. -/
theorem parseFrameHeaderChecked_makeFrame {header : FrameHeader} (h : header.Fits)
    (hck : header.message.check = .ok ()) {payload : Bytes}
    (hpay : payload.length = header.message.payloadLen) :
    parseFrameHeaderChecked (makeFrame header payload) = .ok header ∧
      payloadOf header (makeFrame header payload) = payload := by
  have hlen := length_buildFrameHeader h
  have hethe : msgEthertype < 256 ^ 2 := by decide
  constructor
  · have hfrm : (makeFrame header payload).length = frameHeaderSize + header.message.payloadLen := by
      rw [makeFrame, length_append, hlen, hpay]
    have hprs := parseHeaderChecked_build h hck payload
    rw [parseFrameHeaderChecked, hfrm]
    simp only [makeFrame, buildFrameHeader, append_assoc, takeBytes_six h.destination,
      takeBytes_six h.source, takeBe_append hethe, hprs, short, Option.elim_some, refuse,
      Nat.not_lt_of_le (Nat.le_add_right _ _), Nat.lt_irrefl, decide_false, bne_self_eq_false,
      Bool.false_eq_true, if_false, bind, Except.bind]
    rfl
  · rw [payloadOf, makeFrame, ← hlen, drop_left, ← hpay, take_length]

section Inversion

variable {α : Type}

theorem short_eq_ok {read : Option α} {a : α} : short read = .ok a ↔ read = some a := by
  cases read <;> simp [short]

theorem refuse_eq_ok {condition : Bool} {error : HeaderError} {u : Unit} :
    refuse condition error = .ok u ↔ condition = false := by
  cases condition <;> simp [refuse]

end Inversion

theorem parseHeaderChecked_ok {bytes : Bytes} (h : parseHeaderChecked bytes = .ok header) :
    header.session < 2 ^ 64 ∧ header.sequence < 2 ^ 32 ∧ header.acknowledgment < 2 ^ 32 ∧
      header.fragmentOffset < 2 ^ 32 ∧ header.totalMessageLen < 2 ^ 32 ∧
      header.payloadLen < 2 ^ 16 ∧ header.flags < 2 ^ 16 := by
  simp only [parseHeaderChecked, bind_eq_ok, short_eq_ok, refuse_eq_ok] at h
  obtain ⟨⟨_, _⟩, -, -, -, ⟨_, _⟩, -, -, -, ⟨_, _⟩, hses, ⟨_, _⟩, hseq,
    ⟨acknowledgment, _⟩, hack, ⟨offset, _⟩, hoff, ⟨total, _⟩, htot, ⟨len, _⟩, hlen,
    ⟨flags, _⟩, hfl, -, -, h⟩ := h
  cases h
  exact ⟨takeBe_lt hses, takeBe_lt hseq, takeBe_lt hack, takeBe_lt hoff,
    takeBe_lt htot, takeBe_lt hlen, takeBe_lt hfl⟩

theorem fits_of_parse {frame : Bytes} {header : FrameHeader}
    (h : parseFrameHeaderChecked frame = .ok header) : header.Fits := by
  simp only [parseFrameHeaderChecked, bind_eq_ok, short_eq_ok, refuse_eq_ok] at h
  obtain ⟨-, -, ⟨_, _⟩, hdst, ⟨_, _⟩, hsrc, ⟨_, _⟩, -, -, -, _, hmsg, -, -, h⟩ := h
  cases h
  obtain ⟨hses, hseq, hack, hoff, htot, hlen, hfl⟩ := parseHeaderChecked_ok hmsg
  exact ⟨(length_of_takeBytes hdst).1, (length_of_takeBytes hsrc).1, hses, hseq,
    hack, hoff, htot, hlen, hfl⟩

/-- Bits of a session that count the attempts of one service generation. -/
def sessionAttempts : ℕ := 2 ^ 32

def initialWireSession (generation : ℕ) : Option ℕ :=
  if generation < 2 ^ 32 ∧ generation ≠ 0 then some (generation * sessionAttempts + 1) else none

def nextWireSession (session : ℕ) : Option ℕ :=
  let generation := session / sessionAttempts
  let attempt := session % sessionAttempts
  if generation = 0 ∨ attempt = 0 ∨ attempt = sessionAttempts - 1 then none else some (session + 1)

def wireSessionIsNewer (candidate current : ℕ) : Bool :=
  candidate / sessionAttempts != 0 && candidate % sessionAttempts != 0 && decide (current < candidate)

/-- `"RMI3"`. -/
def ipcMessageMagic : Bytes := [0x52, 0x4d, 0x49, 0x33]
def ipcMessageHeaderSize : ℕ := 16

structure IpcMessageHeader where
  peer : Mac
  payloadLen : ℕ
  deriving DecidableEq, Repr

def buildIpcMessageHeader (peer : Mac) (payloadLen : ℕ) : Bytes :=
  ipcMessageMagic ++ (leBytes 4 payloadLen ++ (peer ++ [0, 0]))

/-- `parse_ipc_message_header`; its caller does not look at the error. -/
def parseIpcMessageHeader (object : Bytes) : Option IpcMessageHeader := do
  let (magic, rest) ← takeBytes 4 object
  reject (magic != ipcMessageMagic)
  let (payloadLen, rest) ← takeLe 4 rest
  let (peer, rest) ← takeBytes 6 rest
  let (reserved, _) ← takeBytes 2 rest
  reject (reserved != [0, 0] || decide (object.length < ipcMessageHeaderSize + payloadLen))
  some ⟨peer, payloadLen⟩

theorem length_of_parseIpcMessageHeader {object : Bytes} {header : IpcMessageHeader}
    (h : parseIpcMessageHeader object = some header) :
    header.peer.length = 6 ∧ ipcMessageHeaderSize + header.payloadLen ≤ object.length := by
  simp only [parseIpcMessageHeader, Option.bind_eq_bind, Option.bind_eq_some_iff, reject_eq_some] at h
  obtain ⟨⟨_, _⟩, -, -, -, ⟨_, _⟩, -, ⟨_, _⟩, hpeer, ⟨_, _⟩, -,
    -, hlen, h⟩ := h
  cases Option.some.inj h
  rw [Bool.or_eq_false_iff, decide_eq_false_iff_not, Nat.not_lt] at hlen
  exact ⟨(length_of_takeBytes hpeer).1, hlen.2⟩

end Charlotte.Relmsg
