import Charlotte.Graft.Membership
import Charlotte.Lib.Numeral
import Charlotte.Lib.Protobuf

/-!
# Configuration commands

`configuration.rs` and the messages of `proto.rs` it uses: membership changes
travel through the log as protocol-buffer messages, next to the application's
own command bytes. A log entry is a configuration command exactly when `decode`
accepts its bytes.
-/

namespace Charlotte.Graft

open Lib.Protobuf

inductive ConfigurationCommand
  | joint (members : List Peer)
  | finalize
  | join (peer : Peer)
  deriving DecidableEq, Repr

namespace Proto

structure PeerSpec where
  id : Text := []
  host : Text := []
  port : ℕ := 0
  role : Text := []
  deriving DecidableEq, Repr

inductive InternalRaftCommand
  | joint (members : List PeerSpec)
  | finalize
  | join (member : Option PeerSpec)
  deriving DecidableEq, Repr

/-- Depth left to the fields of a message embedded `level` times. -/
def depthAt (level : ℕ) : ℕ := recursionLimit - level

/-- `level` is the nesting level of the message the field belongs to. -/
def skip {α : Type} (level : ℕ) (message : α) (tag : ℕ) (wire : WireType) (bytes : Bytes) :
    Option (α × Bytes) :=
  (skipField (depthAt level) wire tag bytes).map fun rest => (message, rest)

def PeerSpec.mergeField (spec : PeerSpec) (tag : ℕ) (wire : WireType) (bytes : Bytes) :
    Option (PeerSpec × Bytes) :=
  match tag with
  | 1 => (readString wire bytes).map fun (text, rest) => ({ spec with id := text }, rest)
  | 2 => (readString wire bytes).map fun (text, rest) => ({ spec with host := text }, rest)
  | 3 =>
    if wire = .varint then
      -- an `int32` keeps the low 32 bits
      (readVarint bytes).map fun (n, rest) => ({ spec with port := n % 2 ^ 32 }, rest)
    else none
  | 4 => (readString wire bytes).map fun (text, rest) => ({ spec with role := text }, rest)
  | _ => skip 2 spec tag wire bytes

def mergeJointField (members : List PeerSpec) (tag : ℕ) (wire : WireType) (bytes : Bytes) :
    Option (List PeerSpec × Bytes) :=
  match tag with
  | 1 =>
    (mergeMessage PeerSpec.mergeField {} wire bytes).map fun (spec, rest) =>
      (members ++ [spec], rest)
  | _ => skip 1 members tag wire bytes

def mergeJoinField (member : Option PeerSpec) (tag : ℕ) (wire : WireType) (bytes : Bytes) :
    Option (Option PeerSpec × Bytes) :=
  match tag with
  | 1 =>
    (mergeMessage PeerSpec.mergeField (member.getD {}) wire bytes).map fun (spec, rest) =>
      (some spec, rest)
  | _ => skip 1 member tag wire bytes

/-- A repeated field of the oneof merges into the value it already has, and
replaces a value of another kind. -/
def InternalRaftCommand.mergeField (command : Option InternalRaftCommand) (tag : ℕ)
    (wire : WireType) (bytes : Bytes) : Option (Option InternalRaftCommand × Bytes) :=
  match tag with
  | 1 =>
    let members := match command with
      | some (.joint members) => members
      | _ => []
    (mergeMessage mergeJointField members wire bytes).map fun (members, rest) =>
      (some (.joint members), rest)
  | 2 =>
    (mergeMessage (fun (_ : Unit) => skip 1 ()) () wire bytes).map fun (_, rest) =>
      (some .finalize, rest)
  | 3 =>
    let member := match command with
      | some (.join member) => member
      | _ => none
    (mergeMessage mergeJoinField member wire bytes).map fun (member, rest) =>
      (some (.join member), rest)
  | _ => skip 0 command tag wire bytes

/-- Outer `none`: the bytes are not a message. Inner `none`: no command is set. -/
def InternalRaftCommand.decode (bytes : Bytes) : Option (Option InternalRaftCommand) :=
  merge InternalRaftCommand.mergeField none bytes

def PeerSpec.encode (spec : PeerSpec) : Bytes :=
  writeString 1 spec.id ++ writeString 2 spec.host ++
    (if spec.port = 0 then [] else writeVarint (3 * 8) ++ writeVarint spec.port) ++
    writeString 4 spec.role

def InternalRaftCommand.encode : InternalRaftCommand → Bytes
  | .joint members =>
    writeDelimited 1 (members.flatMap fun spec => writeDelimited 1 spec.encode)
  | .finalize => writeDelimited 2 []
  | .join none => writeDelimited 3 []
  | .join (some spec) => writeDelimited 3 (writeDelimited 1 spec.encode)

end Proto

/-- The host text that carries a service name. -/
def charlotteHost (serviceName : UInt64) : Text :=
  ascii "charlotte:" ++ Lib.Numeral.renderPadded 16 16 serviceName.toNat

/-- The text after a given beginning. -/
def afterStart (start text : Text) : Option Text :=
  if start.isPrefixOf text then some (text.drop start.length) else none

/-- The text without a leading plus sign. -/
def withoutPlus (text : Text) : Text := if text.head? = some 43 then text.tail else text

/-- `u64::from_str_radix(_, 16)`, which also takes a leading plus sign. -/
def parseHexU64 (text : Text) : Option UInt64 :=
  match Lib.Numeral.parse 16 (withoutPlus text) with
  | some n => if n < 2 ^ 64 then some (UInt64.ofNat n) else none
  | none => none

/-- The service name in a host text; zero when there is none. -/
def serviceNameOfHost (host : Text) : UInt64 :=
  ((afterStart (ascii "charlotte:") host).bind parseHexU64).getD 0

def toAsciiLower (byte : UInt8) : UInt8 := if 65 ≤ byte ∧ byte ≤ 90 then byte + 32 else byte

def eqIgnoreAsciiCase (a b : Text) : Bool := a.map toAsciiLower == b.map toAsciiLower

/-- Everything that does not spell `LEARNER` is a voter. -/
def roleOfText (text : Text) : Role :=
  if eqIgnoreAsciiCase text (ascii "LEARNER") then .learner else .voter

def roleText (peer : Peer) : Text := if peer.isVoter then ascii "VOTER" else ascii "LEARNER"

def peerSpec (peer : Peer) : Proto.PeerSpec :=
  { id := peer.id, host := charlotteHost peer.serviceName, port := 0, role := roleText peer }

def peerOfSpec (spec : Proto.PeerSpec) : Option Peer :=
  if spec.id.isEmpty then none
  else some ⟨spec.id, serviceNameOfHost spec.host, roleOfText spec.role⟩

namespace Configuration

/-- Encoding into a growing buffer does not fail. -/
def encode : ConfigurationCommand → Bytes
  | .joint members => (Proto.InternalRaftCommand.joint (members.map peerSpec)).encode
  | .finalize => Proto.InternalRaftCommand.finalize.encode
  | .join peer => (Proto.InternalRaftCommand.join (some (peerSpec peer))).encode

def decode (bytes : Bytes) : Option ConfigurationCommand := do
  let message ← Proto.InternalRaftCommand.decode bytes
  match ← message with
  | .joint members => (members.mapM peerOfSpec).map .joint
  | .finalize => some .finalize
  | .join member => (member.bind peerOfSpec).map .join

theorem decode_nil : decode [] = none := by decide

end Configuration

end Charlotte.Graft
