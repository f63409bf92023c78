import Charlotte.Graft.Configuration
import Charlotte.Lib.Base64
import Charlotte.Lib.TextSearch

/-!
# Snapshot envelope

`snapshot_codec.rs`: a snapshot is stored as a line of JSON that carries the
membership, the index of the membership command and the application's own
snapshot. The writer escapes member ids; the reader looks fields up by their
quoted names and cuts a member's object off at the first closing brace.

A text and a cursor into it are the pair of what stands before and after the
cursor.
-/

namespace Charlotte.Graft

open Lib.TextSearch

structure SnapshotEnvelope where
  membershipEpoch : ℕ
  currentMembers : List Peer
  nextMembers : List Peer
  stateMachineSnapshot : Bytes
  deriving DecidableEq, Repr

namespace SnapshotCodec

variable (byte : UInt8)

/-- `str::replace` of one ASCII character. -/
def replace (by_ text : Text) : Text :=
  text.flatMap fun b => if b = byte then by_ else [b]

def escape (text : Text) : Text :=
  replace 9 (ascii "\\t") (replace 13 (ascii "\\r") (replace 10 (ascii "\\n")
    (replace 34 (ascii "\\\"") (replace 92 (ascii "\\\\") text))))

def quoteJson (text : Text) : Text := ascii "\"" ++ escape text ++ ascii "\""

def memberJson (peer : Peer) : Text :=
  ascii "\x7b\"id\":" ++ quoteJson peer.id ++ ascii ",\"role\":\"" ++ roleText peer ++
    ascii "\",\"address\":\x7b\"host\":\"" ++ charlotteHost peer.serviceName ++
    ascii "\",\"port\":0\x7d\x7d"

/-- The members joined by commas. -/
def membersJson (members : List Peer) : Text :=
  [44].intercalate (members.map memberJson)

def wrapSnapshotPayloadWithMembershipEpoch (currentMembers nextMembers : List Peer)
    (membershipEpoch : ℕ) (stateMachineSnapshot : Bytes) : Bytes :=
  ascii "\x7b\"version\":1,\"membershipEpoch\":" ++ Lib.Numeral.render 10 membershipEpoch ++
    ascii ",\"currentMembers\":[" ++ membersJson currentMembers ++
    ascii "],\"nextMembers\":[" ++ membersJson nextMembers ++
    ascii "],\"stateMachineSnapshot\":" ++
    quoteJson (Lib.Base64.encode stateMachineSnapshot) ++ ascii "\x7d"

/-- The character an escape stands for. -/
def unescape : Option UInt8 :=
  if byte = 34 then some 34
  else if byte = 92 then some 92
  else if byte = 110 then some 10
  else if byte = 114 then some 13
  else if byte = 116 then some 9
  else none

/-- Control characters of ASCII, the delete character included. -/
def isAsciiControl : Bool := decide (byte < 32) || decide (byte = 127)

/-- The contents of a string after its opening quote, and how many bytes they
and the closing quote take. -/
def parseJsonChars (escaped : Bool) : Text → Option (Text × ℕ)
  | [] => none
  | byte :: rest =>
    if escaped then do
      let c ← unescape byte
      let (out, consumed) ← parseJsonChars false rest
      some (c :: out, consumed + 1)
    else if byte = 92 then do
      let (out, consumed) ← parseJsonChars true rest
      some (out, consumed + 1)
    else if byte = 34 then some ([], 1)
    else if isAsciiControl byte then none
    else if byte < 128 then do
      let (out, consumed) ← parseJsonChars false rest
      some (byte :: out, consumed + 1)
    else none

/-- A quoted string at the start of the text: its contents and its length. -/
def parseJsonString : Text → Option (Text × ℕ)
  | 34 :: rest => (parseJsonChars false rest).map fun (out, consumed) => (out, consumed + 1)
  | _ => none

/-- The text after `"field":`, at its first occurrence. -/
def afterField (value field : Text) : Option Text :=
  (splitFirst (ascii "\"" ++ field ++ ascii "\":") value).map Prod.snd

/-- The string value of a field, with its escapes left as they are. -/
def stringField (value field : Text) : Option Text := do
  let rest ← afterField value field
  let (_, consumed) ← parseJsonString rest
  some ((rest.take (consumed - 1)).drop 1)

def isAsciiDigit : Bool := decide (48 ≤ byte) && decide (byte ≤ 57)

def unsignedField (value field : Text) : Option ℕ := do
  let rest ← afterField value field
  let n ← Lib.Numeral.parse 10 (rest.takeWhile isAsciiDigit)
  if n < 2 ^ 64 then some n else none

/-- Whether the scanner is inside a string, and whether after a backslash. -/
structure ScanState where
  inString : Bool
  escaped : Bool
  deriving DecidableEq, Repr

/-- The state after a byte; `none` at the bracket that closes the array. -/
def scanByte (state : ScanState) (byte : UInt8) : Option ScanState :=
  if state.inString then
    if state.escaped then some { state with escaped := false }
    else if byte = 92 then some { state with escaped := true }
    else if byte = 34 then some { state with inString := false }
    else some state
  else if byte = 34 then some { state with inString := true }
  else if byte = 93 then none
  else some state

/-- The text up to the bracket that closes the array. -/
def arrayBody (state : ScanState) : Text → Option Text
  | [] => none
  | byte :: rest =>
    match scanByte state byte with
    | none => some []
    | some state => (arrayBody state rest).map (byte :: ·)

/-- The marker of a member's id. -/
def idMarker : Text := ascii "\"id\":"

/-- The member whose id starts at the cursor. -/
def memberAt (before rest : Text) : Option (Peer × ℕ) := do
  let head ← fromLast 123 before
  let tail ← uptoFirst 125 rest
  let object := head ++ tail
  let (id, consumed) ← parseJsonString rest
  let role := (stringField object (ascii "role")).getD (ascii "VOTER")
  let host := (stringField object (ascii "host")).getD []
  some (⟨id, serviceNameOfHost host, roleOfText role⟩, consumed)

/-- The members from the cursor on. Each takes at least its id marker, which
bounds their number by the length of the array. -/
def membersFrom : ℕ → Text → Text → Option (List Peer)
  | 0, _, _ => some []
  | fuel + 1, before, rest =>
    match splitFirst idMarker rest with
    | none => some []
    | some (skipped, rest) => do
        let before := before ++ skipped ++ idMarker
        let (peer, consumed) ← memberAt before rest
        let members ← membersFrom fuel (before ++ rest.take consumed) (rest.drop consumed)
        some (peer :: members)

def memberIds (value field : Text) : Option (List Peer) := do
  let (_, rest) ← splitFirst (ascii "\"" ++ field ++ ascii "\":[") value
  let array ← arrayBody ⟨false, false⟩ rest
  membersFrom (array.length + 1) [] array

def decodeSnapshotPayload (payload : Bytes) : Option SnapshotEnvelope := do
  if Lib.Utf8.valid payload then
    let currentMembers ← memberIds payload (ascii "currentMembers")
    let nextMembers ← memberIds payload (ascii "nextMembers")
    let text ← stringField payload (ascii "stateMachineSnapshot")
    let stateMachineSnapshot ← Lib.Base64.decode text
    some {
      membershipEpoch := (unsignedField payload (ascii "membershipEpoch")).getD 0
      currentMembers, nextMembers, stateMachineSnapshot }
  else none

end SnapshotCodec

end Charlotte.Graft
