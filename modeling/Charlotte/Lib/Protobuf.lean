import Charlotte.Lib.Utf8

/-!
# Protocol-buffer wire format

Readers of the standard wire format over byte lists: base-128 numbers, field
keys, length-delimited values, and the skipping of unknown fields with nested
groups. A message decoder is a fold of a field handler over the bytes.

Every reader returns the bytes it has not consumed and `none` on malformed
input. Nesting is bounded by a depth that each level decreases, as decoders do
to bound their stack.
-/

namespace Charlotte.Lib.Protobuf

inductive WireType
  | varint
  | fixed64
  | delimited
  | startGroup
  | endGroup
  | fixed32
  deriving DecidableEq, Repr

/-- The wire type a key's low three bits stand for. -/
def WireType.ofNat? : ℕ → Option WireType
  | 0 => some .varint
  | 1 => some .fixed64
  | 2 => some .delimited
  | 3 => some .startGroup
  | 4 => some .endGroup
  | 5 => some .fixed32
  | _ => none

/-- The largest nesting depth a decoder follows. -/
def recursionLimit : ℕ := 100

/-- Base-128 number of at most `left` bytes, the last of which holds one bit
when all of them are used. -/
def readVarintWithin : ℕ → List UInt8 → Option (ℕ × List UInt8)
  | 0, _ => none
  | _ + 1, [] => none
  | left + 1, byte :: rest =>
    if byte.toNat < 128 then
      if left = 0 ∧ 1 < byte.toNat then none else some (byte.toNat, rest)
    else
      match readVarintWithin left rest with
      | some (high, rest) => some (byte.toNat - 128 + 128 * high, rest)
      | none => none

variable (bytes : List UInt8)

def readVarint : Option (ℕ × List UInt8) := readVarintWithin 10 bytes

/-- Field number and wire type. -/
def readKey : Option (ℕ × WireType × List UInt8) := do
  let (key, rest) ← readVarint bytes
  if 2 ^ 32 ≤ key then none
  else
    let wire ← WireType.ofNat? (key % 8)
    if key / 8 = 0 then none else some (key / 8, wire, rest)

/-- The first `count` bytes and the others. -/
def splitExactly (count : ℕ) (bytes : List UInt8) : Option (List UInt8 × List UInt8) :=
  if bytes.length < count then none else some (bytes.take count, bytes.drop count)

/-- A length and that many bytes. -/
def readDelimited : Option (List UInt8 × List UInt8) := do
  let (length, rest) ← readVarint bytes
  splitExactly length rest

/-- Skip the fields of a group up to its end key; `skip` skips one field. -/
def skipGroup (skip : WireType → ℕ → List UInt8 → Option (List UInt8)) (tag : ℕ) :
    ℕ → List UInt8 → Option (List UInt8)
  | 0, _ => none
  | fuel + 1, bytes => do
      let (inner, wire, rest) ← readKey bytes
      if wire = .endGroup then
        if inner = tag then some rest else none
      else
        let rest ← skip wire inner rest
        skipGroup skip tag fuel rest

/-- Skip the value of an unknown field. -/
def skipField : ℕ → WireType → ℕ → List UInt8 → Option (List UInt8)
  | 0, _, _, _ => none
  | depth + 1, wire, tag, bytes =>
    match wire with
    | .varint => (readVarint bytes).map Prod.snd
    | .fixed64 => (splitExactly 8 bytes).map Prod.snd
    | .fixed32 => (splitExactly 4 bytes).map Prod.snd
    | .delimited => (readDelimited bytes).map Prod.snd
    -- every key of the group takes a byte, so their number is bounded
    | .startGroup => skipGroup (skipField depth) tag bytes.length bytes
    | .endGroup => none

/-- Fold a field handler over the fields of a message. -/
def mergeFields {α : Type} (field : α → ℕ → WireType → List UInt8 → Option (α × List UInt8)) :
    ℕ → α → List UInt8 → Option α
  | _, message, [] => some message
  | 0, _, _ :: _ => none
  | fuel + 1, message, bytes => do
      let (tag, wire, rest) ← readKey bytes
      let (message, rest) ← field message tag wire rest
      mergeFields field fuel message rest

/-- Merge the fields in `bytes` into a message. -/
def merge {α : Type} (field : α → ℕ → WireType → List UInt8 → Option (α × List UInt8))
    (message : α) (bytes : List UInt8) : Option α :=
  mergeFields field bytes.length message bytes

/-- A field that holds an embedded message, merged into `message`. -/
def mergeMessage {α : Type} (field : α → ℕ → WireType → List UInt8 → Option (α × List UInt8))
    (message : α) (wire : WireType) (bytes : List UInt8) : Option (α × List UInt8) := do
  if wire = .delimited then
    let (body, rest) ← readDelimited bytes
    let message ← merge field message body
    some (message, rest)
  else none

/-- A string field: a delimited value that is valid UTF-8. -/
def readString (wire : WireType) (bytes : List UInt8) : Option (List UInt8 × List UInt8) := do
  if wire = .delimited then
    let (text, rest) ← readDelimited bytes
    if Utf8.valid text then some (text, rest) else none
  else none

/-- Base-128 rendering in at most `fuel` bytes, least significant first. -/
def writeVarintWithin : ℕ → ℕ → List UInt8
  | 0, _ => []
  | fuel + 1, n =>
    if n < 128 then [UInt8.ofNat n]
    else UInt8.ofNat (n % 128 + 128) :: writeVarintWithin fuel (n / 128)

def writeVarint (n : ℕ) : List UInt8 := writeVarintWithin 10 n

/-- A delimited field with its key. -/
def writeDelimited (tag : ℕ) (body : List UInt8) : List UInt8 :=
  writeVarint (tag * 8 + 2) ++ writeVarint body.length ++ body

/-- A string field, left out when it has its default value. -/
def writeString (tag : ℕ) (text : List UInt8) : List UInt8 :=
  if text.isEmpty then [] else writeDelimited tag text

end Charlotte.Lib.Protobuf
