import Charlotte.Lib.ByteCodec

/-!
# On-disk grammar of the object store

`charlotte-protocol-objstore/src/disk.rs`: object headers, directory entries and
the superblock, each with its checksum. The fields of a record are adjacent, so
that a decoder reads them one after the other.
-/

namespace Charlotte.ObjStore

open Lib List

abbrev Bytes := List UInt8

def zeros (count : ℕ) : Bytes := List.replicate count 0

variable (bytes : Bytes)

def zeroed : Bool := bytes.all (· == 0)

/-- One bit of a byte of the checksum. -/
def crcStep (crc : UInt32) : UInt32 := (crc >>> 1) ^^^ (0xedb88320 &&& (0 - (crc &&& 1)))

def crc32 : ℕ :=
  let crc := bytes.foldl (fun crc byte =>
    (List.range 8).foldl (fun crc _ => crcStep crc) (crc ^^^ byte.toUInt32)) 0xffffffff
  (~~~crc).toNat

theorem crc32_lt : crc32 bytes < 256 ^ 4 := UInt32.toNat_lt _

/-- A run of blocks. -/
structure Extent where
  lba : ℕ
  blocks : ℕ
  deriving DecidableEq, Repr

/-- The block in front of an object. -/
structure ObjectHeader where
  id : ℕ
  generation : ℕ
  dataLen : ℕ
  allocatedLen : ℕ
  dataOffset : ℕ
  headerBlocks : ℕ
  extents : List Extent
  dataHash : ℕ
  owner : ℕ
  attributes : ℕ
  deriving DecidableEq, Repr

def headerMagic : ℕ := 0x3444484a424f4343
def headerVersion : ℕ := 4
def headerLen : ℕ := 384
def maxExtents : ℕ := 16
def extentSize : ℕ := 16
def flagAllocated : ℕ := 1
def hashFnv1a64 : ℕ := 2
/-- `ATTR_SHARED_READ`, the only attribute. -/
def attrSharedRead : ℕ := 1

/-- `content_hash` of no bytes. -/
def emptyHash : ℕ := 0xcbf29ce484222325

def contentHash : ℕ :=
  (bytes.foldl (fun hash byte => (hash ^^^ byte.toUInt64) * 0x100000001b3)
    (0xcbf29ce484222325 : UInt64)).toNat

namespace ObjectHeader

def empty (id generation blockSize owner attributes : ℕ) : ObjectHeader :=
  ⟨id, generation, 0, 0, blockSize, 1, [], emptyHash, owner, attributes⟩

end ObjectHeader

def extentRecord (extent : Extent) : Bytes := record [(8, extent.lba), (4, extent.blocks), (4, 0)]

variable (header : ObjectHeader)

/-- The fields before the checksum, with their widths. -/
def headerFields : List (ℕ × ℕ) :=
  [(8, headerMagic), (2, headerVersion), (2, headerLen), (4, flagAllocated), (8, header.id),
    (8, header.generation), (8, header.dataLen), (8, header.allocatedLen), (8, header.dataOffset),
    (2, header.extents.length), (2, hashFnv1a64), (4, header.headerBlocks), (8, header.owner), (8, 0),
    (8, header.dataHash), (4, header.attributes), (20, 0)]

/-- The extents, and zeros for those that are not used. -/
def headerTable : Bytes :=
  header.extents.flatMap extentRecord ++ zeros (extentSize * (maxExtents - header.extents.length))

def sealedHeader (checksum : ℕ) : Bytes :=
  record (headerFields header ++ [(4, checksum), (12, 0)]) ++ headerTable header

def headerChecksum : ℕ := crc32 (sealedHeader header 0)

/-- `encode_header` into a block. -/
def encodeHeader (blockSize : ℕ) (header : ObjectHeader) : Bytes :=
  sealedHeader header (headerChecksum header) ++ zeros (blockSize - headerLen)

/-- The checksum with its own field taken as zero. -/
def headerCrc : ℕ :=
  crc32 (bytes.take 112 ++ (leBytes 4 0 ++ (bytes.drop 116).take (headerLen - 116)))

def takeExtent : Option (Extent × Bytes) :=
  match takeRecord [8, 4, 4] bytes with
  | some ([lba, blocks, padding], rest) =>
    if blocks = 0 ∨ padding ≠ 0 then none else some (⟨lba, blocks⟩, rest)
  | _ => none

def headerWidths : List ℕ := [8, 2, 2, 4, 8, 8, 8, 8, 8, 2, 2, 4, 8, 8, 8, 4, 20, 4, 12]

/-- The header, if its checksum and its fields are right. -/
def decodeHeader : Option ObjectHeader :=
  match takeRecord headerWidths bytes with
  | some ([magic, version, length, flags, id, generation, dataLen, allocatedLen, dataOffset,
      extentCount, hashKind, headerBlocks, owner, reserved, dataHash, attributes, reserved',
      checksum, reserved''], rest) =>
      if bytes.length < headerLen ∨ magic ≠ headerMagic ∨ version ≠ headerVersion ∨
          length ≠ headerLen ∨ flags ≠ flagAllocated ∨ id = 0 ∨ generation = 0 ∨ headerBlocks ≠ 1 ∨
          owner = 0 ∨ attrSharedRead < attributes ∨ maxExtents < extentCount ∨
          hashKind ≠ hashFnv1a64 ∨ reserved ≠ 0 ∨ reserved' ≠ 0 ∨ reserved'' ≠ 0 ∨
          checksum ≠ headerCrc bytes then none
      else
        match takeMany takeExtent extentCount rest with
        | none => none
        | some (extents, rest) =>
          if zeroed rest then
            some ⟨id, generation, dataLen, allocatedLen, dataOffset, headerBlocks, extents, dataHash,
              owner, attributes⟩
          else none
  | _ => none

/-- Every field is in the range of its width. -/
structure ObjectHeader.InRange (header : ObjectHeader) : Prop where
  id : header.id < 256 ^ 8
  generation : header.generation < 256 ^ 8
  dataLen : header.dataLen < 256 ^ 8
  allocatedLen : header.allocatedLen < 256 ^ 8
  dataOffset : header.dataOffset < 256 ^ 8
  headerBlocks : header.headerBlocks < 256 ^ 4
  count : header.extents.length ≤ maxExtents
  extents : ∀ extent ∈ header.extents, extent.lba < 256 ^ 8 ∧ extent.blocks < 256 ^ 4 ∧
    extent.blocks ≠ 0
  dataHash : header.dataHash < 256 ^ 8
  owner : header.owner < 256 ^ 8
  attributes : header.attributes < 256 ^ 4

theorem takeExtent_append {extent : Extent} (hlba : extent.lba < 256 ^ 8)
    (hblks : extent.blocks < 256 ^ 4) (hpos : extent.blocks ≠ 0) (rest : Bytes) :
    takeExtent (extentRecord extent ++ rest) = some (extent, rest) := by
  have hfds : ∀ field ∈ [(8, extent.lba), (4, extent.blocks), (4, 0)], field.2 < 256 ^ field.1 := by
    simp only [forall_mem_cons]
    exact ⟨hlba, hblks, by decide, nofun⟩
  have htake : takeRecord [8, 4, 4] (extentRecord extent ++ rest) =
      some ([extent.lba, extent.blocks, 0], rest) := takeRecord_append hfds rest
  rw [takeExtent, htake]
  simp [hpos]

variable {header} (h : header.extents.length ≤ maxExtents)
include h

theorem length_headerTable : (headerTable header).length = 256 := by
  have hflat : (header.extents.flatMap extentRecord).length = 16 * header.extents.length := by
    induction header.extents with
    | nil => rfl
    | cons extent extents ih =>
      rw [flatMap_cons, length_append, ih, extentRecord, length_record]
      simp
      omega
  simp only [headerTable, zeros, length_append, length_replicate, hflat, extentSize]
  unfold maxExtents at *
  omega

omit h in
theorem length_headerFields (header : ObjectHeader) : (record (headerFields header)).length = 112 := by
  rw [length_record]
  simp [headerFields]

omit h in
theorem sealedHeader_eq (header : ObjectHeader) (checksum : ℕ) : sealedHeader header checksum =
      record (headerFields header) ++ (leBytes 4 checksum ++ (leBytes 12 0 ++ headerTable header)) := by
  simp only [sealedHeader, record, flatMap_append, flatMap_cons, flatMap_nil, append_assoc, nil_append]

theorem length_sealedHeader (checksum : ℕ) : (sealedHeader header checksum).length = headerLen := by
  rw [sealedHeader_eq, length_append, length_append, length_append,
    length_headerFields, length_leBytes, length_leBytes, length_headerTable h]
  rfl

theorem length_encodeHeader
    (blockSize : ℕ) : (encodeHeader blockSize header).length = headerLen + (blockSize - headerLen) := by
  rw [encodeHeader, length_append, length_sealedHeader h, zeros, length_replicate]

theorem headerCrc_encodeHeader
    (blockSize : ℕ) : headerCrc (encodeHeader blockSize header) = headerChecksum header := by
  have hfds := length_headerFields header
  have hencode : encodeHeader blockSize header = record (headerFields header) ++
      (leBytes 4 (headerChecksum header) ++ ((leBytes 12 0 ++ headerTable header) ++
        zeros (blockSize - headerLen))) := by
    rw [encodeHeader, sealedHeader_eq, append_assoc, append_assoc]
  have htake : (encodeHeader blockSize header).take 112 = record (headerFields header) := by
    rw [hencode, ← hfds, take_left]
  have hdrop : (encodeHeader blockSize header).drop 116 =
      (leBytes 12 0 ++ headerTable header) ++ zeros (blockSize - headerLen) := by
    have hlen : (record (headerFields header) ++ leBytes 4 (headerChecksum header)).length = 116 := by
      rw [length_append, hfds, length_leBytes]
    rw [hencode, ← append_assoc, ← hlen, drop_left]
  have htab : ((leBytes 12 0 ++ headerTable header) ++ zeros (blockSize - headerLen)).take
      (headerLen - 116) = leBytes 12 0 ++ headerTable header := by
    have hlen : headerLen - 116 = (leBytes 12 0 ++ headerTable header).length := by
      rw [length_append, length_leBytes, length_headerTable h]
      rfl
    rw [hlen, take_left]
  rw [headerCrc, htake, hdrop, htab, headerChecksum, sealedHeader_eq]

omit h

/-- A header is read back as it was written, unless a check rejects it. -/
theorem decodeHeader_encodeHeader (h : header.InRange) (blockSize : ℕ) :
    decodeHeader (encodeHeader blockSize header) =
      if header.id = 0 ∨ header.generation = 0 ∨ header.headerBlocks ≠ 1 ∨ header.owner = 0 ∨
        attrSharedRead < header.attributes then none else some header := by
  have hcnt : header.extents.length < 256 ^ 2 := Nat.lt_of_le_of_lt h.count (by decide)
  have hfds : ∀ field ∈ headerFields header ++ [(4, headerChecksum header), (12, 0)],
      field.2 < 256 ^ field.1 := by
    simp only [headerFields, cons_append, nil_append, forall_mem_cons]
    exact ⟨by decide, by decide, by decide, by decide, h.id, h.generation, h.dataLen, h.allocatedLen,
      h.dataOffset, hcnt, by decide, h.headerBlocks, h.owner, by decide, h.dataHash, h.attributes,
      by decide, crc32_lt _, by decide, nofun⟩
  have htake : takeRecord headerWidths (encodeHeader blockSize header) =
      some ([headerMagic, headerVersion, headerLen, flagAllocated, header.id, header.generation,
        header.dataLen, header.allocatedLen, header.dataOffset, header.extents.length, hashFnv1a64,
        header.headerBlocks, header.owner, 0, header.dataHash, header.attributes, 0,
        headerChecksum header, 0], headerTable header ++ zeros (blockSize - headerLen)) := by
    exact takeRecord_append hfds _
  have hexte : takeMany takeExtent header.extents.length
      (headerTable header ++ zeros (blockSize - headerLen)) =
      some (header.extents, zeros (extentSize * (maxExtents - header.extents.length)) ++
        zeros (blockSize - headerLen)) := by
    rw [headerTable, append_assoc]
    exact takeMany_append (fun extent hext rest =>
      takeExtent_append (h.extents extent hext).1 (h.extents extent hext).2.1
        (h.extents extent hext).2.2 rest) _
  have hzeroed : ∀ a b, zeroed (zeros a ++ zeros b) = true := by
    intro a b
    simp [zeroed, zeros]
  have hlen : ¬ (encodeHeader blockSize header).length < headerLen := by
    rw [length_encodeHeader h.count]
    omega
  have hextentCount : ¬ maxExtents < header.extents.length := Nat.not_lt.mpr h.count
  rw [decodeHeader, htake]
  simp only [hexte, hzeroed, if_true, headerCrc_encodeHeader h.count, hlen, hextentCount,
    ne_eq, not_true_eq_false, false_or, or_false]

theorem takeExtent_ok {bytes rest : Bytes} {extent : Extent}
    (h : takeExtent bytes = some (extent, rest)) :
    extent.lba < 256 ^ 8 ∧ extent.blocks < 256 ^ 4 ∧ extent.blocks ≠ 0 := by
  unfold takeExtent at h
  split at h
  · rename_i htake
    split at h
    · cases h
    rename_i hck
    cases h
    cases (takeRecord_spec htake).1 with
    | cons hlba htail =>
      cases htail with
      | cons hblks => exact ⟨hlba, hblks, fun hzero => hck (.inl hzero)⟩
  · cases h

/-- A header that is read is one that could have been written, with an id and an owner. -/
theorem decodeHeader_ok {bytes : Bytes} (h : decodeHeader bytes = some header) :
    header.InRange ∧ header.id ≠ 0 ∧ header.generation ≠ 0 ∧ header.owner ≠ 0 ∧
      header.attributes ≤ attrSharedRead := by
  unfold decodeHeader at h
  split at h
  · rename_i hashKind headerBlocks owner reserved dataHash attributes reserved' checksum reserved'' rest htake
    split at h
    · cases h
    rename_i hck
    split at h
    · cases h
    rename_i hexte
    split at h
    · cases h
      have hrng := (takeRecord_spec htake).1
      simp only [headerWidths, forall₂_cons] at hrng
      obtain ⟨-, -, -, -, hid, hgen, hdataLen, hallo, hoff, -, -, hblks, hown, -,
        hhash, hattr, -⟩ := hrng
      have hcnt := length_of_takeMany hexte
      have hall := takeMany_forall (fun bytes item rest => takeExtent_ok) hexte
      simp only [not_or, not_lt, ne_eq, not_not] at hck
      refine ⟨⟨hid, hgen, hdataLen, hallo, hoff, hblks, ?_, hall, hhash, hown, hattr⟩, ?_, ?_, ?_, ?_⟩
      · simp only [hcnt]
        exact hck.2.2.2.2.2.2.2.2.2.2.1
      · exact hck.2.2.2.2.2.1
      · exact hck.2.2.2.2.2.2.1
      · exact hck.2.2.2.2.2.2.2.2.1
      · exact hck.2.2.2.2.2.2.2.2.2.1
    · cases h
  · cases h

/-! ### Directory entries -/

/-- Where the header of an object is. -/
structure DirectoryEntry where
  id : ℕ
  flags : ℕ
  generation : ℕ
  headerLba : ℕ
  headerBlocks : ℕ
  deriving DecidableEq, Repr

namespace DirectoryEntry

def default : DirectoryEntry := ⟨0, 0, 0, 0, 0⟩

end DirectoryEntry

def dirEntrySize : ℕ := 32
def dirCrcSalt : ℕ := 0x34444952
def maxDirectoryBlocks : ℕ := 4096

def entryFields (entry : DirectoryEntry) : List (ℕ × ℕ) :=
  [(8, entry.id), (4, entry.flags), (4, entry.generation), (8, entry.headerLba),
    (4, entry.headerBlocks)]

def encodeDirectory (entry : DirectoryEntry) : Bytes :=
  record (entryFields entry ++ [(4, crc32 (record (entryFields entry)) ^^^ dirCrcSalt)])

end Charlotte.ObjStore
