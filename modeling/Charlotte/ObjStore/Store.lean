import Charlotte.ObjStore.Disk

/-!
# The object store

`bin/objstore.rs`. A device is what was written to it, newest first. Every call of the
device may fail: a request comes with the outcome of each call that it can make, and a
write that fails leaves anything behind in the blocks it was to write.
-/

namespace Charlotte.ObjStore

open Lib List
open Std (ExtTreeMap)

/-! ### The device -/

inductive Event
  | write (lba : ℕ) (block : Bytes)
  | flush
  deriving DecidableEq, Repr

abbrev Device := List Event

namespace Device

/-- The block at an address; a device starts out zeroed. -/
def read (blockSize : ℕ) : Device → ℕ → Bytes
  | [], _ => zeros blockSize
  | .write target block :: earlier, lba => if target = lba then block else read blockSize earlier lba
  | .flush :: earlier, lba => read blockSize earlier lba

/-- Write consecutive blocks. -/
def put : Device → ℕ → List Bytes → Device
  | device, _, [] => device
  | device, lba, block :: blocks => put (.write lba block :: device) (lba + 1) blocks

end Device

/-- The outcome of a write: success, or a failure that leaves `left` in its blocks. -/
inductive Verdict
  | done
  | failed (left : ℕ → Bytes)

def Device.write (device : Device) (verdict : Verdict) (lba : ℕ) (blocks : List Bytes) :
    Bool × Device :=
  match verdict with
  | .done => (true, device.put lba blocks)
  | .failed left => (false, device.put lba (blocks.mapIdx fun i _ => left (lba + i)))

/-- One call of the device after the other, until one fails. -/
def Device.writeAll (device : Device) : List (ℕ × List Bytes) → (ℕ → Verdict) → Bool × Device
  | [], _ => (true, device)
  | (lba, blocks) :: writes, verdicts =>
    match device.write (verdicts 0) lba blocks with
    | (false, device) => (false, device)
    | (true, device) => device.writeAll writes fun i => verdicts (i + 1)

/-- How the calls of one request end. -/
structure Faults where
  readHeader : Bool
  readData : Bool
  writeData : ℕ → Verdict
  writeHeader : Verdict
  writeBitmap : ℕ → Verdict
  flushHeader : Bool
  readDirectory : Bool
  writeDirectory : Verdict
  /-- The flush after the directory entry was written. -/
  flushDirectory : Bool
  writeSuperblock : Verdict
  flushSuperblock : Bool
  /-- The bitmap once more, after blocks were freed. -/
  writeFreed : ℕ → Verdict
  flushFreed : Bool

/-- No call fails. -/
def Faults.none : Faults where
  readHeader := true
  readData := true
  writeData _ := .done
  writeHeader := .done
  writeBitmap _ := .done
  flushHeader := true
  readDirectory := true
  writeDirectory := .done
  flushDirectory := true
  writeSuperblock := .done
  flushSuperblock := true
  writeFreed _ := .done
  flushFreed := true

/-! ### Layout -/

structure Layout where
  bitmapLba : ℕ
  bitmapBlocks : ℕ
  directoryLba : ℕ
  directoryBlocks : ℕ
  dataLba : ℕ
  deriving DecidableEq, Repr

namespace Layout

def divCeil (a b : ℕ) : ℕ := (a + b - 1) / b

def forDevice (blockSize totalBlocks : ℕ) : Option Layout :=
  let bitmapBlocks := divCeil (divCeil totalBlocks 8) blockSize
  let directoryLba := 2 + bitmapBlocks
  let directoryBlocks := max 1 (min (totalBlocks / 2048) maxDirectoryBlocks)
  let dataLba := directoryLba + directoryBlocks * 2
  if dataLba + 2 ≤ totalBlocks then
    some ⟨2, bitmapBlocks, directoryLba, directoryBlocks, dataLba⟩
  else none

def directoryEntries (layout : Layout) (blockSize : ℕ) : ℕ :=
  layout.directoryBlocks * blockSize / dirEntrySize

def directoryBankLba (layout : Layout) (bank : ℕ) : ℕ :=
  layout.directoryLba + bank * layout.directoryBlocks

end Layout

open Layout

structure Store where
  blockSize : ℕ
  totalBlocks : ℕ
  layout : Layout
  superGeneration : ℕ
  nextId : ℕ
  bitmap : ℕ → Bool
  directory : List DirectoryEntry
  indexCache : ExtTreeMap ℕ ℕ
  pendingSizes : ExtTreeMap ℕ ℕ
  device : Device

/-- The result of `resolve`. -/
structure StoredObject where
  index : ℕ
  entry : DirectoryEntry
  header : ObjectHeader

def errNotFound : ℤ := 1
def errNoSpace : ℤ := 2
def errInvalidId : ℤ := 3
def errIoError : ℤ := 4
def errExists : ℤ := 5
def errTooLarge : ℤ := 6
def errDenied : ℤ := 7

def pageSize : ℕ := 4096
def maxIoBytes : ℕ := 512 * 1024
def metadataIoBytes : ℕ := 32 * 1024

/-! ### Blocks -/

def setRange (bitmap : ℕ → Bool) (start count : ℕ) (used : Bool) : ℕ → Bool :=
  fun block => if start ≤ block ∧ block < start + count then used else bitmap block

def rangeUsed (bitmap : ℕ → Bool) (start count : ℕ) : Bool :=
  (range count).any fun i => bitmap (start + i)

/-- `data` in blocks, the last one filled up with zeros. -/
def toBlocks (blockSize : ℕ) (data : Bytes) : List Bytes :=
  (range (divCeil data.length blockSize)).map fun i =>
    let block := (data.drop (i * blockSize)).take blockSize
    block ++ zeros (blockSize - block.length)

/-- The calls that write consecutive metadata blocks. -/
def metadataWrites (blockSize lba : ℕ) (blocks : List Bytes) : List (ℕ × List Bytes) :=
  let size := max (metadataIoBytes / blockSize) 1
  (range (divCeil blocks.length size)).map fun i =>
    (lba + i * size, (blocks.drop (i * size)).take size)

def bitmapByte (bitmap : ℕ → Bool) (i : ℕ) : UInt8 :=
  UInt8.ofNat (((range 8).map fun bit => if bitmap (8 * i + bit) then 2 ^ bit else 0).sum)

/-- One call that reads or writes a part of an object. -/
structure Chunk where
  lba : ℕ
  /-- Where the part starts in the object. -/
  offset : ℕ
  bytes : ℕ
  deriving DecidableEq, Repr

/-- The calls for one extent from an offset in it on, and where in the object they end. -/
def extentChunks (blockSize : ℕ) (extent : Extent) (length : ℕ) : ℕ → ℕ → ℕ → List Chunk × ℕ
  | 0, _, offset => ([], offset)
  | steps + 1, extentOffset, offset =>
    let extentBytes := extent.blocks * blockSize
    if extentOffset < extentBytes ∧ offset < length then
      let chunkBytes := min maxIoBytes ((2 ^ 16 - 1) * blockSize)
      let bytes := min (min (length - offset) (extentBytes - extentOffset)) chunkBytes
      let (chunks, stop) :=
        extentChunks blockSize extent length steps (extentOffset + bytes) (offset + bytes)
      (⟨extent.lba + extentOffset / blockSize, offset, bytes⟩ :: chunks, stop)
    else ([], offset)

/-- The calls of `write_object` and `read_object`, and where in the object they end. -/
def objectChunks (blockSize length : ℕ) : List Extent → ℕ → List Chunk × ℕ
  | [], offset => ([], offset)
  | extent :: extents, offset =>
    let (chunks, offset) := extentChunks blockSize extent length (extent.blocks * blockSize) 0 offset
    let (others, offset) := objectChunks blockSize length extents offset
    (chunks ++ others, offset)

def Chunk.write (blockSize : ℕ) (data : Bytes) (chunk : Chunk) : ℕ × List Bytes :=
  (chunk.lba, toBlocks blockSize ((data.drop chunk.offset).take chunk.bytes))

def Chunk.read (blockSize : ℕ) (device : Device) (chunk : Chunk) : Bytes :=
  (((range (divCeil chunk.bytes blockSize)).map
    fun i => device.read blockSize (chunk.lba + i)).flatten).take chunk.bytes

/-- `read_object`, where every call succeeds. -/
def readObject (blockSize : ℕ) (device : Device) (extents : List Extent) (length : ℕ) :
    Option Bytes :=
  match objectChunks blockSize length extents 0 with
  | (chunks, stop) =>
    if stop = length then some (chunks.flatMap (·.read blockSize device)) else none

/-- The first block that is not used, from `block` on. -/
def skipUsed (bitmap : ℕ → Bool) (total : ℕ) : ℕ → ℕ → ℕ
  | 0, block => block
  | steps + 1, block =>
    if block < total && bitmap block then skipUsed bitmap total steps (block + 1) else block

/-- The end of a run of at most `limit` blocks that are not used. -/
def endOfFree (bitmap : ℕ → Bool) (total : ℕ) : ℕ → ℕ → ℕ
  | 0, block => block
  | limit + 1, block =>
    if block < total && !bitmap block then endOfFree bitmap total limit (block + 1) else block

/-- The outer loop of `allocate_fragmented`: the bitmap, the blocks that are still wanted and
the extents. -/
def gather (total : ℕ) : ℕ → ℕ → (ℕ → Bool) → ℕ → List Extent → (ℕ → Bool) × ℕ × List Extent
  | 0, _, bitmap, remaining, extents => (bitmap, remaining, extents)
  | steps + 1, block, bitmap, remaining, extents =>
    if block < total ∧ remaining ≠ 0 ∧ extents.length < maxExtents then
      let start := skipUsed bitmap total (total - block) block
      let stop := endOfFree bitmap total remaining start
      if stop = start then gather total steps stop bitmap remaining extents
      else
        gather total steps stop (setRange bitmap start (stop - start) true)
          (remaining - (stop - start)) (extents ++ [⟨start, stop - start⟩])
    else (bitmap, remaining, extents)

namespace Store

variable (s : Store)

def allocateExtent (blocks : ℕ) : Option (ℕ × Store) :=
  if blocks = 0 ∨ s.totalBlocks < blocks then none
  else
    ((range' s.layout.dataLba (s.totalBlocks - blocks + 1 - s.layout.dataLba)).find?
      fun start => !rangeUsed s.bitmap start blocks).map
      fun start => (start, { s with bitmap := setRange s.bitmap start blocks true })

def freeExtents (extents : List Extent) : Store :=
  { s with
    bitmap := extents.foldl (fun bitmap extent =>
      if s.layout.dataLba ≤ extent.lba then setRange bitmap extent.lba extent.blocks false
      else bitmap) s.bitmap }

def freeExtent (lba blocks : ℕ) : Store := s.freeExtents [⟨lba, blocks⟩]

def freeObjectAllocation (headerLba : ℕ) (header : ObjectHeader) : Store :=
  (s.freeExtent headerLba header.headerBlocks).freeExtents header.extents

def allocateFragmented (blocks : ℕ) : Option (List Extent) × Store :=
  match gather s.totalBlocks s.totalBlocks s.layout.dataLba s.bitmap blocks [] with
  | (bitmap, 0, extents) => (some extents, { s with bitmap })
  | (bitmap, _, extents) =>
    (none, { s with bitmap := extents.foldl (fun bitmap extent =>
      setRange bitmap extent.lba extent.blocks false) bitmap })

/-! ### Calls of the device -/

def writeBlocks (writes : List (ℕ × List Bytes)) (verdicts : ℕ → Verdict) :
    Bool × Store :=
  match s.device.writeAll writes verdicts with
  | (ok, device) => (ok, { s with device })

/-- A flush that fails leaves open what is durable. -/
def flush (ok : Bool) : Bool × Store :=
  if ok then (true, { s with device := .flush :: s.device }) else (false, s)

/-- The next call of a chain, unless one has failed. -/
def andThen (result : Bool × Store) (next : Store → Bool × Store) : Bool × Store :=
  if result.1 then next result.2 else result

def persistBitmap (verdicts : ℕ → Verdict) : Bool × Store :=
  let image := (range (divCeil s.totalBlocks 8)).map (bitmapByte s.bitmap)
  let padded := image ++ zeros (s.layout.bitmapBlocks * s.blockSize - image.length)
  s.writeBlocks (metadataWrites s.blockSize s.layout.bitmapLba (toBlocks s.blockSize padded)) verdicts

def superblock (generation : ℕ) : Bytes :=
  let fields := record [(8, 0x345254534a424f43), (4, 4), (4, 80), (8, generation), (4, s.blockSize),
    (4, s.totalBlocks), (8, s.nextId), (8, s.layout.bitmapLba), (4, s.layout.bitmapBlocks),
    (4, s.layout.directoryBlocks), (8, s.layout.directoryLba), (8, s.layout.dataLba), (4, 0)]
  fields ++ (leBytes 4 (crc32 fields) ++ zeros (s.blockSize - 80))

def writeSuperblockSlot (slot generation : ℕ) (verdict : Verdict) : Bool × Store :=
  s.writeBlocks [(slot, [s.superblock generation])] fun _ => verdict

def saturatingSucc (width value : ℕ) : ℕ := min (value + 1) (2 ^ width - 1)

def persistSuperblock (faults : Faults) : Bool × Store :=
  let generation := saturatingSucc 64 s.superGeneration
  andThen ({ s with superGeneration := generation }.writeSuperblockSlot (generation % 2)
    generation faults.writeSuperblock) fun s => s.flush faults.flushSuperblock

def writeHeader (lba : ℕ) (header : ObjectHeader) (verdict : Verdict) : Bool × Store :=
  s.writeBlocks [(lba, [encodeHeader s.blockSize header])] fun _ => verdict

/-- Replace a part of a block. -/
def splice (block : Bytes) (offset : ℕ) (part : Bytes) : Bytes :=
  block.take offset ++ (part ++ block.drop (offset + part.length))

/-- The block of an entry in the bank of its generation. -/
def entryLba (index generation : ℕ) : ℕ :=
  s.layout.directoryBankLba (generation % 2) + index * dirEntrySize / s.blockSize

/-- The block is read, changed and written; the entry in memory follows a write that succeeds. -/
def writeDirectory (index : ℕ) (entry : DirectoryEntry) (faults : Faults) :
    Bool × Store :=
  if s.directory.length ≤ index ∨ faults.readDirectory = false then (false, s)
  else
    let lba := s.entryLba index entry.generation
    -- Where 32 does not divide the block size and the slot passes the end of its block, the source
    -- stops here on a slice out of range; this model goes on.
    let block := splice (s.device.read s.blockSize lba) (index * dirEntrySize % s.blockSize)
      (encodeDirectory entry)
    andThen (s.writeBlocks [(lba, [block])] fun _ => faults.writeDirectory) fun s =>
      (true, { s with directory := s.directory.set index entry })

/-- The chain of `create` and `write` that makes a new header the current one. -/
def commit (index : ℕ) (entry : DirectoryEntry) (header : ObjectHeader)
    (faults : Faults) : Bool × Store :=
  andThen (andThen (andThen (andThen (s.writeHeader entry.headerLba header faults.writeHeader)
    fun s => s.persistBitmap faults.writeBitmap) fun s => s.flush faults.flushHeader)
    fun s => s.writeDirectory index entry faults) fun s => s.flush faults.flushDirectory

def readHeader (entry : DirectoryEntry) (ok : Bool) : Option ObjectHeader :=
  if entry.headerLba < s.layout.dataLba ∨ entry.headerBlocks ≠ 1 ∨ ok = false then none
  else
    (decodeHeader (s.device.read s.blockSize entry.headerLba)).filter fun header =>
      decide (header.id = entry.id) && decide (header.generation % 2 ^ 32 = entry.generation) &&
        decide (header.headerBlocks = entry.headerBlocks) &&
        decide (header.dataOffset = entry.headerBlocks * s.blockSize) &&
        decide (header.dataLen ≤ header.allocatedLen) &&
        decide (header.allocatedLen = (header.extents.map (·.blocks)).sum * s.blockSize) &&
        header.extents.all fun extent =>
          decide (s.layout.dataLba ≤ extent.lba) && decide (extent.lba + extent.blocks ≤ s.totalBlocks)

/-! ### Looking up objects -/

def findIndex (id : ℕ) : Option ℕ × Store :=
  match s.indexCache[id]? with
  | some index => (some index, s)
  | none =>
    match s.directory.findIdx? (·.id == id) with
    | some index => (some index, { s with indexCache := s.indexCache.insert id index })
    | none => (none, s)

def findFreeDirectory : Option ℕ := s.directory.findIdx? (·.id == 0)

def resolve (id : ℕ) (faults : Faults) : Except ℤ StoredObject × Store :=
  match s.findIndex id with
  | (none, s) => (.error errNotFound, s)
  | (some index, s) =>
    match s.directory[index]? with
    | none => (.error errIoError, s)
    | some entry =>
      match s.readHeader entry faults.readHeader with
      | none => (.error errIoError, s)
      | some header => (.ok ⟨index, entry, header⟩, s)

/-! ### Creating -/

def maxAutomaticId : ℕ := 2 ^ 63 - 1

/-- `next_automatic_id`: probe one candidate after the other. -/
def nextAutomaticId (s : Store) : ℕ → ℕ → Except ℤ ℕ × Store
  | 0, _ => (.error errNoSpace, s)
  | attempts + 1, candidate =>
    if maxAutomaticId < candidate then (.error errNoSpace, s)
    else
      match s.findIndex candidate with
      | (none, s) => (.ok candidate, s)
      | (some _, s) => nextAutomaticId s attempts (candidate + 1)

/-- `admit_create_id`. -/
def admitCreateId (requested : Option ℕ) (slotAvailable : Bool) : Except ℤ ℕ × Store :=
  match requested with
  | some id =>
    if id = 0 then (.error errInvalidId, s)
    else
      match s.findIndex id with
      | (some _, s) => (.error errExists, s)
      | (none, s) => (if slotAvailable then .ok id else .error errNoSpace, s)
  | none =>
    if slotAvailable then
      match s.nextAutomaticId (s.directory.length + 1) (max s.nextId 1) with
      | (.ok id, s) => (.ok id, { s with nextId := id + 1 })
      | (.error error, s) => (.error error, s)
    else (.error errNoSpace, s)

/-- `create` after its id and slot are chosen. -/
def createAt (id index owner attributes : ℕ) (automatic : Bool) (faults : Faults) :
    Except ℤ ℕ × Store :=
  match s.directory[index]? with
  | none => (.error errIoError, s)
  | some previous =>
    let generation := saturatingSucc 32 previous.generation
    match s.allocateExtent 1 with
    | none => (.error errNoSpace, s)
    | some (lba, s) =>
      match s.commit index ⟨id, flagAllocated, generation, lba, 1⟩
          (.empty id generation s.blockSize owner attributes) faults with
      | (false, s) => (.error errIoError, s.freeExtent lba 1)
      | (true, s) =>
        let s := { s with indexCache := s.indexCache.insert id index }
        if automatic then
          match s.persistSuperblock faults with
          | (ok, s) => (if ok then .ok id else .error errIoError, s)
        else (.ok id, s)

def create (requested : Option ℕ) (owner attributes : ℕ) (faults : Faults) :
    Except ℤ ℕ × Store :=
  let slot := s.findFreeDirectory
  match s.admitCreateId requested slot.isSome with
  | (.error error, s) => (.error error, s)
  | (.ok id, s) =>
    match slot with
    | none => (.error errNoSpace, s)
    | some index => s.createAt id index owner attributes requested.isNone faults

/-! ### Changing and deleting -/

/-- The entry after a deletion. -/
def tombstone (entry : DirectoryEntry) : DirectoryEntry :=
  { DirectoryEntry.default with generation := saturatingSucc 32 entry.generation }

variable (object : StoredObject)

def delete (faults : Faults) : ℤ × Store :=
  match andThen (s.writeDirectory object.index (tombstone object.entry) faults) fun s =>
      s.flush faults.flushDirectory with
  | (false, s) => (errIoError, s)
  | (true, s) =>
    let s : Store := { s with
      indexCache := s.indexCache.erase object.entry.id
      pendingSizes := s.pendingSizes.erase object.entry.id }
    let s := s.freeObjectAllocation object.entry.headerLba object.header
    match andThen (s.persistBitmap faults.writeFreed) fun s => s.flush faults.flushFreed with
    | (ok, s) => (if ok then 0 else errIoError, s)

/-- `set_size`; `memory` is the lent memory, where it can be mapped. -/
def setSize (memory : Option Bytes) : ℤ × Store :=
  match memory.bind fun bytes => (takeLe 8 bytes) with
  | none => (errIoError, s)
  | some (size, _) =>
    if 2 ^ 32 ≤ size then (errTooLarge, s)
    else (0, { s with pendingSizes := s.pendingSizes.insert object.entry.id size })

/-- The header of an object with new data. -/
def rewritten (data : Bytes) (extents : List Extent) : ObjectHeader :=
  { object.header with
    id := object.entry.id
    generation := saturatingSucc 64 object.header.generation
    dataLen := data.length
    allocatedLen := divCeil data.length s.blockSize * s.blockSize
    dataOffset := s.blockSize
    headerBlocks := 1
    extents
    dataHash := contentHash data }

/-- `write` after the new blocks are allocated. -/
def writeAt (data : Bytes) (headerLba : ℕ) (extents : List Extent) (faults : Faults) : ℤ × Store :=
  let (chunks, stop) := objectChunks s.blockSize data.length extents 0
  match s.writeBlocks (chunks.map (·.write s.blockSize data)) faults.writeData with
  | (ok, s) =>
    if ok = false ∨ stop ≠ data.length then
      (errIoError, (s.freeExtent headerLba 1).freeExtents extents)
    else
      let header := s.rewritten object data extents
      match s.commit object.index
          ⟨object.entry.id, flagAllocated, header.generation % 2 ^ 32, headerLba, 1⟩ header faults with
      | (false, s) => (errIoError, (s.freeExtent headerLba 1).freeExtents extents)
      | (true, s) =>
        let s := s.freeObjectAllocation object.entry.headerLba object.header
        match andThen (s.persistBitmap faults.writeFreed) fun s => s.flush faults.flushFreed with
        | (ok, s) => (if ok then 0 else errIoError, s)

def write (memory : Option Bytes) (faults : Faults) : ℤ × Store :=
  let size := s.pendingSizes.getD object.entry.id pageSize
  let s : Store := { s with pendingSizes := s.pendingSizes.erase object.entry.id }
  match memory.bind fun bytes => takeBytes size bytes with
  | none => (errIoError, s)
  | some (data, _) =>
    match s.allocateExtent 1 with
    | none => (errNoSpace, s)
    | some (headerLba, s) =>
      match s.allocateFragmented (divCeil size s.blockSize) with
      | (none, s) => (errNoSpace, s.freeExtent headerLba 1)
      | (some extents, s) => s.writeAt object data headerLba extents faults

/-! ### Formatting -/

/-- The store before `format` has written anything. -/
def blank (blockSize totalBlocks : ℕ) (layout : Layout) : Store where
  blockSize
  totalBlocks
  layout
  superGeneration := 1
  nextId := 1
  bitmap := setRange (fun _ => false) 0 layout.dataLba true
  directory := replicate (layout.directoryEntries blockSize) .default
  indexCache := ∅
  pendingSizes := ∅
  device := []

/-- `format` of a zeroed device that `connect` accepts, with no call failing. -/
def format (blockSize totalBlocks : ℕ) : Option Store :=
  if blockSize < 512 ∨ pageSize < blockSize ∨ 2 ^ 32 ≤ totalBlocks then none
  else (forDevice blockSize totalBlocks).map fun layout =>
    (andThen (andThen (andThen ((blank blockSize totalBlocks layout).persistBitmap fun _ => .done)
      fun s => s.writeSuperblockSlot 0 1 .done) fun s => s.writeSuperblockSlot 1 1 .done)
      fun s => s.flush true).2

end Store

end Charlotte.ObjStore
