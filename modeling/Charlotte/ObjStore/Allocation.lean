import Charlotte.ObjStore.Blocks
import Charlotte.ObjStore.Server

/-!
# Allocation safety

The blocks of a live object are marked used and belong to no other live object. Every
operation is described by what it does to the directory, the bitmap and the device;
the invariant is about these only.
-/

namespace Charlotte.ObjStore

open Lib List Option Layout Device
open Std (ExtTreeMap)

namespace Store

/-- The extents in the header block of an entry, where it holds a header. -/
def recordedExtents (s : Store) (entry : DirectoryEntry) : List Extent :=
  ((decodeHeader (s.device.read s.blockSize entry.headerLba)).map (·.extents)).getD []

/-- The blocks of an entry: its header block and the blocks of its extents. -/
def blocks (s : Store) (entry : DirectoryEntry) : List ℕ :=
  entry.headerLba :: extentBlocks (s.recordedExtents entry)

/-- The entry at an index, if it is an object. -/
def Live (s : Store) (index : ℕ) (entry : DirectoryEntry) : Prop :=
  s.directory[index]? = some entry ∧ entry.id ≠ 0

/-- The regions of the device follow each other, and the directory fits in its banks. -/
structure Geometry (s : Store) : Prop where
  minimum : 512 ≤ s.blockSize
  maximum : s.blockSize ≤ pageSize
  total : s.totalBlocks < 2 ^ 32
  bitmap : s.layout.bitmapLba + s.layout.bitmapBlocks = s.layout.directoryLba
  bits : divCeil s.totalBlocks 8 ≤ s.layout.bitmapBlocks * s.blockSize
  directory : s.layout.directoryLba + 2 * s.layout.directoryBlocks = s.layout.dataLba
  entries : s.directory.length * dirEntrySize ≤ s.layout.directoryBlocks * s.blockSize
  slots : 2 ≤ s.layout.bitmapLba

/-- Every block of a live object is used, and no block belongs to two of them. -/
structure Allocated (s : Store) : Prop where
  geometry : s.Geometry
  used : ∀ index entry, s.Live index entry → ∀ block ∈ s.blocks entry,
    s.layout.dataLba ≤ block ∧ s.bitmap block = true
  apart : ∀ index index' entry entry', index ≠ index' → s.Live index entry → s.Live index' entry' →
    (s.blocks entry).Disjoint (s.blocks entry')

/-- The two states differ in what the invariant does not look at. -/
structure SameBlocks (s s' : Store) : Prop where
  blockSize : s'.blockSize = s.blockSize
  totalBlocks : s'.totalBlocks = s.totalBlocks
  layout : s'.layout = s.layout
  bitmap : s'.bitmap = s.bitmap
  directory : s'.directory = s.directory
  device : s'.device = s.device

theorem SameBlocks.refl (s : Store) : SameBlocks s s := ⟨rfl, rfl, rfl, rfl, rfl, rfl⟩

variable {s s' : Store}

theorem SameBlocks.trans {s'' : Store} (h : SameBlocks s s') (h' : SameBlocks s' s'') :
    SameBlocks s s'' :=
  ⟨h'.blockSize.trans h.blockSize, h'.totalBlocks.trans h.totalBlocks, h'.layout.trans h.layout,
    h'.bitmap.trans h.bitmap, h'.directory.trans h.directory, h'.device.trans h.device⟩

theorem SameBlocks.symm (h : SameBlocks s s') : SameBlocks s' s :=
  ⟨h.blockSize.symm, h.totalBlocks.symm, h.layout.symm, h.bitmap.symm, h.directory.symm, h.device.symm⟩

theorem SameBlocks.readHeader_eq (h : SameBlocks s s') : s'.readHeader = s.readHeader := by
  obtain ⟨_, _, _, _, _, _, _, _, _, _⟩ := s
  obtain ⟨_, _, _, _, _, _, _, _, _, _⟩ := s'
  obtain ⟨rfl, rfl, rfl, rfl, rfl, rfl⟩ := h
  rfl

theorem Geometry.pos (h : s.Geometry) : 0 < s.blockSize := Nat.lt_of_lt_of_le (by decide) h.minimum

theorem Geometry.same (h : s.Geometry) (hsize : s'.blockSize = s.blockSize)
    (htot : s'.totalBlocks = s.totalBlocks) (hlayout : s'.layout = s.layout)
    (hlen : s'.directory.length = s.directory.length) : s'.Geometry := by
  constructor
  · exact hsize ▸ h.minimum
  · exact hsize ▸ h.maximum
  · exact htot ▸ h.total
  · exact hlayout ▸ h.bitmap
  · rw [htot, hlayout, hsize]
    exact h.bits
  · exact hlayout ▸ h.directory
  · rw [hlen, hlayout, hsize]
    exact h.entries
  · exact hlayout ▸ h.slots

theorem live_set {index i : ℕ} {entry e : DirectoryEntry}
    (hdir : s'.directory = s.directory.set index entry) (h : s'.Live i e) : (i = index ∧ e = entry ∧ entry.id ≠ 0) ∨ (i ≠ index ∧ s.Live i e) := by
  obtain ⟨hget, hid⟩ := h
  rw [hdir] at hget
  by_cases hi : i = index
  · subst hi
    simp only [getElem?_set_self'] at hget
    obtain ⟨_, -, rfl⟩ := map_eq_some_iff.mp hget
    exact .inl ⟨rfl, rfl, hid⟩
  · rw [getElem?_set_ne (Ne.symm hi)] at hget
    exact .inr ⟨hi, hget, hid⟩

namespace Allocated

variable {s s' : Store}

theorem same (h : s.Allocated) (hsame : SameBlocks s s') : s'.Allocated := by
  obtain ⟨_, _, _, _, _, _, _, _, _, _⟩ := s
  obtain ⟨_, _, _, _, _, _, _, _, _, _⟩ := s'
  obtain ⟨rfl, rfl, rfl, rfl, rfl, rfl⟩ := hsame
  exact ⟨⟨h.geometry.1, h.geometry.2, h.geometry.3, h.geometry.4, h.geometry.5, h.geometry.6,
    h.geometry.7, h.geometry.8⟩, h.used, h.apart⟩

/-- The header blocks of live objects are as before, and the blocks of live objects stay used. -/
theorem frame (h : s.Allocated) {bitmap : ℕ → Bool} {device : Device}
    (hdev : ∀ index entry, s.Live index entry →
      device.read s.blockSize entry.headerLba = s.device.read s.blockSize entry.headerLba)
    (hbitmap : ∀ index entry, s.Live index entry → ∀ block ∈ s.blocks entry,
      s.bitmap block = true → bitmap block = true) : { s with bitmap, device }.Allocated := by
  have hblks : ∀ index entry, s.Live index entry →
      { s with bitmap, device }.blocks entry = s.blocks entry := by
    intro index entry hlive
    simp only [blocks, recordedExtents, hdev index entry hlive]
  refine ⟨⟨h.geometry.1, h.geometry.2, h.geometry.3, h.geometry.4, h.geometry.5, h.geometry.6,
    h.geometry.7, h.geometry.8⟩, ?_, ?_⟩
  · intro index entry hlive block hblk
    rw [hblks index entry hlive] at hblk
    obtain ⟨hle, hused⟩ := h.used index entry hlive block hblk
    exact ⟨hle, hbitmap index entry hlive block hblk hused⟩
  · intro index index' entry entry' hne hlive hlive'
    rw [hblks index entry hlive, hblks index' entry' hlive']
    exact h.apart index index' entry entry' hne hlive hlive'

/-- An entry is replaced by one whose blocks are used and in no other object. -/
theorem replace (h : s.Allocated) {index : ℕ} {entry : DirectoryEntry}
    (hused : entry.id ≠ 0 → ∀ block ∈ s.blocks entry, s.layout.dataLba ≤ block ∧ s.bitmap block = true)
    (hap : entry.id ≠ 0 → ∀ other entry', other ≠ index → s.Live other entry' →
      (s.blocks entry).Disjoint (s.blocks entry')) :
    { s with directory := s.directory.set index entry }.Allocated := by
  refine ⟨h.geometry.same rfl rfl rfl (by simp), ?_, ?_⟩
  · intro i e hie
    rcases live_set rfl hie with ⟨rfl, rfl, hid⟩ | ⟨-, hold⟩
    · exact hused hid
    · exact h.used i e hold
  · intro i j e e' hij hie hje
    rcases live_set rfl hie with ⟨rfl, rfl, hid⟩ | ⟨hi, hold⟩
    · rcases live_set rfl hje with ⟨rfl, -, -⟩ | ⟨hj, hold'⟩
      · exact absurd rfl hij
      · exact hap hid j e' hj hold'
    · rcases live_set rfl hje with ⟨rfl, rfl, hid⟩ | ⟨_, hold'⟩
      · exact fun block hblk hblk' => hap hid i e hi hold hblk' hblk
      · exact h.apart i j e e' hij hold hold'

end Allocated

/-! ### Calls of the device -/

theorem writeBlocks_snd (s : Store) (writes : List (ℕ × List Bytes)) (verdicts : ℕ → Verdict) :
    (s.writeBlocks writes verdicts).2 =
      { s with device := (s.device.writeAll writes verdicts).2 } := rfl

/-- Blocks below the data area. -/
def Metadata (s : Store) (block : ℕ) : Prop := block < s.layout.dataLba

variable {a b : ℕ}

theorem divCeil_mul_ge (hb : 0 < b) : a ≤ divCeil a b * b := by
  unfold divCeil
  have h := Nat.div_add_mod (a + b - 1) b
  have hlt := Nat.mod_lt (a + b - 1) hb
  have hcomm : (a + b - 1) / b * b = b * ((a + b - 1) / b) := Nat.mul_comm _ _
  omega

theorem divCeil_le_of_le_mul {c : ℕ} (hb : 0 < b) (h : a ≤ c * b) : divCeil a b ≤ c := by
  refine Nat.lt_succ_iff.mp ((Nat.div_lt_iff_lt_mul hb).mpr ?_)
  rw [Nat.succ_mul]
  omega

theorem length_toBlocks (blockSize : ℕ) (data : Bytes) :
    (toBlocks blockSize data).length = divCeil data.length blockSize := by
  simp [toBlocks]

variable {blockSize lba block : ℕ}

theorem metadataWrites_within {blocks : List Bytes} {call : ℕ × List Bytes}
    (hcall : call ∈ metadataWrites blockSize lba blocks)
    (hblk : Within call.1 call.2.length block) : Within lba blocks.length block := by
  obtain ⟨i, -, rfl⟩ := mem_map.mp hcall
  simp only [Within, length_take, length_drop] at hblk ⊢
  omega

theorem touches_persistBitmap (h : s.Geometry) (verdicts : ℕ → Verdict) :
    Touches s.blockSize s.Metadata s.device (s.persistBitmap verdicts).2.device := by
  unfold persistBitmap
  refine touches_writeAll (fun call hcall block hblk => ?_) s.device verdicts
  have hwithin := metadataWrites_within hcall hblk
  have hsize := h.pos
  have hbits := h.bits
  have hlen := divCeil_le_of_le_mul (a := s.layout.bitmapBlocks * s.blockSize) hsize le_rfl
  have hregion := h.bitmap
  have hdir := h.directory
  simp only [Within, length_toBlocks, length_append, length_map, length_range, zeros,
    length_replicate, Nat.add_sub_cancel' hbits] at hwithin
  unfold Metadata
  omega

variable {index : ℕ}

theorem entryLba_lt (h : s.Geometry) {generation : ℕ}
    (hidx : index < s.directory.length) : s.entryLba index generation < s.layout.dataLba := by
  have hents := h.entries
  have hdir := h.directory
  have hmul : (index + 1) * dirEntrySize ≤ s.directory.length * dirEntrySize :=
    Nat.mul_le_mul_right _ hidx
  have hsize := h.pos
  have hblk : index * dirEntrySize / s.blockSize < s.layout.directoryBlocks := by
    refine (Nat.div_lt_iff_lt_mul hsize).mpr (Nat.lt_of_lt_of_le ?_ (hmul.trans hents))
    rw [Nat.succ_mul]
    exact Nat.lt_add_of_pos_right (by decide)
  have hbank : generation % 2 * s.layout.directoryBlocks ≤ s.layout.directoryBlocks := by
    have hmod := Nat.mod_lt generation (show 0 < 2 by decide)
    calc generation % 2 * s.layout.directoryBlocks ≤ 1 * s.layout.directoryBlocks :=
          Nat.mul_le_mul_right _ (by omega)
      _ = s.layout.directoryBlocks := one_mul _
  unfold entryLba directoryBankLba
  omega

theorem writeDirectory_spec (h : s.Geometry) (index : ℕ) (entry : DirectoryEntry) (faults : Faults) :
    ∃ ok device, Touches s.blockSize s.Metadata s.device device ∧ s.writeDirectory index entry faults =
        (ok, { s with
          device, directory := if ok then s.directory.set index entry else s.directory }) := by
  unfold writeDirectory
  split
  · exact ⟨false, s.device, Touches.refl _, rfl⟩
  rename_i hgo
  rw [not_or, not_le] at hgo
  simp only [andThen]
  set writes := [(s.entryLba index entry.generation,
    [splice (s.device.read s.blockSize (s.entryLba index entry.generation))
      (index * dirEntrySize % s.blockSize) (encodeDirectory entry)])] with hwrites
  refine ⟨(s.device.writeAll writes fun _ => faults.writeDirectory).1,
    (s.device.writeAll writes fun _ => faults.writeDirectory).2, ?_, ?_⟩
  · refine touches_writeAll (fun call hcall block hblk => ?_) _ _
    cases mem_singleton.mp hcall
    have hlt : s.entryLba index entry.generation < s.layout.dataLba := entryLba_lt h hgo.1
    simp only [Within, length_singleton] at hblk
    unfold Metadata
    omega
  · unfold writeBlocks
    cases s.device.writeAll writes fun _ => faults.writeDirectory with
    | mk ok => cases ok <;> rfl

/-- Where a commit ends: the entry is in place or not, and only its header block and
metadata were written. -/
structure Committed (s : Store) (index : ℕ) (entry : DirectoryEntry) (header : ObjectHeader)
    (switched : Bool) (s' : Store) : Prop where
  eq : ∃ device, s' = { s with
    device, directory := if switched then s.directory.set index entry else s.directory }
  touches : Touches s.blockSize (fun block => s.Metadata block ∨ block = entry.headerLba) s.device
    s'.device
  header : switched = true → s'.device.read s.blockSize entry.headerLba = encodeHeader s.blockSize header

variable {header : ObjectHeader}

theorem read_writeHeader {verdict : Verdict} (h : s.writeHeader lba header verdict = (true, s')) :
    s'.device.read s.blockSize lba = encodeHeader s.blockSize header := by
  cases verdict with
  | done =>
    cases h
    exact read_put_single _ _ _ _
  | failed => cases h

theorem touches_writeHeader (s : Store) (lba : ℕ) (header : ObjectHeader) (verdict : Verdict) :
    Touches s.blockSize (· = lba) s.device (s.writeHeader lba header verdict).2.device := by
  unfold writeHeader
  rw [writeBlocks_snd]
  refine touches_writeAll (fun call hcall block hblk => ?_) _ _
  cases mem_singleton.mp hcall
  simp only [Within, length_singleton] at hblk
  omega

theorem writeBlocks_eq (s : Store) (writes : List (ℕ × List Bytes)) (verdicts : ℕ → Verdict) :
    ∃ ok device, s.writeBlocks writes verdicts = (ok, { s with device }) := ⟨_, _, rfl⟩

theorem flush_eq (s : Store) (ok : Bool) : ∃ device, s.flush ok = (ok, { s with device }) ∧
      ∀ blockSize lba, device.read blockSize lba = s.device.read blockSize lba := by
  cases ok with
  | true | false => exact ⟨_, rfl, fun _ _ => rfl⟩

/-- The result of a commit tells whether the entry is in place, unless the last flush fails. -/
theorem committed_commit (h : s.Geometry) (index : ℕ) (entry : DirectoryEntry)
    (header : ObjectHeader) (faults : Faults) (hlba : s.layout.dataLba ≤ entry.headerLba) :
    ∃ switched, Committed s index entry header switched (s.commit index entry header faults).2 ∧
      ((s.commit index entry header faults).1 = (switched && faults.flushDirectory)) := by
  have hnot : ¬ s.Metadata entry.headerLba := not_lt.mpr hlba
  have hwr := touches_writeHeader s entry.headerLba header faults.writeHeader
  obtain ⟨ok, device, heq⟩ := writeBlocks_eq s
    [(entry.headerLba, [encodeHeader s.blockSize header])] fun _ => faults.writeHeader
  have hhdr : s.writeHeader entry.headerLba header faults.writeHeader = (ok, { s with device }) := heq
  have hread : ok = true → device.read s.blockSize entry.headerLba = encodeHeader s.blockSize header := by
    rintro rfl
    exact read_writeHeader hhdr
  rw [hhdr] at hwr
  have hbr : Touches s.blockSize (fun block => s.Metadata block ∨ block = entry.headerLba) s.device
      device := hwr.mono fun _ => .inr
  unfold commit
  rw [hhdr]
  cases ok with
  | false => exact ⟨false, ⟨⟨device, rfl⟩, hbr, nofun⟩, rfl⟩
  | true =>
  simp only [andThen, if_true]
  set s₁ : Store := { s with device } with hs₁
  have hgeo : s₁.Geometry := h.same rfl rfl rfl rfl
  have hbitmap : Touches s.blockSize s.Metadata device (s₁.persistBitmap faults.writeBitmap).2.device :=
    touches_persistBitmap hgeo faults.writeBitmap
  obtain ⟨ok, device₂, heq⟩ : ∃ ok device₂,
      s₁.persistBitmap faults.writeBitmap = (ok, { s with device := device₂ }) := ⟨_, _, rfl⟩
  rw [heq] at hbitmap ⊢
  have hbr₂ := hbr.trans (hbitmap.mono fun _ => .inl)
  cases ok with
  | false => exact ⟨false, ⟨⟨device₂, rfl⟩, hbr₂, nofun⟩, rfl⟩
  | true =>
  obtain ⟨device₃, hfl, hsame⟩ := flush_eq { s with device := device₂ } faults.flushHeader
  rw [hfl]
  have hbr₃ : Touches s.blockSize (fun block => s.Metadata block ∨ block = entry.headerLba) s.device
      device₃ := fun lba hl => (hsame _ _).trans (hbr₂ lba hl)
  cases hfault : faults.flushHeader with
  | false => exact ⟨false, ⟨⟨device₃, rfl⟩, hbr₃, nofun⟩, rfl⟩
  | true =>
  simp only [if_true]
  obtain ⟨ok, device₄, hdir, heq⟩ := writeDirectory_spec
    (s := { s with device := device₃ }) (h.same rfl rfl rfl rfl) index entry faults
  rw [heq]
  have hbr₄ : Touches s.blockSize (fun block => s.Metadata block ∨ block = entry.headerLba) s.device
      device₄ := hbr₃.trans (hdir.mono fun _ => .inl)
  cases ok with
  | false => exact ⟨false, ⟨⟨device₄, rfl⟩, hbr₄, nofun⟩, rfl⟩
  | true =>
  simp only [if_true]
  obtain ⟨device₅, hfl, hsame₅⟩ := flush_eq
    { s with device := device₄, directory := s.directory.set index entry } faults.flushDirectory
  rw [hfl]
  refine ⟨true, ⟨⟨device₅, rfl⟩, fun lba hl => (hsame₅ _ _).trans (hbr₄ lba hl), fun _ => ?_⟩, rfl⟩
  calc device₅.read s.blockSize entry.headerLba
      = device₄.read s.blockSize entry.headerLba := hsame₅ _ _
    _ = device₃.read s.blockSize entry.headerLba := hdir _ hnot
    _ = device₂.read s.blockSize entry.headerLba := hsame _ _
    _ = device.read s.blockSize entry.headerLba := hbitmap _ hnot
    _ = encodeHeader s.blockSize header := hread rfl

variable {entry : DirectoryEntry} {faults : Faults}

theorem committed_of_eq (h : s.Geometry) {ok : Bool} (hlba : s.layout.dataLba ≤ entry.headerLba)
    (hfl : faults.flushDirectory = true) (heq : s.commit index entry header faults = (ok, s')) :
    Committed s index entry header ok s' := by
  obtain ⟨_, hcom, hok⟩ := committed_commit h index entry header faults hlba
  rw [heq, hfl, Bool.and_true] at hok
  rw [heq] at hcom
  cases hok
  exact hcom

/-! ### Looking up and choosing an id -/

theorem same_findIndex (s : Store) (id : ℕ) : SameBlocks s (s.findIndex id).2 := by
  unfold findIndex
  split
  · exact .refl s
  · split
    · exact ⟨rfl, rfl, rfl, rfl, rfl, rfl⟩
    · exact .refl s

theorem nextAutomaticId_spec (s : Store) (attempts candidate : ℕ) :
    SameBlocks s (s.nextAutomaticId attempts candidate).2 ∧
      ∀ id, (s.nextAutomaticId attempts candidate).1 = .ok id → id ≤ maxAutomaticId := by
  induction attempts generalizing s candidate with
  | zero => exact ⟨.refl s, fun _ h => by cases h⟩
  | succ attempts ih =>
    unfold nextAutomaticId
    split
    · exact ⟨.refl s, fun _ h => by cases h⟩
    rename_i hle
    have hfind := same_findIndex s candidate
    rcases hres : s.findIndex candidate with ⟨_ | _, s'⟩ <;> rw [hres] at hfind
    · refine ⟨hfind, fun id h => ?_⟩
      cases h
      exact not_lt.mp hle
    · exact (ih s' (candidate + 1)).imp_left hfind.trans

/-- The id of a new object is the requested one or an automatic one; no block moves for it. -/
theorem admitCreateId_spec (s : Store) (requested : Option ℕ) (slotAvailable : Bool) :
    SameBlocks s (s.admitCreateId requested slotAvailable).2 ∧
      ∀ id, (s.admitCreateId requested slotAvailable).1 = .ok id →
        (∀ id, requested = some id → id < 256 ^ 8) → id < 256 ^ 8 := by
  unfold admitCreateId
  cases requested with
  | some wanted =>
    simp only
    split
    · exact ⟨.refl s, fun _ h => by cases h⟩
    have hfind := same_findIndex s wanted
    rcases hres : s.findIndex wanted with ⟨_ | _, _⟩ <;> rw [hres] at hfind
    · refine ⟨hfind, fun id h hreq => ?_⟩
      simp only at h
      split at h
      · cases h
        exact hreq _ rfl
      · cases h
    · exact ⟨hfind, fun _ h => by cases h⟩
  | none =>
    simp only
    split
    · obtain ⟨hnext, hle⟩ := nextAutomaticId_spec s (s.directory.length + 1) (max s.nextId 1)
      rcases hres : s.nextAutomaticId (s.directory.length + 1) (max s.nextId 1) with
        ⟨_ | _, _⟩ <;> rw [hres] at hnext hle
      · exact ⟨hnext, fun _ h => by cases h⟩
      · refine ⟨hnext.trans ⟨rfl, rfl, rfl, rfl, rfl, rfl⟩, fun id h _ => ?_⟩
        cases h
        exact lt_of_le_of_lt (hle _ rfl) (by decide)
    · exact ⟨.refl s, fun _ h => by cases h⟩

theorem resolve_spec (s : Store) (id : ℕ) (faults : Faults) :
    SameBlocks s (s.resolve id faults).2 ∧ ∀ object, (s.resolve id faults).1 = .ok object →
      s.directory[object.index]? = some object.entry ∧
      s.readHeader object.entry faults.readHeader = some object.header ∧
      (s.findIndex id).1 = some object.index := by
  have hfind := same_findIndex s id
  unfold resolve
  rcases hres : s.findIndex id with ⟨_ | index, s'⟩ <;> rw [hres] at hfind
  · exact ⟨hfind, nofun⟩
  · simp only
    cases hent : s'.directory[index]? with
    | none => exact ⟨hfind, nofun⟩
    | some entry =>
      simp only
      cases hhdr : s'.readHeader entry faults.readHeader with
      | none => exact ⟨hfind, nofun⟩
      | some =>
        refine ⟨hfind, fun object hobj => ?_⟩
        cases hobj
        refine ⟨hfind.directory ▸ hent, ?_, rfl⟩
        rw [← hhdr, hfind.readHeader_eq]

/-! ### Allocating and freeing -/

variable {count : ℕ}

theorem allocateExtent_spec (h : s.allocateExtent count = some (lba, s')) :
    s.layout.dataLba ≤ lba ∧ lba + count ≤ s.totalBlocks ∧
      (∀ block, Within lba count block → s.bitmap block = false) ∧
      s' = { s with bitmap := setRange s.bitmap lba count true } := by
  unfold allocateExtent at h
  split at h
  · cases h
  rename_i hcnt
  obtain ⟨_, hsta, hres⟩ := map_eq_some_iff.mp h
  cases hres
  have hfree := find?_some hsta
  have hmem := mem_range'_1.mp (mem_of_find?_eq_some hsta)
  simp only [Bool.not_eq_true'] at hfree
  exact ⟨hmem.1, by omega, rangeUsed_eq_false.mp hfree, rfl⟩

variable {extents : List Extent}

theorem bitmap_freeExtents (h : s.bitmap block = true) (hblk : block ∉ extentBlocks extents) :
    (s.freeExtents extents).bitmap block = true := by
  have hfold : ∀ (extents : List Extent) (bitmap : ℕ → Bool), bitmap block = true →
      block ∉ extentBlocks extents → extents.foldl (fun bitmap extent =>
        if s.layout.dataLba ≤ extent.lba then setRange bitmap extent.lba extent.blocks false
        else bitmap) bitmap block = true := by
    intro extents
    induction extents with
    | nil => exact fun _ h _ => h
    | cons extent extents ih =>
      intro bitmap hbit hnot
      rw [mem_extentBlocks] at hnot
      rw [foldl_cons]
      refine ih _ ?_ fun hmem => hnot ?_
      · split
        · rw [setRange_apply, if_neg fun hmem => hnot ⟨extent, mem_cons_self, hmem⟩]
          exact hbit
        · exact hbit
      · obtain ⟨other, hoth, hmem⟩ := mem_extentBlocks.mp hmem
        exact ⟨other, mem_cons_of_mem _ hoth, hmem⟩
  exact hfold extents s.bitmap h hblk

theorem Allocated.free (h : s.Allocated)
    (hfree : ∀ index entry, s.Live index entry → ∀ block ∈ s.blocks entry,
      block ∉ extentBlocks extents) : (s.freeExtents extents).Allocated :=
  h.frame (fun _ _ _ => rfl) fun index entry hlive block hblk hbit =>
    bitmap_freeExtents hbit (hfree index entry hlive block hblk)

/-- Fragments are blocks that were free; without enough of them nothing is taken. -/
theorem allocateFragmented_spec {result : Option (List Extent)}
    (h : s.allocateFragmented count = (result, s')) : (result = none ∧ s' = s) ∨
      ∃ extents block bitmap, result = some extents ∧
        Gathered s.layout.dataLba s.totalBlocks count s.bitmap block bitmap 0 extents ∧
        s' = { s with bitmap } := by
  obtain ⟨block, hgat⟩ := gathered_gather s.totalBlocks
    (.nothing s.layout.dataLba s.totalBlocks count s.bitmap)
  unfold allocateFragmented at h
  cases hres : gather s.totalBlocks s.totalBlocks s.layout.dataLba s.bitmap count [] with
  | mk bitmap rest =>
    obtain ⟨remaining, gathered⟩ := rest
    rw [hres] at h hgat
    cases remaining with
    | zero =>
      cases h
      exact .inr ⟨gathered, block, bitmap, rfl, hgat, rfl⟩
    | succ remaining =>
      cases h
      refine .inl ⟨rfl, congrArg (fun bitmap => { s with bitmap }) (funext fun b => ?_)⟩
      have hmarked : bitmap b = (s.bitmap b || decide (b ∈ extentBlocks gathered)) := hgat.marked b
      rw [foldl_clear, hmarked]
      by_cases hb : b ∈ extentBlocks gathered
      · simp [hb, (hgat.fresh b hb).2.2.2]
      · simp [hb]

/-! ### Chunks stay within their extents -/

theorem extentChunks_within {length : ℕ} (hsize : 0 < blockSize) {extent : Extent}
    (steps extentOffset offset : ℕ) {chunk : Chunk}
    (h : chunk ∈ (extentChunks blockSize extent length steps extentOffset offset).1) :
    extent.lba ≤ chunk.lba ∧
      chunk.lba + divCeil chunk.bytes blockSize ≤ extent.lba + extent.blocks := by
  induction steps generalizing extentOffset offset with
  | zero => cases h
  | succ steps ih =>
    unfold extentChunks at h
    simp only at h
    split at h
    · rcases mem_cons.mp h with rfl | h
      · simp only
        refine ⟨Nat.le_add_right _ _, ?_⟩
        have hfloor := Nat.div_mul_le_self extentOffset blockSize
        have hblks : extentOffset / blockSize ≤ extent.blocks :=
          Nat.div_le_of_le_mul (by rw [Nat.mul_comm]; omega)
        have hroom : ∀ bytes, bytes ≤ extent.blocks * blockSize - extentOffset →
            extent.lba + extentOffset / blockSize + divCeil bytes blockSize ≤
              extent.lba + extent.blocks := by
          intro bytes hbs
          have hmul : bytes ≤ (extent.blocks - extentOffset / blockSize) * blockSize := by
            rw [Nat.sub_mul]
            omega
          have hceil := divCeil_le_of_le_mul hsize hmul
          omega
        exact hroom _ (by omega)
      · exact ih _ _ h
    · cases h

theorem objectChunks_within {length : ℕ} (hsize : 0 < blockSize)
    (offset : ℕ) {chunk : Chunk} (h : chunk ∈ (objectChunks blockSize length extents offset).1) :
    ∃ extent ∈ extents, extent.lba ≤ chunk.lba ∧
      chunk.lba + divCeil chunk.bytes blockSize ≤ extent.lba + extent.blocks := by
  induction extents generalizing offset with
  | nil => cases h
  | cons extent extents ih =>
    unfold objectChunks at h
    rcases mem_append.mp h with h | h
    · exact ⟨extent, mem_cons_self, extentChunks_within hsize _ _ _ h⟩
    · obtain ⟨other, hoth, hwithin⟩ := ih _ h
      exact ⟨other, mem_cons_of_mem _ hoth, hwithin⟩

theorem divCeil_mono {c : ℕ} (h : a ≤ b) : divCeil a c ≤ divCeil b c :=
  Nat.div_le_div_right (by omega)

/-- Writing the data of an object touches the blocks of its extents only. -/
theorem writeData_eq (hs : s.Geometry) (bitmap : ℕ → Bool) (headerLba : ℕ) (extents : List Extent)
    (data : Bytes) (verdicts : ℕ → Verdict) :
    ∃ ok device, ({ s with bitmap } : Store).writeBlocks ((objectChunks s.blockSize data.length extents
        0).1.map (·.write s.blockSize data)) verdicts = (ok, { s with bitmap, device }) ∧
      Touches s.blockSize (fun b => s.Metadata b ∨ b ∈ headerLba :: extentBlocks extents) s.device
        device := by
  refine ⟨_, _, rfl, (touches_writeAll (fun call hcall block hblk => ?_) _ _)⟩
  obtain ⟨chunk, hchunk, rfl⟩ := mem_map.mp hcall
  have hsize := hs.pos
  obtain ⟨extent, hext, _, _⟩ := objectChunks_within hsize 0 hchunk
  simp only [Within, Chunk.write, length_toBlocks] at hblk
  have hceil : divCeil ((data.drop chunk.offset).take chunk.bytes).length s.blockSize ≤
      divCeil chunk.bytes s.blockSize := divCeil_mono (by rw [length_take]; omega)
  exact .inr (mem_cons_of_mem _ (mem_extentBlocks.mpr
    ⟨extent, hext, Extent.mem_range.mpr ⟨by omega, by omega⟩⟩))

/-! ### The operations -/

/-- `blocks` are in the data area and were not used before. -/
structure Fresh (s : Store) (bitmap : ℕ → Bool) (blocks : List ℕ) : Prop where
  data : ∀ block ∈ blocks, s.layout.dataLba ≤ block
  free : ∀ block ∈ blocks, s.bitmap block = false
  marked : ∀ block, bitmap block = (s.bitmap block || decide (block ∈ blocks))

variable {bitmap : ℕ → Bool} {blocks : List ℕ}

theorem Fresh.notMem (h : Fresh s bitmap blocks) (hs : s.Allocated) (hlive : s.Live index entry)
    (hblk : block ∈ s.blocks entry) : block ∉ blocks := by
  intro hmem
  have hused := (hs.used index entry hlive block hblk).2
  rw [h.free block hmem] at hused
  exact Bool.false_ne_true hused

variable {device : Device}

/-- Blocks are allocated, and anything is written to them and to the metadata. -/
theorem Allocated.grow (hs : s.Allocated) (h : Fresh s bitmap blocks)
    (hdev : Touches s.blockSize (fun block => s.Metadata block ∨ block ∈ blocks) s.device device) :
    { s with bitmap, device }.Allocated := by
  refine hs.frame (fun index entry hlive => hdev _ ?_) fun index entry hlive block hblk hbit => ?_
  · have hhead : entry.headerLba ∈ s.blocks entry := mem_cons_self
    rintro (hmeta | hmem)
    · exact absurd (hs.used index entry hlive _ hhead).1 (not_le.mpr hmeta)
    · exact h.notMem hs hlive hhead hmem
  · rw [h.marked, hbit, Bool.true_or]

section Switch

variable {s : Store} {bitmap : ℕ → Bool} {device : Device} {index : ℕ} {entry : DirectoryEntry}
  {header : ObjectHeader}

/-- A live object keeps its blocks while new blocks are written. -/
theorem blocks_grow (hs : s.Allocated) (h : Fresh s bitmap blocks)
    (hdev : Touches s.blockSize (fun block => s.Metadata block ∨ block ∈ blocks) s.device device)
    {other : ℕ} {entry' : DirectoryEntry} (hlive : s.Live other entry') :
    { s with bitmap, device }.blocks entry' = s.blocks entry' := by
  have hhead : entry'.headerLba ∈ s.blocks entry' := mem_cons_self
  have hread : device.read s.blockSize entry'.headerLba =
      s.device.read s.blockSize entry'.headerLba := by
    refine hdev _ ?_
    rintro (hmeta | hmem)
    · exact absurd (hs.used other entry' hlive _ hhead).1 (not_le.mpr hmeta)
    · exact h.notMem hs hlive hhead hmem
  simp only [Store.blocks, recordedExtents, hread]

theorem blocks_subset (hrng : header.InRange)
    (hhdr : device.read s.blockSize entry.headerLba = encodeHeader s.blockSize header) :
    ∀ block ∈ { s with bitmap, device }.blocks entry,
      block ∈ entry.headerLba :: extentBlocks header.extents := by
  intro block hblk
  simp only [blocks, recordedExtents, hhdr, decodeHeader_encodeHeader hrng] at hblk
  split at hblk
  · simp only [map_none, getD_none, extentBlocks, flatMap_nil, mem_singleton] at hblk
    rw [hblk]
    exact mem_cons_self
  · exact hblk

/-- The entry of a new object is put in place: its header is in the first of the new blocks and
records the others. -/
theorem Allocated.switch (hs : s.Allocated) (index : ℕ) (entry : DirectoryEntry) (header : ObjectHeader)
    (h : Fresh s bitmap (entry.headerLba :: extentBlocks header.extents)) (hrng : header.InRange)
    (hdev : Touches s.blockSize (fun block => s.Metadata block ∨
      block ∈ entry.headerLba :: extentBlocks header.extents) s.device device)
    (hhdr : device.read s.blockSize entry.headerLba = encodeHeader s.blockSize header) :
    { s with bitmap, device, directory := s.directory.set index entry }.Allocated := by
  refine (hs.grow h hdev).replace (fun _ block hblk => ?_) fun _ other entry' _ hlive => ?_
  · have hmem := blocks_subset hrng hhdr block hblk
    refine ⟨h.data block hmem, ?_⟩
    simp only [h.marked, hmem, decide_true, Bool.or_true]
  · intro block hblk hoth
    rw [blocks_grow hs h hdev hlive] at hoth
    exact h.notMem hs hlive hoth (blocks_subset hrng hhdr block hblk)

end Switch

theorem Allocated.metadata (hs : s.Allocated) (hdev : Touches s.blockSize s.Metadata s.device device) :
    { s with device }.Allocated := by
  refine hs.frame (fun index entry hlive => hdev _ ?_) fun _ _ _ _ _ hbit => hbit
  exact not_lt.mpr (hs.used index entry hlive _ mem_cons_self).1

theorem flush_metadata {result : Bool × Store}
    (htch : Touches s.blockSize s.Metadata s.device result.2.device)
    (heq : result.2 = { s with device := result.2.device }) (ok : Bool) :
    ∃ device, Touches s.blockSize s.Metadata s.device device ∧
      (andThen result fun s => s.flush ok).2 = { s with device } := by
  simp only [andThen]
  split
  · obtain ⟨device, hfl, hsame⟩ := flush_eq result.2 ok
    rw [hfl, heq]
    exact ⟨device, htch.trans fun lba _ => hsame _ lba, rfl⟩
  · exact ⟨_, htch, heq⟩

theorem persist_eq (h : s.Geometry) (verdicts : ℕ → Verdict) (ok : Bool) :
    ∃ device, Touches s.blockSize s.Metadata s.device device ∧
      (andThen (s.persistBitmap verdicts) fun s => s.flush ok).2 = { s with device } :=
  flush_metadata (touches_persistBitmap h verdicts) rfl ok

theorem persistSuperblock_eq (h : s.Geometry) (faults : Faults) :
    ∃ device, Touches s.blockSize s.Metadata s.device device ∧ (s.persistSuperblock faults).2 =
      { s with superGeneration := saturatingSucc 64 s.superGeneration, device } := by
  have hsls := h.slots
  have hbitmap := h.bitmap
  have hdir := h.directory
  refine flush_metadata (s := { s with superGeneration := saturatingSucc 64 s.superGeneration }) ?_ rfl _
  unfold writeSuperblockSlot
  rw [writeBlocks_snd]
  refine touches_writeAll (fun call hcall block hblk => ?_) _ _
  cases mem_singleton.mp hcall
  simp only [Within, length_singleton] at hblk
  unfold Metadata
  simp only
  omega

theorem Allocated.persist (hs : s.Allocated) (verdicts : ℕ → Verdict) (ok : Bool) :
    (andThen (s.persistBitmap verdicts) fun s => s.flush ok).2.Allocated := by
  obtain ⟨_, htch, heq⟩ := persist_eq hs.geometry verdicts ok
  rw [heq]
  exact hs.metadata htch

theorem allocated_persistSuperblock (hs : s.Allocated) (faults : Faults) :
    (s.persistSuperblock faults).2.Allocated := by
  obtain ⟨_, htch, heq⟩ := persistSuperblock_eq hs.geometry faults
  rw [heq]
  exact (hs.metadata htch).same ⟨rfl, rfl, rfl, rfl, rfl, rfl⟩

theorem readHeader_spec {ok : Bool} (h : s.readHeader entry ok = some header) :
    decodeHeader (s.device.read s.blockSize entry.headerLba) = some header ∧
      s.layout.dataLba ≤ entry.headerLba ∧ header.id = entry.id ∧ header.headerBlocks = 1 := by
  unfold readHeader at h
  split at h
  · cases h
  · rename_i hgo
    simp only [not_or, not_lt, ne_eq, not_not] at hgo
    obtain ⟨hdec, hck⟩ := filter_eq_some_iff.mp h
    simp only [Bool.and_eq_true, decide_eq_true_eq] at hck
    exact ⟨hdec, hgo.1, hck.1.1.1.1.1.1, hck.1.1.1.1.2.trans hgo.2.1⟩

/-- What `resolve` returns is a live object. -/
structure Resolved (s : Store) (object : StoredObject) : Prop where
  live : s.Live object.index object.entry
  decoded : decodeHeader (s.device.read s.blockSize object.entry.headerLba) = some object.header
  id : object.header.id = object.entry.id
  headerBlocks : object.header.headerBlocks = 1

variable {id : ℕ} {object : StoredObject}

theorem resolved_resolve (h : (s.resolve id faults).1 = .ok object) : Resolved s object := by
  obtain ⟨hent, hhdr, -⟩ := (resolve_spec s id faults).2 object h
  obtain ⟨hdec, -, hid, hblks⟩ := readHeader_spec hhdr
  exact ⟨⟨hent, hid ▸ (decodeHeader_ok hdec).2.1⟩, hdec, hid, hblks⟩

theorem Resolved.blocks_eq (h : Resolved s object) :
    s.blocks object.entry = object.entry.headerLba :: extentBlocks object.header.extents := by
  simp [blocks, recordedExtents, h.decoded]

theorem extentBlocks_single (lba : ℕ) : extentBlocks [⟨lba, 1⟩] = [lba] := by
  simp [extentBlocks, Extent.range]

theorem Allocated.release (hs : s.Allocated) (hblks : header.headerBlocks = 1)
    (hfree : ∀ index entry, s.Live index entry → ∀ block ∈ s.blocks entry,
      block ∉ lba :: extentBlocks header.extents) : (s.freeObjectAllocation lba header).Allocated := by
  unfold freeObjectAllocation
  rw [hblks]
  have hfst : (s.freeExtent lba 1).Allocated := by
    refine hs.free fun index entry hlive block hblk hmem => ?_
    rw [extentBlocks_single, mem_singleton] at hmem
    exact hfree index entry hlive block hblk (hmem ▸ mem_cons_self)
  exact hfst.free fun index entry hlive block hblk hmem =>
    hfree index entry hlive block hblk (mem_cons_of_mem _ hmem)

theorem fresh_single (hlba : s.layout.dataLba ≤ lba)
    (hfree : s.bitmap lba = false) : Fresh s (setRange s.bitmap lba 1 true) [lba] := by
  refine ⟨forall_mem_singleton.mpr hlba, forall_mem_singleton.mpr hfree, fun block => ?_⟩
  rw [setRange_apply s.bitmap ⟨lba, 1⟩ true, ← extentBlocks_single]
  simp only [extentBlocks, flatMap_cons, flatMap_nil, append_nil]
  by_cases hblk : block ∈ Extent.range ⟨lba, 1⟩
  · simp [hblk]
  · simp [hblk]

theorem Allocated.abort (hs : s.Allocated) (h : Fresh s bitmap blocks)
    (hdev : Touches s.blockSize (fun block => s.Metadata block ∨ block ∈ blocks) s.device device)
    (hexte : ∀ block ∈ extentBlocks extents, block ∈ blocks) :
    ({ s with bitmap, device }.freeExtents extents).Allocated := by
  refine (hs.grow h hdev).free fun index entry hlive block hblk hmem => ?_
  rw [blocks_grow hs h hdev hlive] at hblk
  exact h.notMem hs hlive hblk (hexte block hmem)

theorem saturatingSucc_lt (width value : ℕ) : saturatingSucc width value < 2 ^ width := by
  have hpos : 0 < 2 ^ width := Nat.two_pow_pos width
  unfold saturatingSucc
  omega

variable {owner attributes : ℕ}

theorem inRange_empty {generation : ℕ} (hid : id < 256 ^ 8)
    (hgen : generation < 2 ^ 32) (hsize : blockSize ≤ pageSize) (hown : owner < 256 ^ 8)
    (hattr : attributes < 256 ^ 4) :
    (ObjectHeader.empty id generation blockSize owner attributes).InRange where
  id := hid
  generation := lt_trans hgen (by decide)
  dataLen := (by decide : 0 < 256 ^ 8)
  allocatedLen := (by decide : 0 < 256 ^ 8)
  dataOffset := lt_of_le_of_lt hsize (by decide)
  headerBlocks := (by decide : 1 < 256 ^ 4)
  count := Nat.zero_le _
  extents _ h := nomatch h
  dataHash := (by decide : emptyHash < 256 ^ 8)
  owner := hown
  attributes := hattr

variable (hs : s.Allocated)
include hs

theorem allocated_createAt {automatic : Bool} (hid : id < 256 ^ 8) (hown : owner < 256 ^ 8)
    (hattr : attributes < 256 ^ 4) (hfl : faults.flushDirectory = true) :
    (s.createAt id index owner attributes automatic faults).2.Allocated := by
  unfold createAt
  split
  · exact hs
  rename_i previous _
  split
  · exact hs
  rename_i lba _ halc
  obtain ⟨hlba, -, hfree, rfl⟩ := allocateExtent_spec halc
  simp only
  generalize hcm : Store.commit _ _ _ _ _ = result
  obtain ⟨ok, _⟩ := result
  have hgeo : { s with bitmap := setRange s.bitmap lba 1 true }.Geometry :=
    hs.geometry.same rfl rfl rfl rfl
  obtain ⟨⟨device, rfl⟩, htch, hhdr⟩ := committed_of_eq hgeo hlba hfl hcm
  have hrng := inRange_empty hid (saturatingSucc_lt 32 previous.generation) hs.geometry.maximum hown
    hattr
  have hfr := fresh_single hlba (hfree lba ⟨le_rfl, Nat.lt_succ_self _⟩)
  have hdev : Touches s.blockSize (fun block => s.Metadata block ∨ block ∈ [lba]) s.device device :=
    htch.mono fun block hblk => hblk.imp_right mem_singleton.mpr
  cases ok with
  | false => exact hs.abort hfr hdev fun block hblk => by rwa [extentBlocks_single] at hblk
  | true =>
    have hswitch := hs.switch index ⟨id, flagAllocated, saturatingSucc 32 previous.generation, lba, 1⟩
      (.empty id (saturatingSucc 32 previous.generation) s.blockSize owner attributes) hfr hrng
      hdev (hhdr rfl)
    simp only [if_true]
    split
    · refine allocated_persistSuperblock ?_ faults
      exact hswitch.same ⟨rfl, rfl, rfl, rfl, rfl, rfl⟩
    · exact hswitch.same ⟨rfl, rfl, rfl, rfl, rfl, rfl⟩

theorem allocated_create {requested : Option ℕ}
    (hreq : ∀ id, requested = some id → id < 256 ^ 8) (hown : owner < 256 ^ 8)
    (hattr : attributes < 256 ^ 4) (hfl : faults.flushDirectory = true) :
    (s.create requested owner attributes faults).2.Allocated := by
  obtain ⟨hsame, hlt⟩ := admitCreateId_spec s requested s.findFreeDirectory.isSome
  unfold create
  simp only
  rcases hres : s.admitCreateId requested s.findFreeDirectory.isSome with
    ⟨_ | id, _⟩ <;> rw [hres] at hsame hlt
  · exact hs.same hsame
  · have hid := hlt id rfl hreq
    simp only
    split
    · exact hs.same hsame
    · exact allocated_createAt (hs.same hsame) hid hown hattr hfl

theorem allocated_setSize (object : StoredObject)
    (memory : Option Bytes) : (s.setSize object memory).2.Allocated := by
  unfold setSize
  split
  · exact hs
  · split
    · exact hs
    · exact hs.same ⟨rfl, rfl, rfl, rfl, rfl, rfl⟩

/-- Deleting an object; the flush after its entry was written may fail. -/
theorem allocated_delete
    (hobj : Resolved s object) (faults : Faults) : (s.delete object faults).2.Allocated := by
  unfold delete
  obtain ⟨ok, device, htch, hwr⟩ := writeDirectory_spec hs.geometry object.index
    (tombstone object.entry) faults
  rw [hwr]
  have hgn := hs.metadata htch
  cases ok with
  | false => exact hgn
  | true =>
    have hdead : ({ s with
        device, directory := s.directory.set object.index (tombstone object.entry) } :
        Store).Allocated :=
      hgn.replace (fun h => absurd rfl h) fun h => absurd rfl h
    simp only [andThen, if_true]
    obtain ⟨device', hfl, hsame⟩ := flush_eq { s with
      device, directory := s.directory.set object.index (tombstone object.entry) }
      faults.flushDirectory
    rw [hfl]
    have hfls : ({ s with
        device := device', directory := s.directory.set object.index (tombstone object.entry) } :
        Store).Allocated := hdead.metadata fun lba _ => hsame _ lba
    cases faults.flushDirectory with
    | false => exact hfls
    | true =>
      refine Allocated.persist ?_ faults.writeFreed faults.flushFreed
      refine Allocated.release ?_ hobj.headerBlocks ?_
      · exact hfls.same ⟨rfl, rfl, rfl, rfl, rfl, rfl⟩
      intro index entry hlive block hblk hmem
      have hset : { s with directory := s.directory.set object.index (tombstone object.entry) }.Live index entry := hlive
      rcases live_set rfl hset with ⟨-, -, hid⟩ | ⟨hne, hold⟩
      · exact hid rfl
      · have hread : ∀ lba, s.layout.dataLba ≤ lba →
            device'.read s.blockSize lba = s.device.read s.blockSize lba := fun lba hlba =>
          (hsame _ lba).trans (htch lba (not_lt.mpr hlba))
        have hlba := (hs.used index entry hold _ mem_cons_self).1
        simp only [blocks, recordedExtents, hread _ hlba] at hblk
        rw [← hobj.blocks_eq] at hmem
        exact hs.apart index object.index entry object.entry hne hold hobj.live hblk hmem

omit hs

theorem fresh_allocated {headerLba : ℕ} (hlba : s.layout.dataLba ≤ headerLba)
    (hfree : s.bitmap headerLba = false)
    (h : Gathered s.layout.dataLba s.totalBlocks count (setRange s.bitmap headerLba 1 true) block bitmap
      0 extents) : Fresh s bitmap (headerLba :: extentBlocks extents) := by
  have hfst := fresh_single hlba hfree
  refine ⟨?_, ?_, ?_⟩
  · exact forall_mem_cons.mpr ⟨hlba, fun b hb => (h.fresh b hb).1⟩
  · refine forall_mem_cons.mpr ⟨hfree, fun b hb => ?_⟩
    have hbit := (h.fresh b hb).2.2.2
    rw [hfst.marked, Bool.or_eq_false_iff] at hbit
    exact hbit.1
  · intro b
    rw [h.marked, hfst.marked]
    simp only [mem_cons, not_mem_nil, or_false, Bool.decide_or, Bool.or_assoc]

/-- The header of an object with new data can be written. -/
theorem inRange_rewritten (hgeo : s.Geometry)
    (hrng : object.header.InRange) (hid : object.header.id = object.entry.id) {data : Bytes}
    {bitmap' : ℕ → Bool}
    (h : Gathered s.layout.dataLba s.totalBlocks (divCeil data.length s.blockSize) bitmap block
      bitmap' 0 extents) : (s.rewritten object data extents).InRange := by
  have hsize := hgeo.pos
  have htot := hgeo.total
  have hwanted := h.wanted_le
  have hbs : divCeil data.length s.blockSize * s.blockSize < 256 ^ 8 := by
    calc divCeil data.length s.blockSize * s.blockSize ≤ s.totalBlocks * pageSize :=
          Nat.mul_le_mul hwanted hgeo.maximum
      _ ≤ 2 ^ 32 * pageSize := Nat.mul_le_mul_right _ (Nat.le_of_lt htot)
      _ < 256 ^ 8 := by decide
  have hext : ∀ extent ∈ extents, extent.lba < 2 ^ 32 ∧ extent.blocks < 2 ^ 32 := by
    intro extent hmem
    have hpos := h.positive extent hmem
    have hlast : extent.lba + extent.blocks - 1 ∈ extentBlocks extents :=
      mem_extentBlocks.mpr ⟨extent, hmem, Extent.mem_range.mpr ⟨by omega, by omega⟩⟩
    have hlt := (h.fresh _ hlast).2.2.1
    omega
  exact
    { id := by
        have hlt := hrng.id
        rwa [hid] at hlt
      generation := saturatingSucc_lt 64 _
      dataLen := lt_of_le_of_lt (divCeil_mul_ge hsize) hbs
      allocatedLen := hbs
      dataOffset := lt_of_le_of_lt hgeo.maximum (by decide)
      headerBlocks := (by decide : 1 < 256 ^ 4)
      count := h.count
      extents := fun extent hmem => ⟨lt_trans (hext extent hmem).1 (by decide),
        (hext extent hmem).2, h.positive extent hmem⟩
      dataHash := UInt64.toNat_lt _
      owner := hrng.owner
      attributes := hrng.attributes }

theorem freeExtent_freeExtents (s : Store) (lba : ℕ) (extents : List Extent) :
    (s.freeExtent lba 1).freeExtents extents = s.freeExtents (⟨lba, 1⟩ :: extents) := rfl

theorem allocated_writeAt (hs : s.Allocated) (hobj : Resolved s object) {data : Bytes} {headerLba : ℕ}
    (hlba : s.layout.dataLba ≤ headerLba) (hfree : s.bitmap headerLba = false)
    (hgat : Gathered s.layout.dataLba s.totalBlocks (divCeil data.length s.blockSize)
      (setRange s.bitmap headerLba 1 true) block bitmap 0 extents) (hfl : faults.flushDirectory = true) :
    ({ s with bitmap }.writeAt object data headerLba extents faults).2.Allocated := by
  have hfr := fresh_allocated hlba hfree hgat
  have hnew : ∀ b ∈ extentBlocks (⟨headerLba, 1⟩ :: extents), b ∈ headerLba :: extentBlocks extents := by
    intro b hb
    obtain ⟨extent, hext, hmem⟩ := mem_extentBlocks.mp hb
    rcases mem_cons.mp hext with rfl | hext
    · rw [Extent.mem_range] at hmem
      exact mem_cons.mpr (.inl (by simp only at hmem; omega))
    · exact mem_cons_of_mem _ (mem_extentBlocks.mpr ⟨extent, hext, hmem⟩)
  unfold writeAt
  simp only [freeExtent_freeExtents]
  obtain ⟨_, device, hwr, hbr⟩ :=
    writeData_eq hs.geometry bitmap headerLba extents data faults.writeData
  rw [hwr]
  split
  · exact hs.abort hfr hbr hnew
  generalize hcm : Store.commit _ _ _ _ _ = result
  obtain ⟨ok', _⟩ := result
  have hgeo : { s with bitmap, device }.Geometry := hs.geometry.same rfl rfl rfl rfl
  obtain ⟨⟨device', rfl⟩, htch, hhdr⟩ := committed_of_eq hgeo hlba hfl hcm
  have hbr' : Touches s.blockSize (fun b => s.Metadata b ∨ b ∈ headerLba :: extentBlocks extents)
      s.device device' := hbr.trans
    (htch.mono fun b hb => hb.imp_right fun heq => mem_cons.mpr (.inl heq))
  cases ok' with
  | false => exact hs.abort hfr hbr' hnew
  | true =>
    have hrng : (s.rewritten object data extents).InRange :=
      inRange_rewritten hs.geometry (decodeHeader_ok hobj.decoded).1 hobj.id hgat
    have hswitch := hs.switch object.index ⟨object.entry.id, flagAllocated,
      (s.rewritten object data extents).generation % 2 ^ 32, headerLba, 1⟩
      (s.rewritten object data extents) hfr hrng hbr' (hhdr rfl)
    refine Allocated.persist ?_ faults.writeFreed faults.flushFreed
    refine Allocated.release hswitch hobj.headerBlocks ?_
    intro index entry hlive b hb hmem
    rw [← hobj.blocks_eq] at hmem
    rcases live_set rfl ⟨hlive.1, hlive.2⟩ with ⟨-, rfl, -⟩ | ⟨hne, hold⟩
    · have hsubset : ∀ b ∈ ({ s with bitmap, device := device' } : Store).blocks _, _ :=
        blocks_subset hrng (hhdr rfl)
      exact hfr.notMem hs hobj.live hmem (hsubset b hb)
    · have hsame : { s with bitmap, device := device' }.blocks entry = s.blocks entry :=
        blocks_grow hs hfr hbr' hold
      have hb' : b ∈ { s with bitmap, device := device' }.blocks entry := hb
      rw [hsame] at hb'
      exact hs.apart index object.index entry object.entry hne hold hobj.live hb' hmem

theorem Resolved.same (hsame : SameBlocks s s') (h : Resolved s object) : Resolved s' object := by
  obtain ⟨hlive, hdeco, hid, hblks⟩ := h
  refine ⟨⟨?_, hlive.2⟩, ?_, hid, hblks⟩
  · rw [hsame.directory]
    exact hlive.1
  · rw [hsame.device, hsame.blockSize]
    exact hdeco

/-- A lookup moves no block, and what it finds is live after it. -/
theorem resolve_cases (s : Store) (id : ℕ) (faults : Faults) :
    ∃ result s', s.resolve id faults = (result, s') ∧ SameBlocks s s' ∧
      ∀ {object}, result = .ok object → Resolved s' object := by
  have hsame := (resolve_spec s id faults).1
  exact ⟨_, _, rfl, hsame, fun hok => (resolved_resolve hok).same hsame⟩

theorem freeExtent_setRange (hlba : s.layout.dataLba ≤ lba) (hfree : s.bitmap lba = false) :
    { s with bitmap := setRange s.bitmap lba 1 true }.freeExtent lba 1 = s := by
  refine congrArg (fun bitmap => { s with bitmap }) (funext fun b => ?_)
  simp only [foldl_cons, foldl_nil, if_pos hlba, setRange]
  split
  · rw [show b = lba by omega, hfree]
  · rfl

/-- A write that finds no room leaves the blocks as they are; any other goes on with blocks that
were free. -/
theorem write_cases (s : Store) (object : StoredObject) (memory : Option Bytes) (faults : Faults) :
    (s.write object memory faults).2 =
        { s with pendingSizes := s.pendingSizes.erase object.entry.id } ∨
      ∃ data headerLba block bitmap extents, s.layout.dataLba ≤ headerLba ∧
        s.bitmap headerLba = false ∧ Gathered s.layout.dataLba s.totalBlocks
          (divCeil data.length s.blockSize) (setRange s.bitmap headerLba 1 true) block bitmap 0
          extents ∧
        s.write object memory faults = ({ s with
          pendingSizes := s.pendingSizes.erase object.entry.id, bitmap } : Store).writeAt object data
            headerLba extents faults := by
  unfold write
  simp only
  split
  · exact .inl rfl
  rename_i data _ hdata
  split
  · exact .inl rfl
  rename_i headerLba _ halc
  obtain ⟨hlba, -, hfree, rfl⟩ := allocateExtent_spec halc
  have hfree := hfree headerLba ⟨le_rfl, Nat.lt_succ_self _⟩
  split
  · rename_i hfrag
    obtain ⟨-, rfl⟩ | ⟨_, _, _, ⟨⟩, -⟩ := allocateFragmented_spec hfrag
    exact .inl (freeExtent_setRange hlba hfree)
  · rename_i extents _ hfrag
    obtain ⟨⟨⟩, -⟩ | ⟨_, block, bitmap, ⟨⟩, hgat, rfl⟩ := allocateFragmented_spec hfrag
    obtain ⟨_, -, htake⟩ := bind_eq_some_iff.mp hdata
    rw [← (length_of_takeBytes htake).1] at hgat
    exact .inr ⟨data, headerLba, block, bitmap, extents, hlba, hfree, hgat, rfl⟩

theorem same_pendingSizes (s : Store) (pendingSizes : ExtTreeMap ℕ ℕ) :
    SameBlocks s { s with pendingSizes } := ⟨rfl, rfl, rfl, rfl, rfl, rfl⟩

theorem allocated_write (hs : s.Allocated) (hobj : Resolved s object) (memory : Option Bytes)
    (hfl : faults.flushDirectory = true) : (s.write object memory faults).2.Allocated := by
  have hsame := same_pendingSizes s (s.pendingSizes.erase object.entry.id)
  rcases write_cases s object memory faults with heq | ⟨_, _, _, _, _, hlba, hfree, hgat, heq⟩
  · exact heq ▸ hs.same hsame
  · rw [heq]
    exact allocated_writeAt (hs.same hsame) (hobj.same hsame) hlba hfree hgat hfl

variable {totalBlocks : ℕ}

theorem geometry_blank {layout : Layout} (hmin : 512 ≤ blockSize)
    (hmax : blockSize ≤ pageSize) (htot : totalBlocks < 2 ^ 32)
    (h : forDevice blockSize totalBlocks = some layout) :
    (blank blockSize totalBlocks layout).Geometry := by
  have hsize : 0 < blockSize := Nat.lt_of_lt_of_le (by decide) hmin
  unfold forDevice at h
  simp only at h
  split at h
  · cases h
    refine ⟨hmin, hmax, htot, rfl, divCeil_mul_ge hsize, ?_, ?_, le_rfl⟩
    · simp only [blank]
      omega
    · simp only [blank, length_replicate, directoryEntries]
      exact Nat.div_mul_le_self _ _
  · cases h

variable (h : format blockSize totalBlocks = some s)
include h

/-- A formatted store is the blank one, with what was written on its device. -/
theorem format_eq :
    s.Geometry ∧ ∃ layout device, s = { blank blockSize totalBlocks layout with device } := by
  unfold format at h
  split at h
  · cases h
  rename_i hrng
  simp only [not_or, not_lt, not_le] at hrng
  obtain ⟨layout, hlayout, rfl⟩ := map_eq_some_iff.mp h
  have hgeo := geometry_blank hrng.1 hrng.2.1 hrng.2.2 hlayout
  -- None of the calls changes anything but the device.
  have hcs : ∀ (result : Bool × Store) (next : Store → Bool × Store) (base : Store),
      (∃ device, result.2 = { base with device }) →
      (∀ device, ∃ device', (next { base with device }).2 = { base with device := device' }) →
      ∃ device, (andThen result next).2 = { base with device } := by
    rintro ⟨ok, _⟩ _ _ ⟨device, rfl⟩ hnext
    cases ok with
    | false => exact ⟨device, rfl⟩
    | true => exact hnext device
  obtain ⟨device, hdev⟩ := hcs _ (fun s => s.flush true) (blank blockSize totalBlocks layout)
    (hcs _ (fun s => s.writeSuperblockSlot 1 1 .done) _
      (hcs ((blank blockSize totalBlocks layout).persistBitmap fun _ => .done)
        (fun s => s.writeSuperblockSlot 0 1 .done) _ ⟨_, rfl⟩ fun _ => ⟨_, rfl⟩)
      fun _ => ⟨_, rfl⟩) fun _ => ⟨_, rfl⟩
  rw [hdev]
  exact ⟨hgeo.same rfl rfl rfl rfl, layout, device, rfl⟩

theorem directory_format (hent : s.directory[index]? = some entry) : entry.id = 0 := by
  obtain ⟨-, _, _, rfl⟩ := format_eq h
  rw [eq_of_mem_replicate (mem_of_getElem? hent)]
  rfl

theorem allocated_format : s.Allocated := by
  refine ⟨(format_eq h).1, ?_, ?_⟩
  · rintro _ _ ⟨hent, hid⟩
    exact absurd (directory_format h hent) hid
  · rintro _ _ _ _ _ ⟨hent, hid⟩
    exact absurd (directory_format h hent) hid

omit h

/-- The blocks of live objects are used, they are disjoint, and the allocator hands out
none of them. -/
structure AllocationSafe (s : Store) : Prop where
  used : ∀ index entry, s.Live index entry → ∀ block ∈ s.blocks entry, s.bitmap block = true
  apart : ∀ index index' entry entry', index ≠ index' → s.Live index entry → s.Live index' entry' →
    (s.blocks entry).Disjoint (s.blocks entry')
  extent : ∀ count lba s', s.allocateExtent count = some (lba, s') → ∀ index entry,
    s.Live index entry → ∀ block ∈ s.blocks entry, ¬ Within lba count block
  fragments : ∀ count extents s', s.allocateFragmented count = (some extents, s') → ∀ index entry,
    s.Live index entry → ∀ block ∈ s.blocks entry, block ∉ extentBlocks extents

theorem Allocated.safe (h : s.Allocated) : s.AllocationSafe where
  used index entry hlive block hblk := (h.used index entry hlive block hblk).2
  apart := h.apart
  extent count lba s' halc index entry hlive block hblk hwithin := by
    obtain ⟨-, -, hfree, -⟩ := allocateExtent_spec halc
    exact Bool.false_ne_true ((hfree block hwithin).symm.trans (h.used index entry hlive block hblk).2)
  fragments count extents s' halc index entry hlive block hblk hmem := by
    obtain ⟨⟨⟩, -⟩ | ⟨_, _, _, ⟨⟩, hgat, -⟩ := allocateFragmented_spec halc
    exact Bool.false_ne_true ((hgat.fresh block hmem).2.2.2.symm.trans
      (h.used index entry hlive block hblk).2)

end Store

namespace Message

variable (message : Message)

/-- The flush after a new directory entry was written does not fail. -/
def EntryFlushed : Prop :=
  match message.opcode with
  | .create | .createAt | .createAtShared | .write | .applyScope =>
    message.faults.flushDirectory = true ∧ message.faultsThen.flushDirectory = true
  | _ => True

theorem id_lt : message.id < 256 ^ 8 := UInt64.toNat_lt _

theorem principal_lt : message.principal < 256 ^ 8 := UInt64.toNat_lt _

end Message

namespace Server

open Store

variable {s : Store}

theorem allocated_ensureScopeObject (hs : s.Allocated) {principal : ℕ} {faults : Faults}
    (hprin : principal < 256 ^ 8) (hfl : faults.flushDirectory = true) :
    (ensureScopeObject s principal faults).2.Allocated := by
  have hfind := same_findIndex s scopeObjectId
  unfold ensureScopeObject
  rcases hres : s.findIndex scopeObjectId with ⟨_ | _, s'⟩ <;> rw [hres] at hfind
  · have hid : ∀ id, some scopeObjectId = some id → id < 256 ^ 8 := by
      rintro _ ⟨⟩
      decide
    have hcr : (s'.create (some scopeObjectId) principal 0 faults).2.Allocated :=
      allocated_create (hs.same hfind) hid hprin (by decide) hfl
    simp only
    cases hres : s'.create (some scopeObjectId) principal 0 faults with
    | mk result =>
      rw [hres] at hcr
      cases result with
      | ok | error => exact hcr
  · exact hs.same hfind

variable {message : Message}

theorem allocated_installScope (hs : s.Allocated) (bytes : Bytes)
    (hfst : message.faults.flushDirectory = true) (hthen : message.faultsThen.flushDirectory = true) :
    (installScope s bytes message.principal message).2.Allocated := by
  have hens := allocated_ensureScopeObject hs message.principal_lt hfst
  unfold installScope
  split
  · exact hs
  rcases hres : ensureScopeObject s message.principal message.faults with
    ⟨_ | _, s'⟩ <;> rw [hres] at hens
  · exact hens
  · simp only
    split
    · exact hens
    have hpend : ({ s' with
        pendingSizes := s'.pendingSizes.insert scopeObjectId bytes.length } : Store).Allocated :=
      hens.same ⟨rfl, rfl, rfl, rfl, rfl, rfl⟩
    obtain ⟨result, _, hrsv, hsame, hobj⟩ := resolve_cases { s' with
      pendingSizes := s'.pendingSizes.insert scopeObjectId bytes.length } scopeObjectId
      message.faultsThen
    rw [hrsv]
    cases result with
    | error => exact hpend.same hsame
    | ok => exact allocated_write (hpend.same hsame) (hobj rfl) _ hthen

variable {server : Server}

variable (hs : server.store.Allocated)
include hs

theorem allocated_handleObject
    (hfls : message.EntryFlushed) {object : StoredObject} (hobj : Resolved server.store object) :
    (server.handleObject message object).2.store.Allocated := by
  unfold handleObject
  unfold Message.EntryFlushed at hfls
  simp only
  split
  · split
    · exact allocated_delete hs hobj message.faults
    · exact hs
  · split
    · exact allocated_setSize hs object message.memory
    · exact hs
  · rename_i hop
    rw [hop] at hfls
    split
    · split
      · exact hs
      · exact allocated_write hs hobj _ hfls.1
    · exact hs
  · exact hs
  · exact hs

theorem allocated_applyScope (hfst : message.faults.flushDirectory = true)
    (hthen : message.faultsThen.flushDirectory = true) :
    (server.applyScope message).2.store.Allocated := by
  unfold applyScope
  split
  · exact hs
  split
  · exact hs
  split
  · exact hs
  split
  · exact hs
  · exact allocated_installScope hs _ hfst hthen

theorem allocated_handle
    (hfls : message.EntryFlushed) : (server.handle message).2.store.Allocated := by
  have hreq : ∀ id, some message.id = some id → id < 256 ^ 8 := by
    rintro _ ⟨⟩
    exact message.id_lt
  have hnone : ∀ id, (none : Option ℕ) = some id → id < 256 ^ 8 := nofun
  unfold handle
  split
  · obtain ⟨result, _, hrsv, hsame, hobj⟩ := resolve_cases server.store message.id message.faults
    rw [hrsv]
    cases result with
    | error => exact hs.same hsame
    | ok => exact allocated_handleObject (hs.same hsame) hfls (hobj rfl)
  · simp only
    unfold Message.EntryFlushed at hfls
    split
    · rename_i hop
      rw [hop] at hfls
      exact allocated_create hs hnone message.principal_lt (by decide) hfls.1
    · rename_i hop
      rw [hop] at hfls
      split
      · exact allocated_create hs hreq message.principal_lt (by decide) hfls.1
      · exact hs
    · rename_i hop
      rw [hop] at hfls
      split
      · exact allocated_create hs hreq message.principal_lt (by decide) hfls.1
      · exact hs
    · rename_i hop
      rw [hop] at hfls
      exact allocated_applyScope hs hfls.1 hfls.2
    · exact hs
    · obtain ⟨_, hfl, hread⟩ := flush_eq server.store message.flushed
      rw [hfl]
      exact hs.metadata fun lba _ => hread _ lba
    · exact hs

omit hs

/-- In every run in which the flush after a new directory entry does not fail, blocks of live
objects are never handed out again. -/
theorem allocation_stays_safe {blockSize totalBlocks : ℕ}
    (hformat : format blockSize totalBlocks = some s) (clusterctl : ℕ) (scope : ScopeTable)
    (messages : List Message) (hmessages : ∀ message ∈ messages, message.EntryFlushed) :
    ((⟨clusterctl, s, scope⟩ : Server).run messages).store.AllocationSafe := by
  have hrun : ∀ (messages : List Message) (server : Server), server.store.Allocated →
      (∀ message ∈ messages, message.EntryFlushed) → (server.run messages).store.Allocated := by
    intro messages
    induction messages with
    | nil => exact fun _ hs _ => hs
    | cons message messages ih =>
      intro server hs hall
      exact ih _ (allocated_handle hs (hall message mem_cons_self))
        fun other hoth => hall other (mem_cons_of_mem _ hoth)
  exact (hrun messages ⟨clusterctl, s, scope⟩ (allocated_format hformat) hmessages).safe

/-- A request without memory. -/
def request (opcode : Opcode) (id principal : UInt64) (faults : Faults) : Message where
  opcode
  arg0 := id
  senderPrincipal := principal
  memory := none
  faults
  faultsThen := .none
  allocated := true
  flushed := true

/-- A directory entry is not written, an object is created, and it is deleted. -/
def createAndDelete : List Message :=
  [request .create 0 7 { Faults.none with writeDirectory := .failed fun _ => replicate 512 0 },
    request .create 0 7 .none, request .delete 1 7 .none]

theorem allocation_stays_safe_created : ∃ s, format 512 16 = some s ∧
      ((⟨2, s, []⟩ : Server).run createAndDelete).store.AllocationSafe := by
  have hsome : (format 512 16).isSome = true := by decide
  obtain ⟨s, hfmt⟩ := isSome_iff_exists.mp hsome
  refine ⟨s, hfmt, allocation_stays_safe hfmt 2 [] _ ?_⟩
  simp only [createAndDelete, forall_mem_cons]
  exact ⟨⟨rfl, rfl⟩, ⟨rfl, rfl⟩, trivial, forall_mem_nil _⟩

/-- The header of a new object is freed although its directory entry is in place. -/
theorem live_header_freed : ∃ s, format 512 16 = some s ∧ ∃ messages,
      ¬ ((⟨2, s, []⟩ : Server).run messages).store.AllocationSafe := by
  refine ⟨_, rfl, [request .create 0 7 { Faults.none with flushDirectory := false }], ?_⟩
  intro hsafe
  have hused := hsafe.used 0 ⟨1, 1, 1, 5, 1⟩ ⟨by decide +kernel, by decide⟩ 5 mem_cons_self
  exact absurd hused (by decide +kernel)

end Server

end Charlotte.ObjStore
