import Charlotte.ObjStore.Allocation

/-!
# Objects keep their identity

A request works on the object that carries the id it names. The index cache points
every id to the entry that carries it; what a request changes is one directory entry and
blocks that no object has.
-/

namespace Charlotte.ObjStore

open Lib List Option
open Std (ExtTreeMap)

namespace Store

/-! ### What an operation changes -/

/-- Only the entry at `index`, metadata and blocks that were not used have changed. -/
structure Confined (s : Store) (index : ℕ) (s' : Store) : Prop where
  blockSize : s'.blockSize = s.blockSize
  elsewhere : ∀ other : ℕ, other ≠ index → s'.directory[other]? = s.directory[other]?
  touches : Touches s.blockSize (fun block => s.Metadata block ∨ s.bitmap block = false) s.device
    s'.device

/-- An object is as before: its entry and all of its blocks. -/
def Untouched (s s' : Store) (index : ℕ) (entry : DirectoryEntry) : Prop :=
  s'.directory[index]? = some entry ∧ ∀ block ∈ s.blocks entry,
    s'.device.read s'.blockSize block = s.device.read s.blockSize block

variable {s s' : Store} {index : ℕ} {entry : DirectoryEntry}

theorem Confined.untouched (h : Confined s index s') (hs : s.Allocated)
    {other : ℕ} (hlive : s.Live other entry) (hne : other ≠ index) : Untouched s s' other entry := by
  refine ⟨(h.elsewhere other hne).trans hlive.1, fun block hblk => ?_⟩
  obtain ⟨hdata, hused⟩ := hs.used other entry hlive block hblk
  rw [h.blockSize]
  refine h.touches block ?_
  rintro (hmeta | hfree)
  · exact absurd hdata (Nat.not_le.mpr hmeta)
  · exact Bool.false_ne_true (hfree.symm.trans hused)

theorem SameBlocks.confined (h : SameBlocks s s') (index : ℕ) : Confined s index s' where
  blockSize := h.blockSize
  elsewhere _ _ := by rw [h.directory]
  touches := h.device ▸ Touches.refl _

variable {s'' : Store}

/-- What is done first changes nothing that the invariant looks at. -/
theorem Confined.after (hsame : SameBlocks s s')
    (h : Confined s' index s'') : Confined s index s'' where
  blockSize := h.blockSize.trans hsame.blockSize
  elsewhere other hne := (h.elsewhere other hne).trans (by rw [hsame.directory])
  touches := by
    have htch := h.touches
    unfold Metadata at htch ⊢
    rwa [hsame.blockSize, hsame.layout, hsame.bitmap, hsame.device] at htch

/-- What comes after writes metadata only. -/
theorem Confined.then (h : Confined s index s')
    (hsize : s''.blockSize = s'.blockSize) (hdir : s''.directory = s'.directory)
    (htch : Touches s.blockSize s.Metadata s'.device s''.device) : Confined s index s'' where
  blockSize := hsize.trans h.blockSize
  elsewhere other hne := (by rw [hdir] : s''.directory[other]? = s'.directory[other]?).trans
    (h.elsewhere other hne)
  touches := h.touches.trans (htch.mono fun _ => .inl)

variable {bitmap : ℕ → Bool}

theorem Committed.confined {header : ObjectHeader} {switched : Bool} {device : Device} {blocks : List ℕ}
    (hfr : Fresh s bitmap blocks) (hlba : entry.headerLba ∈ blocks)
    (hdev : Touches s.blockSize (fun block => s.Metadata block ∨ block ∈ blocks) s.device device)
    (h : Committed { s with bitmap, device } index entry header switched s') : Confined s index s' := by
  obtain ⟨⟨device', rfl⟩, htch, -⟩ := h
  refine ⟨rfl, fun other hne => ?_, ?_⟩
  · cases switched with
    | false => rfl
    | true => exact getElem?_set_ne (Ne.symm hne)
  · have hall : Touches s.blockSize (fun block => s.Metadata block ∨ block ∈ blocks) s.device device' :=
      hdev.trans (htch.mono fun block hblk => hblk.imp_right fun heq => by rwa [heq])
    exact hall.mono fun block hblk => hblk.imp_right (hfr.free block)

theorem andThen_true (s : Store) (next : Store → Bool × Store) : andThen (true, s) next = next s := rfl

theorem flush_same (s : Store) (ok : Bool) :
    (s.flush ok).2.indexCache = s.indexCache ∧ (s.flush ok).2.directory = s.directory := by
  cases ok <;> exact ⟨rfl, rfl⟩

/-- Creating an object fills one slot of the directory, or none. -/
theorem createAt_spec (h : s.Geometry) (id index owner attributes : ℕ) (automatic : Bool)
    (faults : Faults) : Confined s index (s.createAt id index owner attributes automatic faults).2 ∧
      (((s.createAt id index owner attributes automatic faults).2.directory = s.directory ∧
          (s.createAt id index owner attributes automatic faults).2.indexCache = s.indexCache) ∨
        ∃ entry, entry.id = id ∧ (s.createAt id index owner attributes automatic faults).2.directory =
            s.directory.set index entry ∧
          ((s.createAt id index owner attributes automatic faults).2.indexCache = s.indexCache ∨
            (s.createAt id index owner attributes automatic faults).2.indexCache =
              s.indexCache.insert id index)) := by
  unfold createAt
  split
  · exact ⟨(SameBlocks.refl s).confined index, .inl ⟨rfl, rfl⟩⟩
  rename_i previous _
  split
  · exact ⟨(SameBlocks.refl s).confined index, .inl ⟨rfl, rfl⟩⟩
  rename_i lba _ halc
  obtain ⟨hlba, -, hfree, rfl⟩ := allocateExtent_spec halc
  simp only
  have hgeo : { s with bitmap := setRange s.bitmap lba 1 true }.Geometry :=
    h.same rfl rfl rfl rfl
  obtain ⟨switched, hcom, hok⟩ := committed_commit hgeo index
    ⟨id, flagAllocated, saturatingSucc 32 previous.generation, lba, 1⟩
    (.empty id (saturatingSucc 32 previous.generation) s.blockSize owner attributes) faults hlba
  generalize Store.commit _ _ _ _ _ = result at hcom hok ⊢
  obtain ⟨ok, s₂⟩ := result
  have hfr := fresh_single hlba (hfree lba ⟨le_rfl, Nat.lt_succ_self _⟩)
  have hcon : Confined s index s₂ := hcom.confined hfr mem_cons_self (Touches.refl _)
  obtain ⟨⟨device, rfl⟩, -, -⟩ := hcom
  cases ok with
  | false =>
    refine ⟨hcon.then rfl rfl (Touches.refl _), ?_⟩
    cases switched with
    | false => exact .inl ⟨rfl, rfl⟩
    | true => exact .inr ⟨_, rfl, rfl, .inl rfl⟩
  | true =>
    have hswit : switched = true := by
      cases switched with
      | true => rfl
      | false => cases hok
    subst hswit
    simp only [if_true]
    split
    · have hgeo' : ({ s with
          bitmap := setRange s.bitmap lba 1 true, device
          directory := s.directory.set index
            ⟨id, flagAllocated, saturatingSucc 32 previous.generation, lba, 1⟩
          indexCache := s.indexCache.insert id index } : Store).Geometry :=
        h.same rfl rfl rfl (by simp)
      obtain ⟨_, htch, heq⟩ := persistSuperblock_eq hgeo' faults
      rw [heq]
      exact ⟨hcon.then rfl rfl htch, .inr ⟨_, rfl, rfl, .inr rfl⟩⟩
    · exact ⟨hcon.then rfl rfl (Touches.refl _), .inr ⟨_, rfl, rfl, .inr rfl⟩⟩

variable {faults : Faults}

/-- Deleting an object empties its slot, or does nothing but write metadata. -/
theorem delete_spec (h : s.Geometry) (object : StoredObject) (hfl : faults.flushDirectory = true) :
    Confined s object.index (s.delete object faults).2 ∧
      (((s.delete object faults).2.directory = s.directory ∧
          (s.delete object faults).2.indexCache = s.indexCache) ∨
        ((s.delete object faults).2.directory = s.directory.set object.index (tombstone object.entry) ∧
          (s.delete object faults).2.indexCache = s.indexCache.erase object.entry.id)) := by
  unfold delete
  obtain ⟨ok, device, htch, hwr⟩ := writeDirectory_spec h object.index (tombstone object.entry)
    faults
  rw [hwr]
  have hcon : Confined s object.index { s with
      device, directory := if ok then s.directory.set object.index (tombstone object.entry)
        else s.directory } := by
    refine ⟨rfl, fun other hne => ?_, htch.mono fun _ => .inl⟩
    cases ok with
    | false => rfl
    | true => exact getElem?_set_ne (Ne.symm hne)
  cases ok with
  | false => exact ⟨hcon, .inl ⟨rfl, rfl⟩⟩
  | true =>
    simp only [hfl, flush, if_true, andThen_true]
    set freed := ({ s with
      device := .flush :: device
      directory := s.directory.set object.index (tombstone object.entry)
      indexCache := s.indexCache.erase object.entry.id
      pendingSizes := s.pendingSizes.erase object.entry.id } : Store).freeObjectAllocation
      object.entry.headerLba object.header with hfreed
    have hgeo : freed.Geometry := by
      refine h.same rfl rfl rfl ?_
      simp [hfreed, freeObjectAllocation, freeExtent, freeExtents]
    obtain ⟨_, hper, heq⟩ := persist_eq hgeo faults.writeFreed faults.flushFreed
    exact ⟨heq ▸ hcon.then rfl rfl hper, .inr (heq ▸ ⟨rfl, rfl⟩)⟩

/-- The entry of an object is replaced by one with the same id, or kept. -/
structure Rewrites (s : Store) (object : StoredObject) (s' : Store) : Prop where
  confined : Confined s object.index s'
  cache : s'.indexCache = s.indexCache
  directory : s'.directory = s.directory ∨ ∃ entry, entry.id = object.entry.id ∧
    s'.directory = s.directory.set object.index entry

theorem Rewrites.then {object : StoredObject} (h : Rewrites s object s')
    (hsize : s''.blockSize = s'.blockSize) (hdir : s''.directory = s'.directory)
    (hca : s''.indexCache = s'.indexCache)
    (htch : Touches s.blockSize s.Metadata s'.device s''.device) : Rewrites s object s'' :=
  ⟨h.confined.then hsize hdir htch, hca.trans h.cache, hdir ▸ h.directory⟩

theorem rewrites_writeAt (object : StoredObject) (hs : s.Geometry) {data : Bytes}
    {headerLba block : ℕ} {extents : List Extent}
    (hlba : s.layout.dataLba ≤ headerLba) (hfree : s.bitmap headerLba = false)
    (hgat : Gathered s.layout.dataLba s.totalBlocks (Layout.divCeil data.length s.blockSize)
      (setRange s.bitmap headerLba 1 true) block bitmap 0 extents) (faults : Faults) :
    Rewrites s object ({ s with bitmap }.writeAt object data headerLba extents faults).2 := by
  have hfr := fresh_allocated hlba hfree hgat
  obtain ⟨_, device, hwr, hbr⟩ := writeData_eq hs bitmap headerLba extents data faults.writeData
  unfold writeAt
  simp only
  rw [hwr]
  split
  · refine ⟨⟨rfl, fun _ _ => rfl, ?_⟩, rfl, .inl rfl⟩
    exact hbr.mono fun b hb => hb.imp_right (hfr.free b)
  have hgeo : { s with bitmap, device }.Geometry := hs.same rfl rfl rfl rfl
  obtain ⟨switched, hcom, hok⟩ := committed_commit hgeo object.index
    ⟨object.entry.id, flagAllocated, (s.rewritten object data extents).generation % 2 ^ 32, headerLba, 1⟩
    (s.rewritten object data extents) faults hlba
  have hsame : { s with bitmap, device }.rewritten object data extents =
      s.rewritten object data extents := rfl
  rw [hsame]
  generalize Store.commit _ _ _ _ _ = result at hcom hok ⊢
  obtain ⟨ok', s₂⟩ := result
  have hrew : Rewrites s object s₂ := by
    have hcon := hcom.confined hfr mem_cons_self hbr
    obtain ⟨⟨_, rfl⟩, -, -⟩ := hcom
    refine ⟨hcon, rfl, ?_⟩
    cases switched with
    | false => exact .inl rfl
    | true => exact .inr ⟨⟨object.entry.id, flagAllocated, _, headerLba, 1⟩, rfl, rfl⟩
  obtain ⟨⟨_, rfl⟩, -, -⟩ := hcom
  cases ok' with
  | false => exact hrew.then rfl rfl rfl (Touches.refl _)
  | true =>
    simp only
    generalize hfreed : Store.freeObjectAllocation _ _ _ = freed
    have hgeo' : freed.Geometry := by
      subst hfreed
      refine hs.same rfl rfl rfl ?_
      cases switched <;> simp [freeObjectAllocation, freeExtent, freeExtents]
    obtain ⟨_, hper, heq⟩ := persist_eq hgeo' faults.writeFreed faults.flushFreed
    subst hfreed
    rw [heq]
    exact hrew.then rfl rfl rfl hper

theorem rewrites_write (hs : s.Geometry) (object : StoredObject) (memory : Option Bytes)
    (faults : Faults) : Rewrites s object (s.write object memory faults).2 := by
  have hsame := same_pendingSizes s (s.pendingSizes.erase object.entry.id)
  have hs₀ : { s with pendingSizes := s.pendingSizes.erase object.entry.id }.Geometry :=
    hs.same rfl rfl rfl rfl
  rcases write_cases s object memory faults with heq | ⟨_, _, _, _, _, hlba, hfree, hgat, heq⟩
  · rw [heq]
    exact ⟨hsame.confined _, rfl, .inl rfl⟩
  · rw [heq]
    obtain ⟨hcon, hca, hdir⟩ := rewrites_writeAt object hs₀ hlba hfree hgat faults
    exact ⟨hcon.after hsame, hca, hdir⟩

/-! ### Ids -/

/-- Every id that is cached points to the entry that carries it, and no id is carried twice. -/
structure Identified (s : Store) : Prop where
  cached : ∀ id index, s.indexCache[id]? = some index →
    id ≠ 0 ∧ ∃ entry, s.directory[index]? = some entry ∧ entry.id = id
  unique : ∀ index index' entry entry', s.Live index entry → s.Live index' entry' →
    entry.id = entry'.id → index = index'

theorem Identified.of_eq (h : s.Identified) (hcach : s'.indexCache = s.indexCache)
    (hdir : s'.directory = s.directory) : s'.Identified := by
  constructor
  · intro id index hca
    rw [hcach] at hca
    rw [hdir]
    exact h.cached id index hca
  · rintro index index' entry entry' ⟨hent, hid⟩ ⟨hent', hid'⟩
    rw [hdir] at hent hent'
    exact h.unique index index' entry entry' ⟨hent, hid⟩ ⟨hent', hid'⟩

variable {id : ℕ}

theorem findIndex_some (h : s.Identified) (hfnd : (s.findIndex id).1 = some index) :
    ∃ entry, s.directory[index]? = some entry ∧ entry.id = id := by
  unfold findIndex at hfnd
  split at hfnd
  · rename_i hca
    cases hfnd
    exact (h.cached id _ hca).2
  split at hfnd
  · rename_i hscan
    cases hfnd
    obtain ⟨hlt, hid, -⟩ := findIdx?_eq_some_iff_getElem.mp hscan
    exact ⟨_, getElem?_eq_getElem hlt, beq_iff_eq.mp hid⟩
  · cases hfnd

theorem findIndex_none (hfnd : (s.findIndex id).1 = none) :
    ∀ (index : ℕ) (entry : DirectoryEntry), s.directory[index]? = some entry → entry.id ≠ id := by
  unfold findIndex at hfnd
  split at hfnd
  · cases hfnd
  split at hfnd
  · cases hfnd
  · rename_i hscan
    intro index entry hent hid
    have hall := findIdx?_eq_none_iff.mp hscan entry (mem_of_getElem? hent)
    exact absurd (beq_iff_eq.mpr hid) (Bool.eq_false_iff.mp hall)

theorem identified_findIndex (h : s.Identified) (hid : id ≠ 0) : (s.findIndex id).2.Identified := by
  unfold findIndex
  split
  · exact h
  split
  · rename_i hscan
    refine ⟨?_, h.unique⟩
    intro other index hca
    simp only [ExtTreeMap.getElem?_insert, Nat.compare_eq_eq] at hca
    split at hca
    · rename_i heq
      cases hca
      obtain ⟨hlt, hent, -⟩ := findIdx?_eq_some_iff_getElem.mp hscan
      subst heq
      exact ⟨hid, _, getElem?_eq_getElem hlt, beq_iff_eq.mp hent⟩
    · exact h.cached other index hca
  · exact h

theorem identified_nextAutomaticId (h : s.Identified) (attempts : ℕ) {candidate : ℕ}
    (hcand : candidate ≠ 0) : (s.nextAutomaticId attempts candidate).2.Identified ∧
      ∀ id, (s.nextAutomaticId attempts candidate).1 = .ok id → id ≠ 0 ∧
        ∀ (index : ℕ) (entry : DirectoryEntry), s.directory[index]? = some entry → entry.id ≠ id := by
  induction attempts generalizing s candidate with
  | zero => exact ⟨h, fun _ h => by cases h⟩
  | succ attempts ih =>
    unfold nextAutomaticId
    split
    · exact ⟨h, fun _ h => by cases h⟩
    have hfind := identified_findIndex h hcand
    have hsame := same_findIndex s candidate
    rcases hres : s.findIndex candidate with ⟨_ | index, _⟩ <;> rw [hres] at hfind hsame
    · refine ⟨hfind, fun id hid => ?_⟩
      cases hid
      exact ⟨hcand, findIndex_none (congrArg Prod.fst hres)⟩
    · obtain ⟨hnext, hfr⟩ := ih hfind (Nat.succ_ne_zero candidate)
      refine ⟨hnext, fun id hid => ?_⟩
      obtain ⟨hne, hall⟩ := hfr id hid
      exact ⟨hne, fun index entry hent => hall index entry (by rwa [hsame.directory])⟩

theorem identified_admitCreateId (h : s.Identified) (requested : Option ℕ) (slotAvailable : Bool) :
    (s.admitCreateId requested slotAvailable).2.Identified ∧
      ∀ id, (s.admitCreateId requested slotAvailable).1 = .ok id → id ≠ 0 ∧
        ∀ (index : ℕ) (entry : DirectoryEntry), s.directory[index]? = some entry → entry.id ≠ id := by
  unfold admitCreateId
  cases requested with
  | some wanted =>
    simp only
    split
    · exact ⟨h, nofun⟩
    rename_i hwanted
    have hfind := identified_findIndex h hwanted
    rcases hres : s.findIndex wanted with ⟨_ | _, _⟩ <;> rw [hres] at hfind
    · refine ⟨hfind, fun id hid => ?_⟩
      simp only at hid
      split at hid
      · cases hid
        exact ⟨hwanted, findIndex_none (congrArg Prod.fst hres)⟩
      · cases hid
    · exact ⟨hfind, nofun⟩
  | none =>
    simp only
    split
    · have hpos : max s.nextId 1 ≠ 0 := by omega
      obtain ⟨hnext, hfr⟩ := identified_nextAutomaticId h (s.directory.length + 1) hpos
      rcases hres : s.nextAutomaticId (s.directory.length + 1) (max s.nextId 1) with
        ⟨_ | _, s'⟩ <;> rw [hres] at hnext hfr
      · exact ⟨hnext, nofun⟩
      · refine ⟨hnext.of_eq rfl rfl, fun id hid => ?_⟩
        cases hid
        exact hfr _ rfl
    · exact ⟨h, nofun⟩

section Entries

variable {s s' : Store} {index : ℕ} {entry old : DirectoryEntry}

theorem Identified.fill (h : s.Identified)
    (hfree : ∀ entry, s.directory[index]? = some entry → entry.id = 0) (hid : entry.id ≠ 0)
    (hfr : ∀ (other : ℕ) (entry' : DirectoryEntry), s.directory[other]? = some entry' →
      entry'.id ≠ entry.id) (hidx : index < s.directory.length)
    (hdir : s'.directory = s.directory.set index entry)
    (hcach : s'.indexCache = s.indexCache ∨ s'.indexCache = s.indexCache.insert entry.id index) :
    s'.Identified := by
  have hkept : ∀ id cached, s.indexCache[id]? = some cached →
      id ≠ 0 ∧ ∃ entry', s'.directory[cached]? = some entry' ∧ entry'.id = id := by
    intro id cached hca
    obtain ⟨hne, entry', hent', hid'⟩ := h.cached id cached hca
    have hoth : index ≠ cached := by
      rintro rfl
      exact hne (hid'.symm.trans (hfree entry' hent'))
    refine ⟨hne, entry', ?_, hid'⟩
    rw [hdir, getElem?_set_ne hoth]
    exact hent'
  have hlive : ∀ i e, s'.Live i e → (i = index ∧ e = entry) ∨ s.Live i e := by
    intro i e hie
    rcases live_set hdir hie with ⟨hi, he, -⟩ | ⟨-, hold⟩
    · exact .inl ⟨hi, he⟩
    · exact .inr hold
  constructor
  · intro id cached hca
    rcases hcach with hcach | hcach
    · exact hkept id cached (hcach ▸ hca)
    · rw [hcach, ExtTreeMap.getElem?_insert] at hca
      simp only [Nat.compare_eq_eq] at hca
      split at hca
      · rename_i heq
        cases hca
        subst heq
        refine ⟨hid, entry, ?_, rfl⟩
        rw [hdir, getElem?_set_self hidx]
      · exact hkept id cached hca
  · intro i j e e' hie hje hsame
    rcases hlive i e hie with ⟨rfl, rfl⟩ | hold
    · rcases hlive j e' hje with ⟨rfl, rfl⟩ | hold'
      · rfl
      · exact absurd hsame.symm (hfr j e' hold'.1)
    · rcases hlive j e' hje with ⟨rfl, rfl⟩ | hold'
      · exact absurd hsame (hfr i e hold.1)
      · exact h.unique i j e e' hold hold' hsame

theorem Identified.rewrite (h : s.Identified) (hold : s.Live index old) (hid : entry.id = old.id)
    (hdir : s'.directory = s.directory.set index entry)
    (hcach : s'.indexCache = s.indexCache) : s'.Identified := by
  have hidx := (List.getElem?_eq_some_iff.mp hold.1).1
  have hlive : ∀ i e, s'.Live i e → ∃ e₀, s.Live i e₀ ∧ e₀.id = e.id := by
    intro i e hie
    rcases live_set hdir hie with ⟨rfl, rfl, -⟩ | ⟨-, hsame⟩
    · exact ⟨old, hold, hid.symm⟩
    · exact ⟨e, hsame, rfl⟩
  constructor
  · intro id cached hca
    obtain ⟨hne, entry', hent', hid'⟩ := h.cached id cached (hcach ▸ hca)
    refine ⟨hne, ?_⟩
    by_cases hoth : index = cached
    · subst hoth
      refine ⟨entry, ?_, ?_⟩
      · rw [hdir, getElem?_set_self hidx]
      · have heq := some.inj (hold.1.symm.trans hent')
        rw [hid, heq, hid']
    · refine ⟨entry', ?_, hid'⟩
      rw [hdir, getElem?_set_ne hoth]
      exact hent'
  · intro i j e e' hie hje hsame
    obtain ⟨e₀, hie₀, hid₀⟩ := hlive i e hie
    obtain ⟨e₀', hje₀, hid₀'⟩ := hlive j e' hje
    exact h.unique i j e₀ e₀' hie₀ hje₀ (hid₀.trans (hsame.trans hid₀'.symm))

theorem Identified.clear (h : s.Identified) (hold : s.Live index old) (hid : entry.id = 0)
    (hdir : s'.directory = s.directory.set index entry)
    (hcach : s'.indexCache = s.indexCache.erase old.id) : s'.Identified := by
  have hlive : ∀ i e, s'.Live i e → s.Live i e := by
    intro i e hie
    rcases live_set hdir hie with ⟨-, -, hne⟩ | ⟨-, hsame⟩
    · exact absurd hid hne
    · exact hsame
  constructor
  · intro id cached hca
    rw [hcach, ExtTreeMap.getElem?_erase] at hca
    simp only [Nat.compare_eq_eq] at hca
    split at hca
    · cases hca
    rename_i hne
    obtain ⟨hid', entry', hent', hsame⟩ := h.cached id cached hca
    have hoth : index ≠ cached := by
      rintro rfl
      have heq := some.inj (hold.1.symm.trans hent')
      exact hne (by rw [heq, hsame])
    refine ⟨hid', entry', ?_, hsame⟩
    rw [hdir, getElem?_set_ne hoth]
    exact hent'
  · intro i j e e' hie hje
    exact h.unique i j e e' (hlive i e hie) (hlive j e' hje)

end Entries

theorem Identified.start {blockSize totalBlocks : ℕ}
    (h : format blockSize totalBlocks = some s) : s.Identified := by
  constructor
  · intro id index hca
    obtain ⟨-, _, _, rfl⟩ := format_eq h
    cases (ExtTreeMap.getElem?_empty (a := id)).symm.trans hca
  · rintro _ _ _ _ ⟨hent, hid⟩
    exact absurd (directory_format h hent) hid

theorem create_spec (hs : s.Allocated) (h : s.Identified) (requested : Option ℕ)
    (owner attributes : ℕ) (faults : Faults) :
    (s.create requested owner attributes faults).2.Identified ∧
      ∃ index, (∀ entry, s.directory[index]? = some entry → entry.id = 0) ∧
        Confined s index (s.create requested owner attributes faults).2 := by
  obtain ⟨hidn, hfr⟩ := identified_admitCreateId h requested s.findFreeDirectory.isSome
  have hsame := (admitCreateId_spec s requested s.findFreeDirectory.isSome).1
  have hbeyond : ∀ entry, s.directory[s.directory.length]? = some entry → entry.id = 0 := by
    intro entry hent
    rw [getElem?_eq_none le_rfl] at hent
    cases hent
  unfold create
  simp only
  rcases hres : s.admitCreateId requested s.findFreeDirectory.isSome with
    ⟨_ | id, _⟩ <;> rw [hres] at hidn hfr hsame
  · exact ⟨hidn, _, hbeyond, hsame.confined _⟩
  · cases hslot : s.findFreeDirectory with
    | none => exact ⟨hidn, _, hbeyond, hsame.confined _⟩
    | some index =>
      obtain ⟨hlt, hzero, -⟩ := findIdx?_eq_some_iff_getElem.mp hslot
      have hfree : ∀ entry, s.directory[index]? = some entry → entry.id = 0 := by
        intro entry hent
        rw [getElem?_eq_getElem hlt] at hent
        rw [← some.inj hent]
        exact beq_iff_eq.mp hzero
      obtain ⟨hid, hunused⟩ := hfr id rfl
      obtain ⟨hcon, hshp⟩ := createAt_spec (hs.same hsame).geometry id index owner
        attributes requested.isNone faults
      refine ⟨?_, index, hfree, hcon.after hsame⟩
      rcases hshp with ⟨hdir, hca⟩ | ⟨_, rfl, hdir, hca⟩
      · exact hidn.of_eq hca hdir
      · refine hidn.fill ?_ hid ?_ ?_ hdir hca
        · rw [hsame.directory]
          exact hfree
        · rw [hsame.directory]
          exact hunused
        · rw [hsame.directory]
          exact hlt

variable {object : StoredObject}

theorem identified_delete (hs : s.Allocated) (h : s.Identified)
    (hobj : Resolved s object) (hfl : faults.flushDirectory = true) :
    (s.delete object faults).2.Identified := by
  obtain ⟨-, hshp⟩ := delete_spec hs.geometry object hfl
  rcases hshp with ⟨hdir, hca⟩ | ⟨hdir, hca⟩
  · exact h.of_eq hca hdir
  · exact h.clear hobj.live rfl hdir hca

theorem identified_write (hs : s.Allocated) (h : s.Identified)
    (hobj : Resolved s object) (memory : Option Bytes) (faults : Faults) :
    (s.write object memory faults).2.Identified := by
  obtain ⟨-, hca, hdir | ⟨_, hid, hdir⟩⟩ := rewrites_write hs.geometry object memory faults
  · exact h.of_eq hca hdir
  · exact h.rewrite hobj.live hid hdir hca

/-- What is resolved carries the id that was asked for. -/
theorem Identified.resolve_id (h : s.Identified) (hrsv : (s.resolve id faults).1 = .ok object) :
    object.entry.id = id ∧ object.header.id = id := by
  obtain ⟨hent, -, hfnd⟩ := (resolve_spec s id faults).2 object hrsv
  obtain ⟨_, hent', hid⟩ := findIndex_some h hfnd
  cases hent'.symm.trans hent
  exact ⟨hid, (resolved_resolve hrsv).id.trans hid⟩

theorem identified_resolve (h : s.Identified) (hid : id ≠ 0) (faults : Faults) :
    (s.resolve id faults).2.Identified := by
  have hfind := identified_findIndex h hid
  unfold resolve
  rcases hres : s.findIndex id with ⟨_ | _, _⟩ <;> rw [hres] at hfind
  · exact hfind
  · simp only
    split
    · exact hfind
    · split
      · exact hfind
      · exact hfind

/-! ### Objects that stay as they are -/

theorem Untouched.refl (hlive : s.Live index entry) : Untouched s s index entry :=
  ⟨hlive.1, fun _ _ => rfl⟩

theorem Untouched.trans (h : Untouched s s' index entry) (h' : Untouched s' s'' index entry) :
    Untouched s s'' index entry := by
  have hblks : s'.blocks entry = s.blocks entry := by
    unfold blocks recordedExtents
    rw [h.2 entry.headerLba mem_cons_self]
  refine ⟨h'.1, fun block hblk => ?_⟩
  rw [h'.2 block (hblks ▸ hblk), h.2 block hblk]

theorem Untouched.same (hsame : SameBlocks s s')
    (hlive : s.Live index entry) : Untouched s s' index entry := by
  refine ⟨hsame.directory ▸ hlive.1, fun _ _ => ?_⟩
  rw [hsame.device, hsame.blockSize]

theorem untouched_create (hs : s.Allocated) (h : s.Identified) (requested : Option ℕ)
    (owner attributes : ℕ) (faults : Faults) (hlive : s.Live index entry) :
    Untouched s (s.create requested owner attributes faults).2 index entry := by
  obtain ⟨-, _, hfree, hcon⟩ := create_spec hs h requested owner attributes faults
  refine hcon.untouched hs hlive ?_
  rintro rfl
  exact hlive.2 (hfree entry hlive.1)

/-- What is not the object that was looked up has another index. -/
theorem Resolved.index_ne (hobj : Resolved s object) (hlive : s.Live index entry)
    (hid : entry.id ≠ object.entry.id) : index ≠ object.index := by
  rintro rfl
  exact hid (congrArg DirectoryEntry.id (some.inj (hlive.1.symm.trans hobj.live.1)))

end Store

namespace Message

/-- No object is looked up under the id of a free slot, and the flush after a tombstone was
written does not fail. -/
def NamesObject (message : Message) : Prop :=
  (message.resolves = true → message.id ≠ 0) ∧
    (message.opcode = .delete → message.faults.flushDirectory = true)

end Message

namespace Server

open Store

/-- An object that a principal may read, judged by the id the object itself carries. -/
structure Readable (server : Server) (principal : ℕ) (object : StoredObject) : Prop where
  resolved : Resolved server.store object
  allowed : mayReadScoped object.entry.id object.header.owner object.header.attributes principal
    (server.scope.allows principal object.entry.id scopeRead) = true

structure Mutable (server : Server) (principal : ℕ) (object : StoredObject) : Prop where
  resolved : Resolved server.store object
  allowed : mayMutateScoped server.clusterctl object.entry.id object.header.owner principal
    (server.scope.allows principal object.entry.id scopeWrite) = true

/-- The request works only on the object it names, and only with the rights that cover the
object's own id. -/
structure Faithful (server : Server) (message : Message) : Prop where
  /-- Content and length of an object are told only to those who may read it. -/
  read : message.opcode = .read ∨ message.opcode = .info →
    (∃ error ∈ [errNotFound, errIoError, errDenied], (server.handle message).1 = .scalar error) ∨
    ∃ object, server.Readable message.principal object ∧ object.entry.id = message.id ∧
      (server.handle message).1 =
        if message.opcode = .read then
          readAndReply server.store object message.faults message.allocated
        else .scalar object.header.dataLen
  silent : message.opcode ≠ .read → ∀ bytes, (server.handle message).1 ≠ .data bytes
  change : ∀ index entry, server.store.Live index entry →
    Untouched server.store (server.handle message).2.store index entry ∨
    (entry.id = message.id ∧ (message.opcode = .delete ∨ message.opcode = .write) ∧
      ∃ header, server.Mutable message.principal ⟨index, entry, header⟩) ∨
    (entry.id = scopeObjectId ∧ message.opcode = .applyScope ∧
      reservedMutator server.clusterctl message.principal = true)

/-! ### The scope object -/

theorem scopeObjectId_ne_zero : scopeObjectId ≠ 0 := by decide

variable {s : Store}

theorem ensureScopeObject_spec (hs : s.Allocated) (h : s.Identified) (principal : ℕ) (faults : Faults) :
    (ensureScopeObject s principal faults).2.Identified ∧ ∀ index entry, s.Live index entry →
      Untouched s (ensureScopeObject s principal faults).2 index entry := by
  have hfind := same_findIndex s scopeObjectId
  have hidn := identified_findIndex h scopeObjectId_ne_zero
  unfold ensureScopeObject
  rcases hres : s.findIndex scopeObjectId with ⟨_ | _, s'⟩ <;> rw [hres] at hfind hidn
  · have hs' := hs.same hfind
    obtain ⟨hcrea, -⟩ := create_spec hs' hidn (some scopeObjectId) principal 0 faults
    have hunt : ∀ index entry, s.Live index entry →
        Untouched s (s'.create (some scopeObjectId) principal 0 faults).2 index entry := by
      intro index entry hlive
      have hlive' : s'.Live index entry := ⟨hfind.directory ▸ hlive.1, hlive.2⟩
      exact (Untouched.same hfind hlive).trans (untouched_create hs' hidn _ _ _ _ hlive')
    simp only
    cases hcr : s'.create (some scopeObjectId) principal 0 faults with
    | mk result =>
      rw [hcr] at hcrea hunt
      cases result with
      | ok | error => exact ⟨hcrea, hunt⟩
  · exact ⟨hidn, fun _ _ hlive => .same hfind hlive⟩

variable {message : Message}

theorem installScope_spec (hs : s.Allocated) (h : s.Identified) (bytes : Bytes)
    (hfst : message.faults.flushDirectory = true) :
    (installScope s bytes message.principal message).2.Identified ∧
      ∀ index entry, s.Live index entry → entry.id ≠ scopeObjectId →
        Untouched s (installScope s bytes message.principal message).2 index entry := by
  have hallo := allocated_ensureScopeObject hs message.principal_lt hfst
  obtain ⟨hens, hunt⟩ := ensureScopeObject_spec hs h message.principal message.faults
  unfold installScope
  split
  · exact ⟨h, fun _ _ hlive _ => .refl hlive⟩
  rcases hres : ensureScopeObject s message.principal message.faults with
    ⟨_ | _, s'⟩ <;> rw [hres] at hallo hens hunt
  · exact ⟨hens, fun index entry hlive _ => hunt index entry hlive⟩
  · simp only
    split
    · exact ⟨hens, fun index entry hlive _ => hunt index entry hlive⟩
    set s₁ : Store := { s' with
      pendingSizes := s'.pendingSizes.insert scopeObjectId bytes.length }
    have hsame₁ : SameBlocks s' s₁ := ⟨rfl, rfl, rfl, rfl, rfl, rfl⟩
    have hidn₁ : s₁.Identified := hens.of_eq rfl rfl
    have hca := identified_resolve hidn₁ scopeObjectId_ne_zero message.faultsThen
    obtain ⟨result, s₂, hrsv, hsame₂, hobj⟩ := resolve_cases s₁ scopeObjectId message.faultsThen
    rw [hrsv] at hca ⊢
    have hsame := hsame₁.trans hsame₂
    have hlive₂ : ∀ index entry, s.Live index entry → s₂.Live index entry ∧
        Untouched s s₂ index entry := by
      intro index entry hlive
      have hkept := hunt index entry hlive
      have hlive' : s'.Live index entry := ⟨hkept.1, hlive.2⟩
      have hkept₂ := hkept.trans (Untouched.same hsame hlive')
      exact ⟨⟨hkept₂.1, hlive.2⟩, hkept₂⟩
    cases result with
    | error => exact ⟨hca, fun index entry hlive _ => (hlive₂ index entry hlive).2⟩
    | ok object =>
      obtain ⟨hid, -⟩ := hidn₁.resolve_id (congrArg Prod.fst hrsv)
      have hs₂ := hallo.same hsame
      refine ⟨identified_write hs₂ hca (hobj rfl) _ _, fun index entry hlive hne => ?_⟩
      obtain ⟨hlive', hkept⟩ := hlive₂ index entry hlive
      obtain ⟨hcon, -⟩ := rewrites_write hs₂.geometry object _ message.faultsThen
      have hoth := (hobj rfl).index_ne hlive' (fun heq => hne (heq.trans hid))
      exact hkept.trans (hcon.untouched hs₂ hlive' hoth)

variable {server : Server} (hs : server.store.Allocated)
include hs

variable (h : server.store.Identified)
include h

theorem applyScope_spec
    (hfst : message.faults.flushDirectory = true) : (server.applyScope message).2.store.Identified ∧
      ∀ index entry, server.store.Live index entry →
        Untouched server.store (server.applyScope message).2.store index entry ∨
          (entry.id = scopeObjectId ∧ reservedMutator server.clusterctl message.principal = true) := by
  have hkept : ∀ index entry, server.store.Live index entry →
      Untouched server.store server.store index entry ∨
        (entry.id = scopeObjectId ∧ reservedMutator server.clusterctl message.principal = true) :=
    fun _ _ hlive => .inl (.refl hlive)
  unfold applyScope
  split
  · exact ⟨h, hkept⟩
  rename_i hmuta
  split
  · exact ⟨h, hkept⟩
  split
  · exact ⟨h, hkept⟩
  split
  · exact ⟨h, hkept⟩
  rename_i table _
  obtain ⟨hidn, hunt⟩ := installScope_spec hs h table.encode hfst
  refine ⟨hidn, fun index entry hlive => ?_⟩
  by_cases hid : entry.id = scopeObjectId
  · refine .inr ⟨hid, ?_⟩
    simpa using hmuta
  · exact .inl (hunt index entry hlive hid)

/-! ### One request -/

variable {object : StoredObject}

theorem identified_handleObject (hnms : message.NamesObject) (hobj : Resolved server.store object) :
    (server.handleObject message object).2.store.Identified := by
  unfold handleObject
  simp only
  split
  · rename_i hop
    split
    · exact identified_delete hs h hobj (hnms.2 hop)
    · exact h
  · split
    · unfold setSize
      split
      · exact h
      · split
        · exact h
        · exact h.of_eq rfl rfl
    · exact h
  · split
    · split
      · exact h
      · exact identified_write hs h hobj _ _
    · exact h
  · exact h
  · exact h

theorem identified_handle (hfls : message.EntryFlushed)
    (hnms : message.NamesObject) : (server.handle message).2.store.Identified := by
  have hcr := fun requested attributes =>
    (create_spec hs h requested message.principal attributes message.faults).1
  unfold handle
  split
  · rename_i hreso
    have hca := identified_resolve h (hnms.1 hreso) message.faults
    obtain ⟨result, store, hrsv, hsame, hobj⟩ := resolve_cases server.store message.id message.faults
    rw [hrsv] at hca ⊢
    cases result with
    | error => exact hca
    | ok =>
      have hs' : { server with store }.store.Allocated := hs.same hsame
      exact identified_handleObject hs' hca hnms (hobj rfl)
  · simp only
    split
    · exact hcr none 0
    · split
      · exact hcr (some message.id) 0
      · exact h
    · split
      · exact hcr (some message.id) attrSharedRead
      · exact h
    · rename_i hop
      unfold Message.EntryFlushed at hfls
      rw [hop] at hfls
      exact (applyScope_spec hs h hfls.1).1
    · exact h
    · obtain ⟨hca, hdir⟩ := flush_same server.store message.flushed
      exact h.of_eq hca hdir
    · exact h

variable {index : ℕ} {entry : DirectoryEntry}

omit h in
/-- What a request does to the object that was looked up for it. -/
theorem change_handleObject (hnms : message.NamesObject)
    (hobj : Resolved server.store object) (hid : object.entry.id = message.id)
    (hlive : server.store.Live index entry) :
    Untouched server.store (server.handleObject message object).2.store index entry ∨
      (entry.id = message.id ∧ (message.opcode = .delete ∨ message.opcode = .write) ∧
        ∃ header, server.Mutable message.principal ⟨index, entry, header⟩) := by
  have hkept : Untouched server.store server.store index entry := .refl hlive
  -- An entry at the index of the object is the object's own.
  have hown : index = object.index → entry = object.entry := by
    rintro rfl
    exact some.inj (hlive.1.symm.trans hobj.live.1)
  have hmuta : index = object.index →
      mayMutateScoped server.clusterctl message.id object.header.owner message.principal
        (server.scope.allows message.principal message.id scopeWrite) = true →
      entry.id = message.id ∧ ∃ header, server.Mutable message.principal ⟨index, entry, header⟩ := by
    intro hidx hald
    obtain rfl := hown hidx
    subst hidx
    refine ⟨hid, object.header, hobj, ?_⟩
    rw [← hid] at hald
    exact hald
  unfold handleObject
  simp only
  split
  · rename_i hop
    split
    · rename_i hald
      by_cases hidx : index = object.index
      · obtain ⟨hent, hhdr⟩ := hmuta hidx hald
        exact .inr ⟨hent, .inl hop, hhdr⟩
      · obtain ⟨hcon, -⟩ := delete_spec hs.geometry object (hnms.2 hop)
        exact .inl (hcon.untouched hs hlive hidx)
    · exact .inl hkept
  · split
    · unfold setSize
      split
      · exact .inl hkept
      · split
        · exact .inl hkept
        · exact .inl hkept
    · exact .inl hkept
  · rename_i hop
    split
    · rename_i hald
      split
      · exact .inl hkept
      by_cases hidx : index = object.index
      · obtain ⟨hent, hhdr⟩ := hmuta hidx hald
        exact .inr ⟨hent, .inr hop, hhdr⟩
      · rename_i memory _
        obtain ⟨hcon, -⟩ := rewrites_write hs.geometry object (some memory) message.faults
        exact .inl (hcon.untouched hs hlive hidx)
    · exact .inl hkept
  · exact .inl hkept
  · exact .inl hkept

omit h

omit hs

theorem resolve_error {id : ℕ} {faults : Faults} {error : ℤ}
    (h : (s.resolve id faults).1 = .error error) : error ∈ [errNotFound, errIoError] := by
  unfold resolve at h
  rcases hres : s.findIndex id with ⟨_ | _, _⟩ <;> rw [hres] at h
  · cases h
    exact mem_cons_self
  · simp only at h
    split at h
    · cases h
      exact mem_cons_of_mem _ mem_cons_self
    · split at h
      · cases h
        exact mem_cons_of_mem _ mem_cons_self
      · cases h

theorem readAndReply_same {s' : Store} (h : SameBlocks s s') (object : StoredObject)
    (faults : Faults) (allocated : Bool) :
    readAndReply s' object faults allocated = readAndReply s object faults allocated := by
  unfold readAndReply
  rw [h.blockSize, h.device]

theorem silent_handle (hop : message.opcode ≠ .read)
    (bytes : Bytes) : (server.handle message).1 ≠ .data bytes := by
  unfold handle
  split
  · split
    · exact nofun
    unfold handleObject
    simp only
    split
    · split <;> exact nofun
    · split <;> exact nofun
    · split
      · split <;> exact nofun
      · exact nofun
    · rename_i hread
      exact absurd hread hop
    · exact nofun
  · simp only
    split
    · exact nofun
    · split <;> exact nofun
    · split <;> exact nofun
    · exact nofun
    · exact nofun
    · exact nofun
    · exact nofun

theorem faithful_handle (hs : server.store.Allocated) (h : server.store.Identified)
    (hfls : message.EntryFlushed) (hnms : message.NamesObject) : server.Faithful message where
  read hop := by
    have hreso : message.resolves = true := by
      unfold Message.resolves
      rcases hop with hop | hop <;> rw [hop]
    unfold handle
    rw [if_pos hreso]
    obtain ⟨result, _, hrsv, hsame, hobj⟩ := resolve_cases server.store message.id message.faults
    rw [hrsv]
    cases result with
    | error error =>
      have herror := resolve_error (congrArg Prod.fst hrsv)
      exact .inl ⟨error, mem_append_left [errDenied] herror, rfl⟩
    | ok object =>
      obtain ⟨hid, -⟩ := h.resolve_id (congrArg Prod.fst hrsv)
      simp only
      by_cases hald : mayReadScoped message.id object.header.owner object.header.attributes
          message.principal (server.scope.allows message.principal message.id scopeRead) = true
      · refine .inr ⟨object, ⟨(hobj rfl).same hsame.symm, hid ▸ hald⟩, hid, ?_⟩
        rcases hop with hop | hop
        · simp [handleObject, hop, hald, readAndReply_same hsame]
        · simp [handleObject, hop, hald]
      · refine .inl ⟨errDenied, by decide, ?_⟩
        rcases hop with hop | hop <;> simp [handleObject, hop, hald]
  silent := silent_handle
  change index entry hlive := by
    have hkept : Untouched server.store server.store index entry := .refl hlive
    have hcr := fun requested attributes =>
      untouched_create hs h requested message.principal attributes message.faults hlive
    unfold handle
    split
    · obtain ⟨result, store, hrsv, hsame, hobj⟩ := resolve_cases server.store message.id message.faults
      rw [hrsv]
      cases result with
      | error => exact .inl (.same hsame hlive)
      | ok =>
        obtain ⟨hid, -⟩ := h.resolve_id (congrArg Prod.fst hrsv)
        have hs' : { server with store }.store.Allocated := hs.same hsame
        have hlive' : store.Live index entry := ⟨hsame.directory ▸ hlive.1, hlive.2⟩
        rcases change_handleObject hs' hnms (hobj rfl) hid hlive' with
          hunt | ⟨hent, hop, header, hmuta⟩
        · exact .inl ((Untouched.same hsame hlive).trans hunt)
        · have hback : SameBlocks store server.store := hsame.symm
          exact .inr (.inl ⟨hent, hop, header, hmuta.resolved.same hback, hmuta.allowed⟩)
    · simp only
      split
      · exact .inl (hcr none 0)
      · split
        · exact .inl (hcr (some message.id) 0)
        · exact .inl hkept
      · split
        · exact .inl (hcr (some message.id) attrSharedRead)
        · exact .inl hkept
      · rename_i hop
        unfold Message.EntryFlushed at hfls
        rw [hop] at hfls
        rcases (applyScope_spec hs h hfls.1).2 index entry hlive with hunt | ⟨hid, hmutator⟩
        · exact .inl hunt
        · exact .inr (.inr ⟨hid, hop, hmutator⟩)
      · exact .inl hkept
      · obtain ⟨_, hfl, hread⟩ := flush_eq server.store message.flushed
        rw [hfl]
        exact .inl ⟨hlive.1, fun block _ => hread _ block⟩
      · exact .inl hkept

/-! ### Runs -/

theorem run_identified (hs : server.store.Allocated) (h : server.store.Identified)
    {messages : List Message}
    (hmsgs : ∀ message ∈ messages, message.EntryFlushed ∧ message.NamesObject) :
    (server.run messages).store.Allocated ∧ (server.run messages).store.Identified := by
  induction messages generalizing server with
  | nil => exact ⟨hs, h⟩
  | cons message messages ih =>
    obtain ⟨hfls, hnms⟩ := hmsgs message mem_cons_self
    exact ih (allocated_handle hs hfls) (identified_handle hs h hfls hnms)
      fun other hoth => hmsgs other (mem_cons_of_mem _ hoth)

/-- In every run in which no request looks up the id of a free slot and the flush after a
directory write does not fail, what is resolved carries the id that was asked for, and each
request works on the object it names only. -/
theorem requests_keep_identity {blockSize totalBlocks : ℕ}
    (hformat : format blockSize totalBlocks = some s) (clusterctl : ℕ) (scope : ScopeTable)
    (messages : List Message)
    (hmessages : ∀ message ∈ messages, message.EntryFlushed ∧ message.NamesObject) (count : ℕ) :
    (∀ id faults object,
      (((⟨clusterctl, s, scope⟩ : Server).run (messages.take count)).store.resolve id faults).1 =
        .ok object → object.entry.id = id ∧ object.header.id = id) ∧
    ∀ message, messages[count]? = some message →
      Faithful ((⟨clusterctl, s, scope⟩ : Server).run (messages.take count)) message := by
  have hsta : (⟨clusterctl, s, scope⟩ : Server).store.Allocated := allocated_format hformat
  obtain ⟨hs, h⟩ := run_identified hsta (Identified.start hformat) fun message hmsg =>
    hmessages message (mem_of_mem_take hmsg)
  refine ⟨fun id faults object hrsv => h.resolve_id hrsv, fun message hmsg => ?_⟩
  obtain ⟨hfls, hnms⟩ := hmessages message (mem_of_getElem? hmsg)
  exact faithful_handle hs h hfls hnms

theorem requests_keep_identity_created : ∃ s, format 512 16 = some s ∧
      Faithful ((⟨2, s, []⟩ : Server).run [request .create 0 7 .none]) (request .read 1 7 .none) := by
  have hsome : (format 512 16).isSome = true := by decide
  obtain ⟨s, hfmt⟩ := isSome_iff_exists.mp hsome
  refine ⟨s, hfmt, ?_⟩
  refine (requests_keep_identity hfmt 2 []
    [request .create 0 7 .none, request .read 1 7 .none] ?_ 1).2 _ rfl
  rw [forall_mem_cons, forall_mem_singleton]
  exact ⟨⟨⟨rfl, rfl⟩, by decide, by decide⟩, trivial, by decide, by decide⟩

/-- A look-up of id 0 finds a free slot and keeps it in the cache; the object that is then
created there is found under id 0. -/
theorem object_resolved_under_zero : ∃ s, format 512 16 = some s ∧ ((((⟨2, s, []⟩ : Server).run
        [request .read 0 7 .none, request .create 0 7 .none]).store.resolve 0 .none).1.toOption.map
          fun object => object.entry.id) = some 1 := by
  refine ⟨_, rfl, ?_⟩
  decide +kernel

/-! ### Histories of an object -/

/-- The request may change the object: it names the object and its sender may change that, or it
replaces the table of scopes and its sender administers the cluster. -/
def Authorised (server : Server) (message : Message) (index : ℕ) (entry : DirectoryEntry) : Prop :=
  (entry.id = message.id ∧ (message.opcode = .delete ∨ message.opcode = .write) ∧
      ∃ header, server.Mutable message.principal ⟨index, entry, header⟩) ∨
    (entry.id = scopeObjectId ∧ message.opcode = .applyScope ∧
      reservedMutator server.clusterctl message.principal = true)

/-- An object of a store that was formatted, with the requests before and after one looks at it. -/
structure ObjectHistory where
  server : Server
  formatted : ∃ blockSize totalBlocks, format blockSize totalBlocks = some server.store
  earlier : List Message
  later : List Message
  accepted : ∀ message ∈ earlier ++ later, message.EntryFlushed ∧ message.NamesObject
  index : ℕ
  entry : DirectoryEntry
  live : (server.run earlier).store.Live index entry

/-- An object keeps its entry and all of its blocks until a request comes that may change it. -/
theorem ObjectHistory.changes_are_authorised (o : ObjectHistory) :
    Untouched (o.server.run o.earlier).store (o.server.run (o.earlier ++ o.later)).store o.index
      o.entry ∨ ∃ before message after, o.later = before ++ message :: after ∧
        (o.server.run (o.earlier ++ before)).Authorised message o.index o.entry := by
  obtain ⟨server, ⟨_, _, hformat⟩, earlier, later, hacc, index, entry, hlive⟩ := o
  induction later using reverseRecOn with
  | nil =>
    simp only [append_nil]
    exact .inl (.refl hlive)
  | append_singleton later message ih =>
    rw [← append_assoc, forall_mem_append, forall_mem_singleton] at hacc
    obtain ⟨hacc, hfls, hnms⟩ := hacc
    rcases ih hacc with hkept | ⟨before, other, after, rfl, hauth⟩
    · obtain ⟨hs, h⟩ := run_identified (allocated_format hformat) (Identified.start hformat) hacc
      have hstep := (faithful_handle hs h hfls hnms).change index entry ⟨hkept.1, hlive.2⟩
      rcases hstep with hstep | hauth
      · refine .inl (hkept.trans ?_)
        rw [← append_assoc]
        simpa only [run, foldl_append, foldl_cons, foldl_nil] using hstep
      · exact .inr ⟨later, message, [], rfl, hauth⟩
    · exact .inr ⟨before, other, after ++ [message], by simp, hauth⟩

/-- An object that was created, read by somebody else. -/
def createdObject : ObjectHistory where
  server := ⟨2, (format 512 16).get (by decide), []⟩
  formatted := ⟨512, 16, by rw [some_get]⟩
  earlier := [request .create 0 7 .none]
  later := [request .read 1 8 .none]
  accepted := by
    rw [cons_append, nil_append, forall_mem_cons, forall_mem_singleton]
    exact ⟨⟨⟨rfl, rfl⟩, by decide, by decide⟩, trivial, by decide, by decide⟩
  index := 0
  entry := ⟨1, flagAllocated, 1, 5, 1⟩
  live := ⟨by decide +kernel, one_ne_zero⟩

end Server

end Charlotte.ObjStore
