import Charlotte.ObjStore.Store

/-!
# Blocks: what calls of the device and the allocator do

A call of the device changes the blocks it names and no others, whether it succeeds or
not. The allocator hands out blocks that were not used.
-/

namespace Charlotte.ObjStore

open Lib List Bool

/-! ### The device -/

/-- Blocks outside `P` are as before. -/
def Touches (blockSize : ℕ) (P : ℕ → Prop) (device device' : Device) : Prop :=
  ∀ lba, ¬ P lba → device'.read blockSize lba = device.read blockSize lba

namespace Touches

variable {blockSize : ℕ} {P Q : ℕ → Prop} {d d' d'' : Device}

theorem refl (d : Device) : Touches blockSize P d d := fun _ _ => rfl

theorem trans (h : Touches blockSize P d d') (h' : Touches blockSize P d' d'') :
    Touches blockSize P d d'' :=
  fun lba hlba => (h' lba hlba).trans (h lba hlba)

theorem mono (hPQ : ∀ lba, P lba → Q lba) (h : Touches blockSize P d d') :
    Touches blockSize Q d d' := fun lba hlba => h lba fun hP => hlba (hPQ lba hP)

end Touches

/-- The blocks from `lba` on. -/
def Within (lba count block : ℕ) : Prop := lba ≤ block ∧ block < lba + count

namespace Device

theorem touches_put (blockSize : ℕ) (device : Device) (lba : ℕ) (blocks : List Bytes) :
    Touches blockSize (Within lba blocks.length) device (device.put lba blocks) := by
  induction blocks generalizing device lba with
  | nil => exact Touches.refl device
  | cons block blocks ih =>
    have htail := ih (.write lba block :: device) (lba + 1)
    intro x hx
    rw [Within, length_cons] at hx
    have hne : lba ≠ x := by
      rintro rfl
      exact hx ⟨le_rfl, by omega⟩
    rw [put, htail x (fun h => hx ⟨by unfold Within at h; omega, by unfold Within at h; omega⟩),
      read, if_neg hne]

theorem read_put_single (blockSize : ℕ) (device : Device) (lba : ℕ) (block : Bytes) :
    (device.put lba [block]).read blockSize lba = block := if_pos rfl

theorem touches_write (blockSize : ℕ) (device : Device) (verdict : Verdict) (lba : ℕ)
    (blocks : List Bytes) :
    Touches blockSize (Within lba blocks.length) device (device.write verdict lba blocks).2 := by
  cases verdict with
  | done => exact touches_put blockSize device lba blocks
  | failed left =>
    have hput := touches_put blockSize device lba (blocks.mapIdx fun i _ => left (lba + i))
    rwa [length_mapIdx] at hput

theorem touches_writeAll {blockSize : ℕ} {P : ℕ → Prop} {writes : List (ℕ × List Bytes)}
    (h : ∀ call ∈ writes, ∀ block, Within call.1 call.2.length block → P block) (device : Device)
    (verdicts : ℕ → Verdict) : Touches blockSize P device (device.writeAll writes verdicts).2 := by
  induction writes generalizing device verdicts with
  | nil => exact Touches.refl device
  | cons call writes ih =>
    obtain ⟨lba, blocks⟩ := call
    have hfst := (touches_write blockSize device (verdicts 0) lba blocks).mono
      (h (lba, blocks) mem_cons_self)
    have hrest := ih fun other hoth => h other (mem_cons_of_mem _ hoth)
    unfold writeAll
    cases hwr : device.write (verdicts 0) lba blocks with
    | mk ok device' =>
      rw [hwr] at hfst
      cases ok with
      | false => exact hfst
      | true => exact hfst.trans (hrest device' _)

end Device

/-! ### Bitmaps -/

namespace Extent

def range (extent : Extent) : List ℕ := List.range' extent.lba extent.blocks

theorem mem_range {extent : Extent} {block : ℕ} :
    block ∈ extent.range ↔ extent.lba ≤ block ∧ block < extent.lba + extent.blocks := by
  simp [range, mem_range'_1]

end Extent

/-- The blocks of several extents. -/
def extentBlocks (extents : List Extent) : List ℕ := extents.flatMap Extent.range

variable {extents : List Extent} {block : ℕ}

theorem mem_extentBlocks :
    block ∈ extentBlocks extents ↔ ∃ extent ∈ extents, block ∈ extent.range := mem_flatMap

theorem setRange_apply (bitmap : ℕ → Bool) (extent : Extent) (used : Bool) (block : ℕ) :
    setRange bitmap extent.lba extent.blocks used block =
      if block ∈ extent.range then used else bitmap block := by
  simp only [setRange, Extent.mem_range]

variable {bitmap : ℕ → Bool}

theorem rangeUsed_eq_false {start count : ℕ} :
    rangeUsed bitmap start count = false ↔ ∀ block, Within start count block → bitmap block = false := by
  unfold rangeUsed Within
  rw [any_eq_false]
  constructor
  · intro h block hblk
    have hi := h (block - start) (mem_range.mpr (by omega))
    rw [show start + (block - start) = block by omega] at hi
    exact eq_false_iff.mpr hi
  · intro h i hi
    rw [mem_range] at hi
    exact eq_false_iff.mp (h (start + i) ⟨by omega, by omega⟩)

/-! ### The allocator -/

theorem skipUsed_spec (bitmap : ℕ → Bool) (total steps block : ℕ) :
    block ≤ skipUsed bitmap total steps block := by
  induction steps generalizing block with
  | zero => exact le_rfl
  | succ steps ih =>
    unfold skipUsed
    split
    · exact Nat.le_trans (Nat.le_succ block) (ih (block + 1))
    · exact le_rfl

theorem endOfFree_spec (bitmap : ℕ → Bool) (total limit block : ℕ) :
    block ≤ endOfFree bitmap total limit block ∧ endOfFree bitmap total limit block ≤ block + limit ∧
      ∀ free, block ≤ free → free < endOfFree bitmap total limit block →
        free < total ∧ bitmap free = false := by
  induction limit generalizing block with
  | zero => exact ⟨le_rfl, le_rfl, fun free h h' => absurd h' (not_lt.mpr h)⟩
  | succ limit ih =>
    unfold endOfFree
    split
    · rename_i hfree
      obtain ⟨_, _, hrun⟩ := ih (block + 1)
      simp only [and_eq_true, decide_eq_true_eq, not_eq_true'] at hfree
      refine ⟨by omega, by omega, fun free h h' => ?_⟩
      rcases eq_or_lt_of_le h with rfl | hlt
      · exact hfree
      · exact hrun free hlt h'
    · exact ⟨le_rfl, by omega, fun free h h' => absurd h' (not_lt.mpr h)⟩

/-- What the allocator has gathered out of a bitmap. -/
structure Gathered (lo total wanted : ℕ) (bitmap : ℕ → Bool) (block : ℕ) (bitmap' : ℕ → Bool)
    (remaining : ℕ) (extents : List Extent) : Prop where
  start : lo ≤ block
  fresh : ∀ b ∈ extentBlocks extents, lo ≤ b ∧ b < block ∧ b < total ∧ bitmap b = false
  marked : ∀ b, bitmap' b = (bitmap b || decide (b ∈ extentBlocks extents))
  count : extents.length ≤ maxExtents
  positive : ∀ extent ∈ extents, extent.blocks ≠ 0
  sum : (extents.map (·.blocks)).sum + remaining = wanted
  nodup : (extentBlocks extents).Nodup

theorem Gathered.nothing (lo total wanted : ℕ) (bitmap : ℕ → Bool) :
    Gathered lo total wanted bitmap lo bitmap wanted [] where
  start := le_refl lo
  fresh _ h := nomatch h
  marked b := by simp [extentBlocks]
  count := Nat.zero_le _
  positive _ h := nomatch h
  sum := by simp
  nodup := nodup_nil

variable {lo total wanted : ℕ} {bitmap' : ℕ → Bool}

theorem Gathered.push {remaining start stop : ℕ}
    (h : Gathered lo total wanted bitmap block bitmap' remaining extents)
    (hroom : extents.length < maxExtents) (hsta : block ≤ start) (hlt : start < stop)
    (hwanted : stop - start ≤ remaining)
    (hfree : ∀ free, start ≤ free → free < stop → free < total ∧ bitmap' free = false) :
    Gathered lo total wanted bitmap stop (setRange bitmap' start (stop - start) true)
      (remaining - (stop - start)) (extents ++ [⟨start, stop - start⟩]) := by
  have hblks : extentBlocks (extents ++ [⟨start, stop - start⟩]) =
      extentBlocks extents ++ Extent.range ⟨start, stop - start⟩ := by
    simp [extentBlocks]
  have hnew : ∀ b, b ∈ Extent.range ⟨start, stop - start⟩ ↔ start ≤ b ∧ b < stop := by
    intro b
    rw [Extent.mem_range]
    simp only
    omega
  refine ⟨?_, ?_, ?_, ?_, ?_, ?_, ?_⟩
  · have := h.start
    omega
  · intro b hb
    rw [hblks, mem_append] at hb
    rcases hb with hb | hb
    · obtain ⟨hlo, _, htot, hbit⟩ := h.fresh b hb
      exact ⟨hlo, by omega, htot, hbit⟩
    · rw [hnew] at hb
      obtain ⟨htot, hbit⟩ := hfree b hb.1 hb.2
      rw [h.marked, or_eq_false_iff] at hbit
      have := h.start
      exact ⟨by omega, hb.2, htot, hbit.1⟩
  · intro b
    rw [setRange_apply bitmap' ⟨start, stop - start⟩ true, hblks]
    by_cases hb : b ∈ Extent.range ⟨start, stop - start⟩
    · simp [hb]
    · rw [if_neg hb, h.marked]
      simp [hb]
  · rw [length_append]
    exact hroom
  · exact forall_mem_append.mpr ⟨h.positive, forall_mem_singleton.mpr (Nat.sub_ne_zero_of_lt hlt)⟩
  · have hsum := h.sum
    simp only [map_append, map_cons, map_nil, sum_append, sum_cons, sum_nil]
    omega
  · rw [hblks, nodup_append]
    refine ⟨h.nodup, nodup_range', ?_⟩
    intro b hb b' hb' heq
    have := (h.fresh b hb).2.1
    rw [hnew] at hb'
    omega

theorem gathered_gather (steps : ℕ) {remaining : ℕ}
    (h : Gathered lo total wanted bitmap block bitmap' remaining extents) :
    ∃ block', Gathered lo total wanted bitmap block'
      (gather total steps block bitmap' remaining extents).1
      (gather total steps block bitmap' remaining extents).2.1
      (gather total steps block bitmap' remaining extents).2.2 := by
  induction steps generalizing block bitmap' remaining extents with
  | zero => exact ⟨block, h⟩
  | succ steps ih =>
    unfold gather
    split
    · rename_i hgo
      have hsta := skipUsed_spec bitmap' total (total - block) block
      obtain ⟨_, _, hfree⟩ := endOfFree_spec bitmap' total remaining
        (skipUsed bitmap' total (total - block) block)
      simp only
      split
      · refine ih { h with
          start := by have := h.start; omega
          fresh := fun b hb => by
            obtain ⟨hlo, _, htot, hbit⟩ := h.fresh b hb
            exact ⟨hlo, by omega, htot, hbit⟩ }
      · exact ih (h.push hgo.2.2 hsta (by omega) (by omega) hfree)
    · exact ⟨block, h⟩

/-- The bitmap with the blocks of some extents cleared. -/
theorem foldl_clear (extents : List Extent) (bitmap : ℕ → Bool) (block : ℕ) :
    extents.foldl (fun bitmap extent => setRange bitmap extent.lba extent.blocks false) bitmap block =
      (bitmap block && decide (block ∉ extentBlocks extents)) := by
  induction extents generalizing bitmap with
  | nil => simp [extentBlocks]
  | cons extent extents ih =>
    rw [foldl_cons, ih, setRange_apply]
    by_cases hblk : block ∈ extent.range
    · simp [hblk, extentBlocks]
    · simp [hblk, extentBlocks]

theorem length_extentBlocks (extents : List Extent) :
    (extentBlocks extents).length = (extents.map (·.blocks)).sum := by
  induction extents with
  | nil => rfl
  | cons extent extents ih =>
    rw [extentBlocks, flatMap_cons, length_append, map_cons, sum_cons]
    exact congrArg₂ (· + ·) length_range' ih

/-- No more blocks are gathered than there are. -/
theorem Gathered.wanted_le (h : Gathered lo total wanted bitmap block bitmap' 0 extents) :
    wanted ≤ total := by
  have hsubset : extentBlocks extents ⊆ range total := fun b hb =>
    mem_range.mpr (h.fresh b hb).2.2.1
  have hlen := (subperm_of_subset h.nodup hsubset).length_le
  rw [length_extentBlocks, length_range] at hlen
  have hsum := h.sum
  omega

end Charlotte.ObjStore
