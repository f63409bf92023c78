import Charlotte.Placement.Resolver

/-!
# The capacity filter

`operations_admission.rs`: the controller places on a low-pass image of what a node reports
and drops reports that are not newer than the last one. Each accepted report closes a quarter
of the distance, rounded up, so that a steady node is seen as it is after finitely many.
-/

namespace Charlotte.Placement

open List Launch
open Set (uIcc mem_uIcc)

def cpuLoadUnknown : ℕ := 2 ^ 16 - 1

/-- A capacity as a node reports it; the load is a `u16`, the frame counts are `u64`. -/
structure CapacitySample where
  target : Option ExecutionTarget
  freeFrames : ℕ
  usableFrames : ℕ
  committedFrames : ℕ
  cpuLoadPermille : ℕ
  free_lt : freeFrames < 2 ^ 64
  load_lt : cpuLoadPermille < 2 ^ 16

def lowPassU64 (previous observed : ℕ) : ℕ :=
  -- a quarter rounded up: `div_ceil(4)`
  if previous ≤ observed then saturatingAdd previous ((observed - previous + 3) / 4)
  else previous - (previous - observed + 3) / 4

def lowPassCpu (previous observed : ℕ) : ℕ :=
  if previous = cpuLoadUnknown ∨ observed = cpuLoadUnknown then observed
  else lowPassU64 previous observed % 2 ^ 16

def gap (a b : ℕ) : ℕ := a - b + (b - a)

/-- A step stays on the way and leaves three quarters of it at most. -/
theorem lowPassU64_moves (previous : ℕ) {observed : ℕ} (h : observed < 2 ^ 64) :
    lowPassU64 previous observed ∈ uIcc previous observed ∧
      4 * gap (lowPassU64 previous observed) observed ≤ 3 * gap previous observed := by
  rw [mem_uIcc, lowPassU64, saturatingAdd, gap, gap]
  split <;> omega

theorem lowPassCpu_moves {previous observed : ℕ} (hp : previous < 2 ^ 16) (ho : observed < 2 ^ 16) :
    lowPassCpu previous observed ∈ uIcc previous observed ∧
      4 * gap (lowPassCpu previous observed) observed ≤ 3 * gap previous observed := by
  rw [lowPassCpu]
  split
  · simp [gap]
  · have hmoves := lowPassU64_moves previous (ho.trans (by decide))
    have hlt : lowPassU64 previous observed < 2 ^ 16 := by
      rw [mem_uIcc] at hmoves
      omega
    rwa [Nat.mod_eq_of_lt hlt]

namespace CapacitySample

variable (filtered sample : CapacitySample)

/-- The next image of a node that was seen before; only the catalog commits frames. -/
def blend : CapacitySample :=
  { filtered with
    freeFrames := lowPassU64 filtered.freeFrames sample.freeFrames
    cpuLoadPermille := lowPassCpu filtered.cpuLoadPermille sample.cpuLoadPermille
    committedFrames := 0
    free_lt := by
      have hmem := mem_uIcc.mp (lowPassU64_moves filtered.freeFrames sample.free_lt).1
      have := filtered.free_lt
      have := sample.free_lt
      omega
    load_lt := by
      rw [lowPassCpu]
      split
      · exact sample.load_lt
      · exact Nat.mod_lt _ (by decide) }

/-- The image `next` lies between the one before and the sample. -/
def Between (next : CapacitySample) : Prop :=
  next.freeFrames ∈ uIcc filtered.freeFrames sample.freeFrames ∧
    next.cpuLoadPermille ∈ uIcc filtered.cpuLoadPermille sample.cpuLoadPermille

def distance : ℕ :=
  gap filtered.freeFrames sample.freeFrames + gap filtered.cpuLoadPermille sample.cpuLoadPermille

theorem blend_moves : filtered.Between sample (filtered.blend sample) ∧
    4 * (filtered.blend sample).distance sample ≤ 3 * filtered.distance sample := by
  have hfree := lowPassU64_moves filtered.freeFrames sample.free_lt
  have hload := lowPassCpu_moves filtered.load_lt sample.load_lt
  refine ⟨⟨hfree.1, hload.1⟩, ?_⟩
  rw [distance, distance, mul_add, mul_add]
  exact add_le_add hfree.2 hload.2

theorem distance_lt : filtered.distance sample < 2 ^ 65 := by
  have := filtered.free_lt
  have := filtered.load_lt
  have := sample.free_lt
  have := sample.load_lt
  rw [distance, gap, gap]
  omega

end CapacitySample

structure CapacityFilter where
  bootNonce : ℕ
  epoch : ℕ
  filtered : CapacitySample

namespace CapacityFilter

open CapacitySample

variable (filter : CapacityFilter) (nonce epoch : ℕ) (sample : CapacitySample)

def observe : Option CapacitySample × CapacityFilter :=
  if nonce = 0 ∨ epoch = 0 then (none, filter)
  else if nonce = filter.bootNonce ∧
      (epoch ≤ filter.epoch ∨ sample.target ≠ filter.filtered.target) then (none, filter)
  else if nonce ≠ filter.bootNonce ∨ sample.usableFrames ≠ filter.filtered.usableFrames then
    (some sample, ⟨nonce, epoch, sample⟩)
  else
    let filtered := filter.filtered.blend sample
    (some filtered, { filter with epoch, filtered })

def Rejects : Prop :=
  nonce = 0 ∨ epoch = 0 ∨
    nonce = filter.bootNonce ∧ (epoch ≤ filter.epoch ∨ sample.target ≠ filter.filtered.target)

/-- The same sample under one epoch after the other. -/
def repeated (epochs : List ℕ) : CapacityFilter :=
  epochs.foldl (fun filter epoch => (filter.observe nonce epoch sample).2) filter

variable {filter nonce epoch sample}

theorem observe_of_rejects (h : filter.Rejects nonce epoch sample) :
    filter.observe nonce epoch sample = (none, filter) := by
  rw [observe]
  rcases h with h | h | h
  · exact if_pos (.inl h)
  · exact if_pos (.inr h)
  · rw [if_pos h, ite_self]

/-- An accepted report starts anew from the sample or blends it in. -/
theorem observe_of_accepts (h : ¬ filter.Rejects nonce epoch sample) :
    ∃ next, filter.observe nonce epoch sample = (some next, ⟨nonce, epoch, next⟩) ∧
      filter.filtered.Between sample next ∧ next.target = sample.target ∧
      4 * next.distance sample ≤ 3 * filter.filtered.distance sample := by
  rw [Rejects, ← or_assoc, not_or] at h
  rw [observe, if_neg h.1, if_neg h.2]
  split
  · exact ⟨sample, rfl, by simp [Between], rfl, by simp [distance, gap]⟩
  · rename_i hsame
    rw [not_or, not_ne_iff] at hsame
    obtain ⟨rfl, -⟩ := hsame
    have hmoves := filter.filtered.blend_moves sample
    refine ⟨_, rfl, hmoves.1, ?_, hmoves.2⟩
    by_contra hne
    exact h.2 ⟨rfl, .inr (Ne.symm hne)⟩

theorem distance_repeated {epochs : List ℕ} (he : epochs.Pairwise (· < ·))
    (h : ∀ epoch ∈ epochs, ¬ filter.Rejects nonce epoch sample) :
    4 ^ epochs.length * (filter.repeated nonce sample epochs).filtered.distance sample ≤
      3 ^ epochs.length * filter.filtered.distance sample := by
  induction epochs generalizing filter with
  | nil => exact le_rfl
  | cons epoch rest ih =>
    rw [pairwise_cons] at he
    rw [forall_mem_cons] at h
    obtain ⟨next, heq, -, htarget, hnext⟩ := observe_of_accepts h.1
    have hrest : ∀ later ∈ rest, ¬ Rejects ⟨nonce, epoch, next⟩ nonce later sample := by
      have := he.1
      grind [Rejects]
    rw [repeated, foldl_cons, heq, length_cons, pow_succ', pow_succ']
    have := ih he.2 hrest
    simp only [repeated] at this
    calc
      _ ≤ 4 * (3 ^ rest.length * next.distance sample) := by rw [mul_assoc]; gcongr
      _ = 3 ^ rest.length * (4 * next.distance sample) := by ring
      _ ≤ 3 ^ rest.length * (3 * filter.filtered.distance sample) := by gcongr
      _ = _ := by ring

/-- A rejected report changes nothing, an accepted one moves the image towards the sample, and a
sample that is repeated with rising epochs is reached within 157 reports, and never passed. -/
theorem capacityFilter_settles (filter : CapacityFilter) (nonce : ℕ) (sample : CapacitySample) :
    (∀ epoch, filter.Rejects nonce epoch sample →
      filter.observe nonce epoch sample = (none, filter)) ∧
    (∀ epoch, ¬ filter.Rejects nonce epoch sample → ∃ next, filter.observe nonce epoch sample =
      (some next, ⟨nonce, epoch, next⟩) ∧ filter.filtered.Between sample next) ∧
    (∀ epochs epoch, (filter.repeated nonce sample epochs).filtered.Between sample
      (filter.repeated nonce sample (epochs ++ [epoch])).filtered) ∧
    (∀ epochs : List ℕ, epochs.Pairwise (· < ·) →
      (∀ epoch ∈ epochs, ¬ filter.Rejects nonce epoch sample) → 157 ≤ epochs.length →
        let settled := (filter.repeated nonce sample epochs).filtered
        settled.freeFrames = sample.freeFrames ∧
          settled.cpuLoadPermille = sample.cpuLoadPermille) := by
  refine ⟨fun _ => observe_of_rejects, ?_, ?_, ?_⟩
  · intro epoch h
    obtain ⟨next, heq, hnext, -⟩ := observe_of_accepts h
    exact ⟨next, heq, hnext⟩
  · intro epochs epoch
    rw [repeated, repeated, foldl_append]
    generalize epochs.foldl _ filter = before
    by_cases h : before.Rejects nonce epoch sample
    · simp [observe_of_rejects h, Between]
    · obtain ⟨next, heq, hnext, -⟩ := observe_of_accepts h
      simpa [heq] using hnext
  · intro epochs he h hlen
    have hle := distance_repeated he h
    have hzero : (filter.repeated nonce sample epochs).filtered.distance sample = 0 := by
      by_contra hne
      obtain ⟨more, hmore⟩ := Nat.exists_eq_add_of_le hlen
      have hlt : 3 ^ epochs.length * filter.filtered.distance sample < 4 ^ epochs.length := by
        rw [hmore, pow_add, pow_add]
        calc
          _ < 3 ^ 157 * 3 ^ more * 2 ^ 65 := by gcongr; exact distance_lt _ _
          _ = 3 ^ 157 * 2 ^ 65 * 3 ^ more := by ring
          _ ≤ 4 ^ 157 * 4 ^ more := Nat.mul_le_mul (by norm_num) (by gcongr; decide)
      have := Nat.le_mul_of_pos_right (4 ^ epochs.length) (Nat.pos_of_ne_zero hne)
      omega
    rw [distance, gap, gap] at hzero
    constructor <;> omega

end CapacityFilter

end Charlotte.Placement
