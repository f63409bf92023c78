import Mathlib

/-!
# Little-endian byte records

Numbers of a fixed width, byte strings behind a length, and sequences of
records, read from the front of a byte list. A reader returns the bytes it has
not consumed, and `none` where the bytes end too early.
-/

namespace Charlotte.Lib

open List Option

/-- Stop reading where a check fails. -/
def reject (condition : Bool) : Option Unit := if condition then none else some ()

@[simp] theorem reject_eq_some {condition : Bool} {u : Unit} :
    reject condition = some u ↔ condition = false := by
  cases condition <;> simp [reject]

theorem read_bind_some {α β : Type} {value : Option α} {f : α → Option β} {b : β} :
    value >>= f = some b ↔ ∃ a, value = some a ∧ f a = some b :=
  Option.bind_eq_some_iff

/-- The number that little-endian bytes stand for. -/
def leValue : List UInt8 → ℕ
  | [] => 0
  | byte :: rest => byte.toNat + 256 * leValue rest

/-- The `width` little-endian bytes of a number. -/
def leBytes : ℕ → ℕ → List UInt8
  | 0, _ => []
  | width + 1, value => UInt8.ofNat (value % 256) :: leBytes width (value / 256)

@[simp] theorem length_leBytes (width value : ℕ) : (leBytes width value).length = width := by
  induction width generalizing value with
  | zero => rfl
  | succ width ih => simp [leBytes, ih]

theorem leValue_leBytes {width value : ℕ} (h : value < 256 ^ width) :
    leValue (leBytes width value) = value := by
  induction width generalizing value with
  | zero =>
    rw [pow_zero, Nat.lt_one_iff] at h
    subst h
    rfl
  | succ width ih =>
    have hhigh : value / 256 < 256 ^ width := by
      rw [pow_succ, Nat.mul_comm] at h
      exact Nat.div_lt_of_lt_mul h
    have hbyte : (UInt8.ofNat (value % 256)).toNat = value % 256 :=
      UInt8.toNat_ofNat_of_lt' (Nat.mod_lt _ (by decide))
    rw [leBytes, leValue, ih hhigh, hbyte]
    exact Nat.mod_add_div value 256

variable (bytes : List UInt8)

theorem leBytes_leValue : leBytes bytes.length (leValue bytes) = bytes := by
  induction bytes with
  | nil => rfl
  | cons byte rest ih =>
    have hbyte := byte.toNat_lt
    have hmod : (byte.toNat + 256 * leValue rest) % 256 = byte.toNat := by omega
    have hdiv : (byte.toNat + 256 * leValue rest) / 256 = leValue rest := by omega
    rw [length_cons, leBytes, leValue, hmod, hdiv, ih, UInt8.ofNat_toNat]

theorem leValue_lt : leValue bytes < 256 ^ bytes.length := by
  induction bytes with
  | nil => simp [leValue]
  | cons byte =>
    have hbyte := byte.toNat_lt
    rw [leValue, length_cons, pow_succ]
    omega

/-- The bytes from `start` up to `stop`. -/
def slice (start stop : ℕ) : Option (List UInt8) :=
  if start ≤ stop ∧ stop ≤ bytes.length then some ((bytes.drop start).take (stop - start))
  else none

theorem take_of_slice {bytes part : List UInt8} {stop : ℕ} (h : slice bytes 0 stop = some part) :
    bytes.take stop = part := by
  unfold slice at h
  split at h
  · exact some.inj h
  · cases h

/-- The number in the `width` bytes at `offset`. -/
def readLe (width : ℕ) (bytes : List UInt8) (offset : ℕ) : Option ℕ :=
  (slice bytes offset (offset + width)).map leValue

def takeBytes (count : ℕ) (bytes : List UInt8) : Option (List UInt8 × List UInt8) :=
  if count ≤ bytes.length then some (bytes.take count, bytes.drop count) else none

def takeLe (width : ℕ) (bytes : List UInt8) : Option (ℕ × List UInt8) :=
  (takeBytes width bytes).map fun (taken, rest) => (leValue taken, rest)

/-- A byte string behind its four-byte length. -/
def takeLenBytes : Option (List UInt8 × List UInt8) :=
  (takeLe 4 bytes).bind fun (length, rest) => takeBytes length rest

def lenBytes : List UInt8 := leBytes 4 bytes.length ++ bytes

/-- The `width` big-endian bytes of a number. -/
def beBytes (width value : ℕ) : List UInt8 := (leBytes width value).reverse

@[simp] theorem length_beBytes (width value : ℕ) : (beBytes width value).length = width := by
  rw [beBytes, length_reverse, length_leBytes]

def takeBe (width : ℕ) (bytes : List UInt8) : Option (ℕ × List UInt8) :=
  (takeBytes width bytes).map fun (taken, rest) => (leValue taken.reverse, rest)

/-- Read `count` records one after the other. -/
def takeMany {α : Type*} (read : List UInt8 → Option (α × List UInt8)) :
    ℕ → List UInt8 → Option (List α × List UInt8)
  | 0, bytes => some ([], bytes)
  | count + 1, bytes =>
    (read bytes).bind fun (first, rest) =>
      (takeMany read count rest).map fun (others, rest) => (first :: others, rest)

variable {count : ℕ} {bytes rest : List UInt8} {α : Type*} {items : List α}

variable {read : List UInt8 → Option (α × List UInt8)}

theorem length_of_takeMany
    (h : takeMany read count bytes = some (items, rest)) : items.length = count := by
  induction count generalizing bytes items with
  | zero =>
    cases h
    rfl
  | succ count ih =>
    obtain ⟨⟨_, _⟩, -, hrest⟩ := bind_eq_some_iff.mp h
    obtain ⟨⟨_, _⟩, hoths, hits⟩ := map_eq_some_iff.mp hrest
    cases hits
    exact congrArg (· + 1) (ih hoths)

/-- Records that are read back one by one are read back as a sequence. -/
theorem takeMany_append {record : α → List UInt8}
    (hread : ∀ item ∈ items, ∀ rest, read (record item ++ rest) = some (item, rest))
    (rest : List UInt8) :
    takeMany read items.length (items.flatMap record ++ rest) = some (items, rest) := by
  induction items with
  | nil => rfl
  | cons item items ih =>
    rw [flatMap_cons, append_assoc, length_cons, takeMany, hread item mem_cons_self, bind_some]
    simp only
    rw [ih fun other hoth => hread other (mem_cons_of_mem item hoth)]
    rfl

section

variable {count width : ℕ} {bytes taken rest : List UInt8}

theorem takeBytes_append (taken rest : List UInt8) :
    takeBytes taken.length (taken ++ rest) = some (taken, rest) := by
  simp [takeBytes]

theorem length_of_takeBytes (h : takeBytes count bytes = some (taken, rest)) :
    taken.length = count ∧ bytes = taken ++ rest := by
  unfold takeBytes at h
  split at h
  · rename_i hle
    cases h
    exact ⟨length_take_of_le hle, (take_append_drop count bytes).symm⟩
  · exact absurd h (by simp)

variable {value offset : ℕ}

theorem takeLe_append (h : value < 256 ^ width) (rest : List UInt8) :
    takeLe width (leBytes width value ++ rest) = some (value, rest) := by
  have htake := takeBytes_append (leBytes width value) rest
  rw [length_leBytes] at htake
  simp [takeLe, htake, leValue_leBytes h]

theorem takeBe_append (h : value < 256 ^ width) (rest : List UInt8) :
    takeBe width (beBytes width value ++ rest) = some (value, rest) := by
  have htake := takeBytes_append (beBytes width value) rest
  rw [length_beBytes] at htake
  have hvl : leValue (beBytes width value).reverse = value := by
    rw [beBytes, reverse_reverse, leValue_leBytes h]
  simp only [takeBe, htake, map_some, hvl]

theorem takeLe_lt (h : takeLe width bytes = some (value, rest)) : value < 256 ^ width := by
  obtain ⟨⟨taken, _⟩, htake, hvl⟩ := map_eq_some_iff.mp h
  obtain ⟨hlen, -⟩ := length_of_takeBytes htake
  cases hvl
  exact hlen ▸ leValue_lt taken

/-- The bytes behind a number that was read. -/
theorem eq_of_takeLe (h : takeLe width bytes = some (value, rest)) :
    bytes = leBytes width value ++ rest := by
  obtain ⟨⟨_, _⟩, htake, hvl⟩ := map_eq_some_iff.mp h
  obtain ⟨rfl, hbs⟩ := length_of_takeBytes htake
  cases hvl
  rw [leBytes_leValue]
  exact hbs

/-- Reading in place is reading from the rest of the bytes. -/
theorem readLe_eq_some_iff (hwidth : 0 < width) : readLe width bytes offset = some value ↔
      takeLe width (bytes.drop offset) = some (value, bytes.drop (offset + width)) := by
  have hfits : (offset ≤ offset + width ∧ offset + width ≤ bytes.length) ↔
      width ≤ (bytes.drop offset).length := by
    rw [length_drop]
    omega
  unfold readLe slice takeLe takeBytes
  by_cases h : width ≤ (bytes.drop offset).length
  · rw [if_pos (hfits.mpr h), if_pos h]
    simp [drop_drop]
  · rw [if_neg (mt hfits.mp h), if_neg h]
    simp

theorem readLe_lt (hwidth : 0 < width) (h : readLe width bytes offset = some value) :
    value < 256 ^ width :=
  takeLe_lt ((readLe_eq_some_iff hwidth).mp h)

theorem takeBe_lt (h : takeBe width bytes = some (value, rest)) : value < 256 ^ width := by
  obtain ⟨⟨taken, _⟩, htake, hvl⟩ := map_eq_some_iff.mp h
  obtain ⟨hlen, -⟩ := length_of_takeBytes htake
  cases hvl
  have hlt := leValue_lt taken.reverse
  rw [length_reverse, hlen] at hlt
  exact hlt

end

/-- A record of numbers, each with its width. -/
def record (fields : List (ℕ × ℕ)) : List UInt8 := fields.flatMap fun field => leBytes field.1 field.2

/-- Read a record whose fields have the given widths. -/
def takeRecord : List ℕ → List UInt8 → Option (List ℕ × List UInt8)
  | [], bytes => some ([], bytes)
  | width :: widths, bytes =>
    (takeLe width bytes).bind fun (value, rest) =>
      (takeRecord widths rest).map fun (values, rest) => (value :: values, rest)

theorem length_record (fields : List (ℕ × ℕ)) : (record fields).length = (fields.map Prod.fst).sum := by
  induction fields with
  | nil => rfl
  | cons field fields ih =>
    rw [record, flatMap_cons, length_append, length_leBytes, map_cons, sum_cons]
    exact congrArg (field.1 + ·) ih

variable {fields : List (ℕ × ℕ)}

theorem takeRecord_append (h : ∀ field ∈ fields, field.2 < 256 ^ field.1) (rest : List UInt8) :
    takeRecord (fields.map Prod.fst) (record fields ++ rest) = some (fields.map Prod.snd, rest) := by
  induction fields with
  | nil => rfl
  | cons field fields ih =>
    have hrest := ih fun other hoth => h other (mem_cons_of_mem field hoth)
    rw [record, flatMap_cons, append_assoc, map_cons, takeRecord,
      takeLe_append (h field mem_cons_self), bind_some]
    simp only
    rw [← record, hrest]
    rfl

variable {widths values : List ℕ}

/-- The numbers that are read are in the range of their widths, and the record is what they are
written as. -/
theorem takeRecord_spec (h : takeRecord widths bytes = some (values, rest)) :
    List.Forall₂ (fun width value => value < 256 ^ width) widths values ∧
      bytes = record (widths.zip values) ++ rest := by
  induction widths generalizing bytes values with
  | nil =>
    cases h
    exact ⟨.nil, rfl⟩
  | cons width widths ih =>
    obtain ⟨⟨_, _⟩, hvl, htail⟩ := bind_eq_some_iff.mp h
    obtain ⟨⟨_, _⟩, hoths, hres⟩ := map_eq_some_iff.mp htail
    cases hres
    refine ⟨.cons (takeLe_lt hvl) (ih hoths).1, ?_⟩
    rw [eq_of_takeLe hvl, (ih hoths).2, ← append_assoc]
    rfl

theorem eq_record_of_takeRecord
    (h : takeRecord (fields.map Prod.fst) bytes = some (fields.map Prod.snd, rest)) :
    bytes = record fields ++ rest := by
  have hfds := @zip_of_prod _ _ _ _ fields rfl rfl
  rw [(takeRecord_spec h).2, ← hfds]

/-- Reading a record is reading its numbers in place, one after the other. -/
theorem takeRecord_drop_cons {width : ℕ} (hwidth : 0 < width) {offset value : ℕ} :
    takeRecord (width :: widths) (bytes.drop offset) = some (value :: values, rest) ↔
      readLe width bytes offset = some value ∧
        takeRecord widths (bytes.drop (offset + width)) = some (values, rest) := by
  rw [readLe_eq_some_iff hwidth, takeRecord]
  constructor
  · intro h
    obtain ⟨⟨_, middle⟩, hfst, htail⟩ := bind_eq_some_iff.mp h
    obtain ⟨⟨_, _⟩, hoths, hres⟩ := map_eq_some_iff.mp htail
    cases hres
    have hmid : middle = bytes.drop (offset + width) := by
      have hdrop := congrArg (drop width) (eq_of_takeLe hfst)
      rw [drop_drop, drop_left' (length_leBytes _ _)] at hdrop
      exact hdrop.symm
    subst hmid
    exact ⟨hfst, hoths⟩
  · rintro ⟨hfst, hoths⟩
    rw [hfst, bind_some]
    simp only
    rw [hoths]
    rfl

/-- A sequence of records that is read is what its records are written as. -/
theorem eq_of_takeMany {record : α → List UInt8}
    (hread : ∀ bytes item rest, read bytes = some (item, rest) → bytes = record item ++ rest)
    (h : takeMany read count bytes = some (items, rest)) : bytes = items.flatMap record ++ rest := by
  induction count generalizing bytes items with
  | zero =>
    cases h
    rfl
  | succ count ih =>
    obtain ⟨⟨_, _⟩, hfst, htail⟩ := bind_eq_some_iff.mp h
    obtain ⟨⟨_, _⟩, hoths, hres⟩ := map_eq_some_iff.mp htail
    cases hres
    rw [hread _ _ _ hfst, ih hoths, flatMap_cons, append_assoc]

theorem takeMany_forall {P : α → Prop}
    (hread : ∀ bytes item rest, read bytes = some (item, rest) → P item)
    (h : takeMany read count bytes = some (items, rest)) : ∀ item ∈ items, P item := by
  induction count generalizing bytes items with
  | zero =>
    cases h
    exact nofun
  | succ count ih =>
    obtain ⟨⟨_, _⟩, hfst, htail⟩ := bind_eq_some_iff.mp h
    obtain ⟨⟨_, _⟩, hoths, hres⟩ := map_eq_some_iff.mp htail
    cases hres
    exact forall_mem_cons.mpr ⟨hread _ _ _ hfst, ih hoths⟩

end Charlotte.Lib
