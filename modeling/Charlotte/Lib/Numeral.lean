import Mathlib

/-!
# Positional numerals as text

Rendering of natural numbers in a base, most significant digit first, and the
parser that accepts what is rendered. Digits are the ASCII codes of `0`–`9`
and `a`–`f`; the parser also takes upper-case letters.
-/

namespace Charlotte.Lib.Numeral

open List Option

/-- Digits of `n`, most significant first; `fuel` bounds their number. -/
def digits (base : ℕ) : ℕ → ℕ → List ℕ
  | 0, _ => []
  | fuel + 1, n => if n < base then [n] else digits base fuel (n / base) ++ [n % base]

/-- The lowest `count` digits of `n`, most significant first. -/
def paddedDigits (base : ℕ) : ℕ → ℕ → List ℕ
  | 0, _ => []
  | count + 1, n => paddedDigits base count (n / base) ++ [n % base]

/-- The number a digit sequence stands for. -/
def value (base : ℕ) (ds : List ℕ) : ℕ := ds.foldl (fun acc d => acc * base + d) 0

/-- The ASCII code of a digit below sixteen. -/
def digitChar (d : ℕ) : UInt8 := if d < 10 then UInt8.ofNat (48 + d) else UInt8.ofNat (87 + d)

/-- The digit an ASCII code stands for, in either case. -/
def digitValue (c : UInt8) : Option ℕ :=
  if 48 ≤ c.toNat ∧ c.toNat ≤ 57 then some (c.toNat - 48)
  else if 97 ≤ c.toNat ∧ c.toNat ≤ 102 then some (c.toNat - 87)
  else if 65 ≤ c.toNat ∧ c.toNat ≤ 70 then some (c.toNat - 55)
  else none

/-- Rendering without padding. -/
def render (base n : ℕ) : List UInt8 := (digits base (n + 1) n).map digitChar

/-- Rendering with exactly `count` digits. -/
def renderPadded (base count n : ℕ) : List UInt8 := (paddedDigits base count n).map digitChar

/-- Parse a non-empty sequence of digits of the base. -/
def parse (base : ℕ) (text : List UInt8) : Option ℕ :=
  if text.isEmpty then none
  else (text.mapM fun c => (digitValue c).filter fun d => decide (d < base)).map (value base)

theorem value_append (base : ℕ) (ds : List ℕ) (d : ℕ) :
    value base (ds ++ [d]) = value base ds * base + d := by
  simp [value]

variable {base : ℕ}

theorem value_digits (hb : 1 < base) :
    ∀ {fuel n : ℕ}, n < fuel → value base (digits base fuel n) = n := by
  intro fuel
  induction fuel with
  | zero =>
    intro n hn
    omega
  | succ fuel ih =>
    intro n hn
    rw [digits]
    split
    · simp [value]
    · have hdiv : n / base < n := Nat.div_lt_self (by omega) hb
      rw [value_append, ih (by omega), Nat.mul_comm]
      exact Nat.div_add_mod n base

theorem value_paddedDigits (base : ℕ) :
    ∀ (count n : ℕ), value base (paddedDigits base count n) = n % base ^ count := by
  intro count
  induction count with
  | zero =>
    intro n
    simp [paddedDigits, value, Nat.mod_one]
  | succ count ih =>
    intro n
    rw [paddedDigits, value_append, ih, Nat.pow_succ', Nat.mod_mul, Nat.mul_comm base, Nat.add_comm]

theorem digits_lt (hb : 1 < base) : ∀ {fuel n d : ℕ}, d ∈ digits base fuel n → d < base := by
  intro fuel
  induction fuel with
  | zero =>
    intro n d hd
    cases hd
  | succ fuel ih =>
    intro n d hd
    rw [digits] at hd
    split at hd
    · rw [mem_singleton.mp hd]
      assumption
    · rcases mem_append.mp hd with hd | hd
      · exact ih hd
      · rw [mem_singleton.mp hd]
        exact Nat.mod_lt _ (by omega)

theorem paddedDigits_lt (hb : 1 < base) :
    ∀ {count n d : ℕ}, d ∈ paddedDigits base count n → d < base := by
  intro count
  induction count with
  | zero =>
    intro n d hd
    cases hd
  | succ count ih =>
    intro n d hd
    rw [paddedDigits] at hd
    rcases mem_append.mp hd with hd | hd
    · exact ih hd
    · rw [mem_singleton.mp hd]
      exact Nat.mod_lt _ (by omega)

theorem digitValue_digitChar {d : ℕ} (hd : d < 16) : digitValue (digitChar d) = some d := by
  revert d
  decide

theorem mapM_digitValue (hb : base ≤ 16) {ds : List ℕ} (hd : ∀ d ∈ ds, d < base) :
    (ds.map digitChar).mapM (fun c => (digitValue c).filter fun d => decide (d < base)) = some ds := by
  induction ds with
  | nil => rfl
  | cons d rest ih =>
    rw [forall_mem_cons] at hd
    rw [map_cons, mapM_cons, digitValue_digitChar (by omega), ih hd.2,
      filter_some, if_pos (decide_eq_true hd.1)]
    rfl

theorem digits_ne_nil {fuel n : ℕ} : digits base (fuel + 1) n ≠ [] := by
  rw [digits]
  split <;> simp

theorem parse_render (hb : 1 < base) (hb' : base ≤ 16) (n : ℕ) :
    parse base (render base n) = some n := by
  rw [parse, render, if_neg (by simpa using digits_ne_nil),
    mapM_digitValue hb' (fun d hd => digits_lt hb hd), map_some,
    value_digits hb (Nat.lt_succ_self n)]

theorem parse_renderPadded {count n : ℕ} (hb : 1 < base) (hb' : base ≤ 16)
    (hc : 0 < count) (hn : n < base ^ count) : parse base (renderPadded base count n) = some n := by
  obtain ⟨k, rfl⟩ := Nat.exists_eq_succ_of_ne_zero (Nat.pos_iff_ne_zero.mp hc)
  rw [parse, renderPadded, if_neg (by simp [paddedDigits]),
    mapM_digitValue hb' (fun d hd => paddedDigits_lt hb hd), map_some,
    value_paddedDigits, Nat.mod_eq_of_lt hn]

end Charlotte.Lib.Numeral
