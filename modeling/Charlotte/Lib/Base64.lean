import Mathlib

/-!
# Base64 without padding

Groups of three bytes become four characters, a last group of one or two bytes
two or three. The decoder takes a last group of two or more characters and
stops a group at the first character that is not a digit.
-/

namespace Charlotte.Lib.Base64

open List Option UInt8

/-- The character of a six-bit digit. -/
def char (d : ℕ) : UInt8 :=
  if d < 26 then ofNat (65 + d)
  else if d < 52 then ofNat (97 + (d - 26))
  else if d < 62 then ofNat (48 + (d - 52))
  else if d = 62 then 43
  else 47

/-- The six-bit digit of a character. -/
def digit (c : UInt8) : Option ℕ :=
  if 65 ≤ c.toNat ∧ c.toNat ≤ 90 then some (c.toNat - 65)
  else if 97 ≤ c.toNat ∧ c.toNat ≤ 122 then some (c.toNat - 97 + 26)
  else if 48 ≤ c.toNat ∧ c.toNat ≤ 57 then some (c.toNat - 48 + 52)
  else if c.toNat = 43 then some 62
  else if c.toNat = 47 then some 63
  else none

/-- The four digits of a group of three bytes. -/
def quad (b0 b1 b2 position : ℕ) : ℕ :=
  ((b0 <<< 16 ||| b1 <<< 8 ||| b2) >>> (18 - 6 * position)) &&& 0x3f

def encode : List UInt8 → List UInt8
  | [] => []
  | [a] => [char (quad a.toNat 0 0 0), char (quad a.toNat 0 0 1)]
  | [a, b] =>
    [char (quad a.toNat b.toNat 0 0), char (quad a.toNat b.toNat 0 1), char (quad a.toNat b.toNat 0 2)]
  | a :: b :: c :: rest =>
    char (quad a.toNat b.toNat c.toNat 0) :: char (quad a.toNat b.toNat c.toNat 1) ::
      char (quad a.toNat b.toNat c.toNat 2) :: char (quad a.toNat b.toNat c.toNat 3) :: encode rest

def byte0 (v0 v1 : ℕ) : UInt8 := ofNat (v0 <<< 2 ||| v1 >>> 4)

def byte1 (v1 v2 : ℕ) : UInt8 := ofNat (v1 <<< 4 ||| v2 >>> 2)

def byte2 (v2 v3 : ℕ) : UInt8 := ofNat (v2 <<< 6 ||| v3)

/-- The bytes of one group; a character that is no digit ends the group. -/
def decodeGroup (v0 v1 : ℕ) (v2 v3 : Option ℕ) : List UInt8 :=
  match v2, v3 with
  | none, _ => [byte0 v0 v1]
  | some v2, none => [byte0 v0 v1, byte1 v1 v2]
  | some v2, some v3 => [byte0 v0 v1, byte1 v1 v2, byte2 v2 v3]

def decode : List UInt8 → Option (List UInt8)
  | [] => some []
  | [_] => none
  | [c0, c1] => do
      let v0 ← digit c0
      let v1 ← digit c1
      some (decodeGroup v0 v1 none none)
  | [c0, c1, c2] => do
      let v0 ← digit c0
      let v1 ← digit c1
      some (decodeGroup v0 v1 (digit c2) none)
  | c0 :: c1 :: c2 :: c3 :: rest => do
      let v0 ← digit c0
      let v1 ← digit c1
      let tail ← decode rest
      some (decodeGroup v0 v1 (digit c2) (digit c3) ++ tail)

theorem digit_char {d : ℕ} (hd : d < 64) : digit (char d) = some d := by
  revert d
  decide

theorem or_of_lt {a b i : ℕ} (hb : b < 2 ^ i) : a <<< i ||| b = a * 2 ^ i + b := by
  rw [Nat.shiftLeft_eq, Nat.mul_comm, Nat.two_pow_add_eq_or_of_lt hb]

variable {b0 b1 b2 : ℕ}

theorem triple_eq (h1 : b1 < 256) (h2 : b2 < 256) :
    b0 <<< 16 ||| b1 <<< 8 ||| b2 = b0 * 65536 + b1 * 256 + b2 := by
  have hlow : b1 <<< 8 ||| b2 = b1 * 256 + b2 := or_of_lt h2
  rw [Nat.or_assoc, hlow, or_of_lt (by omega)]
  omega

theorem quad_eq (h1 : b1 < 256) (h2 : b2 < 256) (position : ℕ) : quad b0 b1 b2 position =
      (b0 * 65536 + b1 * 256 + b2) / 2 ^ (18 - 6 * position) % 64 := by
  rw [quad, triple_eq h1 h2, Nat.shiftRight_eq_div_pow]
  exact Nat.and_two_pow_sub_one_eq_mod _ 6

theorem quad_lt (h1 : b1 < 256) (h2 : b2 < 256) (position : ℕ) : quad b0 b1 b2 position < 64 := by
  rw [quad_eq h1 h2]
  exact Nat.mod_lt _ (by decide)

section Group

variable {a b c : UInt8}

theorem byte0_quad (b c : ℕ) (hb : b < 256) (hc : c < 256) :
    byte0 (quad a.toNat b c 0) (quad a.toNat b c 1) = a := by
  have ha : a.toNat < 256 := a.toNat_lt
  have hsum : quad a.toNat b c 0 <<< 2 ||| quad a.toNat b c 1 >>> 4 = a.toNat := by
    rw [Nat.shiftRight_eq_div_pow, quad_eq hb hc, quad_eq hb hc, or_of_lt (by omega)]
    omega
  rw [byte0, hsum, UInt8.ofNat_toNat]

theorem byte1_quad (a c : ℕ) (hc : c < 256) : byte1 (quad a b.toNat c 1) (quad a b.toNat c 2) = b := by
  have hb : b.toNat < 256 := b.toNat_lt
  have hsum : (quad a b.toNat c 1 <<< 4 ||| quad a b.toNat c 2 >>> 2) % 256 = b.toNat := by
    rw [Nat.shiftRight_eq_div_pow, quad_eq hb hc, quad_eq hb hc, or_of_lt (by omega)]
    omega
  rw [byte1, ← UInt8.toNat_inj, UInt8.toNat_ofNat', hsum]

theorem byte2_quad (a b : ℕ) (hb : b < 256) : byte2 (quad a b c.toNat 2) (quad a b c.toNat 3) = c := by
  have hc : c.toNat < 256 := c.toNat_lt
  have hsum : (quad a b c.toNat 2 <<< 6 ||| quad a b c.toNat 3) % 256 = c.toNat := by
    rw [quad_eq hb hc, quad_eq hb hc, or_of_lt (by omega)]
    omega
  rw [byte2, ← UInt8.toNat_inj, UInt8.toNat_ofNat', hsum]

end Group

theorem decode_encode (data : List UInt8) : decode (encode data) = some data := by
  have hlt : ∀ x : UInt8, x.toNat < 256 := fun x => x.toNat_lt
  have hz : 0 < 256 := by decide
  have hdig : ∀ {a b c i : ℕ}, b < 256 → c < 256 →
      digit (char (quad a b c i)) = some (quad a b c i) :=
    fun hb hc => digit_char (quad_lt hb hc _)
  induction data using encode.induct with
  | case1 => rfl
  | case2 =>
    rw [encode, decode, hdig hz hz, hdig hz hz]
    simp only [bind_eq_bind, bind_some, decodeGroup]
    rw [byte0_quad _ _ hz hz]
  | case3 a b =>
    rw [encode, decode, hdig (hlt b) hz, hdig (hlt b) hz, hdig (hlt b) hz]
    simp only [bind_eq_bind, bind_some, decodeGroup]
    rw [byte0_quad _ _ (hlt b) hz, byte1_quad _ _ hz]
  | case4 a b c rest ih =>
    rw [encode, decode, hdig (hlt b) (hlt c), hdig (hlt b) (hlt c),
      hdig (hlt b) (hlt c), hdig (hlt b) (hlt c), ih]
    simp only [bind_eq_bind, bind_some, decodeGroup]
    rw [byte0_quad _ _ (hlt b) (hlt c), byte1_quad _ _ (hlt c), byte2_quad _ _ (hlt b)]
    rfl

theorem mem_encode {data : List UInt8} {c : UInt8} (h : c ∈ encode data) : ∃ d < 64, c = char d := by
  have hlt : ∀ x : UInt8, x.toNat < 256 := fun x => x.toNat_lt
  have hz : 0 < 256 := by decide
  induction data using encode.induct with
  | case1 => cases h
  | case2 =>
    simp only [encode, mem_cons, not_mem_nil, or_false] at h
    rcases h with rfl | rfl <;> exact ⟨_, quad_lt hz hz _, rfl⟩
  | case3 a b =>
    simp only [encode, mem_cons, not_mem_nil, or_false] at h
    rcases h with rfl | rfl | rfl <;> exact ⟨_, quad_lt (hlt b) hz _, rfl⟩
  | case4 a b c rest ih =>
    simp only [encode, mem_cons] at h
    rcases h with rfl | rfl | rfl | rfl | h
    on_goal 5 => exact ih h
    all_goals exact ⟨_, quad_lt (hlt b) (hlt c) _, rfl⟩

end Charlotte.Lib.Base64
