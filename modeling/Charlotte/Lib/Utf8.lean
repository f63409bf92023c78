import Mathlib

/-!
# UTF-8 validity

A validator for byte sequences: after a lead byte it holds the ranges that the
following bytes must fall in. Overlong forms, surrogates and values above
U+10FFFF are excluded by the ranges of the second byte.
-/

namespace Charlotte.Lib.Utf8

/-- The ranges of the bytes that follow a lead byte. -/
def tailRanges (lead : UInt8) : Option (List (UInt8 × UInt8)) :=
  if lead < 0x80 then some []
  else if lead < 0xC2 then none
  else if lead < 0xE0 then some [(0x80, 0xBF)]
  else if lead = 0xE0 then some [(0xA0, 0xBF), (0x80, 0xBF)]
  else if lead = 0xED then some [(0x80, 0x9F), (0x80, 0xBF)]
  else if lead < 0xF0 then some [(0x80, 0xBF), (0x80, 0xBF)]
  else if lead = 0xF0 then some [(0x90, 0xBF), (0x80, 0xBF), (0x80, 0xBF)]
  else if lead < 0xF4 then some [(0x80, 0xBF), (0x80, 0xBF), (0x80, 0xBF)]
  else if lead = 0xF4 then some [(0x80, 0x8F), (0x80, 0xBF), (0x80, 0xBF)]
  else none

/-- Validity of a suffix, given the ranges still owed by the current character. -/
def validFrom : List (UInt8 × UInt8) → List UInt8 → Bool
  | [], [] => true
  | _ :: _, [] => false
  | [], byte :: rest =>
    match tailRanges byte with
    | some ranges => validFrom ranges rest
    | none => false
  | (low, high) :: ranges, byte :: rest =>
    decide (low ≤ byte) && decide (byte ≤ high) && validFrom ranges rest

def valid (bytes : List UInt8) : Bool := validFrom [] bytes

theorem valid_of_ascii {bytes : List UInt8} (h : ∀ b ∈ bytes, b < 0x80) : valid bytes = true := by
  induction bytes with
  | nil => rfl
  | cons byte rest ih =>
    rw [List.forall_mem_cons] at h
    rw [valid, validFrom, tailRanges, if_pos h.1]
    exact ih h.2

end Charlotte.Lib.Utf8
