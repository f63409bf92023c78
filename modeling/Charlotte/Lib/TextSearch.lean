import Mathlib

/-!
# Searching for the first occurrence of a pattern

`splitFirst` splits a list around the first occurrence of a pattern. To compute
with it on a list that is only partly known, `Absent` says that no occurrence
starts within a part, given what follows the part; known parts are discharged
by the computable check `clear`.
-/

namespace Charlotte.Lib.TextSearch

open List

variable {α : Type*} [DecidableEq α]

/-- What stands before and after the first occurrence of the pattern. -/
def splitFirst (needle : List α) : List α → Option (List α × List α)
  | [] => if needle.isEmpty then some ([], []) else none
  | a :: rest =>
    if needle.isPrefixOf (a :: rest) then some ([], (a :: rest).drop needle.length)
    else (splitFirst needle rest).map fun (before, after) => (a :: before, after)

/-- The text up to and including the first `a`. -/
def uptoFirst (a : α) (text : List α) : Option (List α) :=
  (splitFirst [a] text).map fun (before, _) => before ++ [a]

/-- The text from the last `a` on. -/
def fromLast (a : α) (text : List α) : Option (List α) :=
  (splitFirst [a] text.reverse).map fun (after, _) => a :: after.reverse

/-- No occurrence of the pattern starts within the list when `tail` follows it. -/
def Absent (needle : List α) : List α → List α → Prop
  | [], _ => True
  | a :: rest, tail => ¬ needle <+: (a :: rest ++ tail) ∧ Absent needle rest tail

omit [DecidableEq α] in
theorem absent_nil (needle tail : List α) : Absent needle [] tail := trivial

variable {needle text : List α} {a : α}

omit [DecidableEq α] in
theorem absent_cons {tail : List α}
    (h : ¬ needle <+: (a :: text ++ tail)) (ht : Absent needle text tail) :
    Absent needle (a :: text) tail :=
  ⟨h, ht⟩

/-- The lists differ at a position both have. -/
def differ : List α → List α → Bool
  | x :: xs, y :: ys => decide (x ≠ y) || differ xs ys
  | _, _ => false

/-- The pattern differs from the list at each position, whatever follows. -/
def clear (needle : List α) : List α → Bool
  | [] => true
  | a :: rest => differ needle (a :: rest) && clear needle rest

theorem not_prefix_of_differ (h : differ needle text = true)
    (tail : List α) : ¬ needle <+: (text ++ tail) := by
  induction needle generalizing text with
  | nil => simp [differ] at h
  | cons x xs ih =>
    cases text with
    | nil => simp [differ] at h
    | cons =>
      rw [cons_append, cons_prefix_cons]
      rintro ⟨rfl, hxs⟩
      rw [differ, Bool.or_eq_true] at h
      rcases h with h | h
      · simp at h
      · exact ih h hxs

theorem absent_of_clear (h : clear needle text = true) (tail : List α) : Absent needle text tail := by
  induction text with
  | nil => trivial
  | cons a rest ih =>
    rw [clear, Bool.and_eq_true] at h
    exact ⟨not_prefix_of_differ h.1 tail, ih h.2⟩

omit [DecidableEq α] in
theorem absent_of_head (h : a ∉ text) (tail : List α) : Absent (a :: needle) text tail := by
  induction text with
  | nil => trivial
  | cons b rest ih =>
    rw [mem_cons, not_or] at h
    refine ⟨?_, ih h.2⟩
    rw [cons_append, cons_prefix_cons]
    exact fun hp => h.1 hp.1

omit [DecidableEq α] in
theorem Absent.append {a b tail : List α} (ha : Absent needle a (b ++ tail))
    (hb : Absent needle b tail) : Absent needle (a ++ b) tail := by
  induction a with
  | nil => exact hb
  | cons x rest ih =>
    refine ⟨?_, ih ha.2⟩
    have := ha.1
    rwa [cons_append, ← append_assoc] at this

omit [DecidableEq α] in
theorem Absent.of_append {a b tail : List α} (h : Absent needle (a ++ b) tail) :
    Absent needle a [] := by
  induction a with
  | nil => trivial
  | cons x rest ih =>
    refine ⟨fun hp => h.1 (hp.trans ?_), ih h.2⟩
    rw [append_nil]
    exact ⟨b ++ tail, by simp⟩

theorem splitFirst_of_absent {a b : List α} (hn : needle ≠ []) (h : Absent needle a (needle ++ b)) :
    splitFirst needle (a ++ (needle ++ b)) = some (a, b) := by
  induction a with
  | nil =>
    obtain ⟨x, xs, rfl⟩ := exists_cons_of_ne_nil hn
    have hp : (x :: xs).isPrefixOf (x :: xs ++ b) = true :=
      isPrefixOf_iff_prefix.mpr (prefix_append _ _)
    rw [nil_append, cons_append, splitFirst]
    rw [cons_append] at hp
    rw [if_pos hp, ← cons_append, drop_left]
  | cons x rest ih =>
    have hp : ¬ needle.isPrefixOf (x :: (rest ++ (needle ++ b))) = true := by
      rw [List.isPrefixOf_iff_prefix]
      exact h.1
    rw [cons_append, splitFirst, if_neg hp, ih h.2]
    rfl

theorem splitFirst_eq_none {a : List α} (hn : needle ≠ [])
    (h : Absent needle a []) : splitFirst needle a = none := by
  induction a with
  | nil => simpa [splitFirst] using hn
  | cons x rest ih =>
    have hp : ¬ needle.isPrefixOf (x :: rest) = true := by
      rw [List.isPrefixOf_iff_prefix]
      simpa using h.1
    rw [splitFirst, if_neg hp, ih h.2]
    rfl

theorem uptoFirst_append {before : List α} (h : a ∉ before) (after : List α) :
    uptoFirst a (before ++ a :: after) = some (before ++ [a]) := by
  have hs := splitFirst_of_absent (cons_ne_nil a []) (absent_of_head h ([a] ++ after))
  rw [uptoFirst, show before ++ a :: after = before ++ ([a] ++ after) from rfl, hs]
  rfl

theorem fromLast_append {after : List α} (h : a ∉ after) (before : List α) :
    fromLast a (before ++ a :: after) = some (a :: after) := by
  have hs := splitFirst_of_absent (cons_ne_nil a [])
    (absent_of_head (fun h' => h (mem_reverse.mp h')) ([a] ++ before.reverse))
  rw [fromLast, reverse_append, reverse_cons, append_assoc, hs]
  simp

attribute [irreducible] Absent

end Charlotte.Lib.TextSearch
