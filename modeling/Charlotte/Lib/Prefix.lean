import Mathlib

/-! # Positions and initial segments of list prefixes -/

namespace Charlotte.Lib

variable {α : Type*} {l l' : List α} {i k : ℕ} {a : α}

open List

theorem prefix_getElem? (h : l <+: l') (ha : l[i]? = some a) : l'[i]? = some a := by
  obtain ⟨t, rfl⟩ := h
  rw [List.getElem?_append_left (List.getElem?_eq_some_iff.mp ha).1]
  exact ha

theorem prefix_take (h : l <+: l') (hk : k ≤ l.length) : l'.take k = l.take k := by
  obtain ⟨t, rfl⟩ := h
  exact take_append_of_le_length hk

theorem prefix_take_self_iff (hk : l.length = k) : l <+: l' ↔ l'.take k = l := by
  rw [prefix_iff_eq_take, hk, eq_comm]

/-- Equal initial segments of length `k` are full segments once one list is long enough. -/
theorem le_length_of_take_eq (h : l.take k = l'.take k) (hk : k ≤ l'.length) : k ≤ l.length := by
  have := congrArg length h
  simp only [length_take] at this
  omega

theorem take_eq_of_le (h : l.take k = l'.take k) (hi : i ≤ k) : l.take i = l'.take i := by
  have := congrArg (take i) h
  simpa only [take_take, Nat.min_eq_left hi] using this

/-- The longer of two lists, the first if they have one length. -/
def longer (l l' : List α) : List α := if l.length < l'.length then l' else l

theorem prefix_longer (h : l <+: l' ∨ l' <+: l) : l <+: longer l l' ∧ l' <+: longer l l' := by
  rw [longer]
  split
  · refine ⟨h.resolve_right fun h' => ?_, prefix_refl _⟩
    exact absurd h'.length_le (by omega)
  · refine ⟨prefix_refl _, ?_⟩
    rcases h with h | h
    · rw [h.eq_of_length_le (by omega)]
    · exact h

theorem longer_eq_or (l l' : List α) : longer l l' = l ∨ longer l l' = l' := by
  rw [longer]
  split
  · exact .inr rfl
  · exact .inl rfl

end Charlotte.Lib
