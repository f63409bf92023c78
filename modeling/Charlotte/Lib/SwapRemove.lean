import Mathlib

/-! # Removing an element of a list by its last one -/

namespace Charlotte.Lib

open List

/-- `Vec::swap_remove`: the last element takes the place of the one that is removed. -/
def swapRemove {α : Type} (list : List α) (index : ℕ) : List α :=
  match list.getLast? with
  | none => list
  | some last => (list.set index last).dropLast

variable {α : Type} {list : List α} {index : ℕ}

theorem swapRemove_subset : swapRemove list index ⊆ list := by
  intro x hx
  unfold swapRemove at hx
  split at hx
  · exact hx
  · rename_i hlast
    rcases mem_or_eq_of_mem_set (dropLast_subset _ hx) with hx | rfl
    · exact hx
    · exact mem_of_getLast? hlast

theorem nodup_swapRemove {β : Type} {f : α → β} (h : (list.map f).Nodup) :
    ((swapRemove list index).map f).Nodup := by
  unfold swapRemove
  split
  · exact h
  rename_i last hlast
  obtain ⟨older, rfl⟩ := getLast?_eq_some_iff.mp hlast
  rw [map_append, map_singleton, nodup_append] at h
  by_cases hlt : index < older.length
  · rw [set_append_left _ _ hlt, dropLast_concat, map_set]
    refine (set_perm_cons_eraseIdx (by simpa using hlt) (f last)).nodup_iff.mpr
      (nodup_cons.mpr ⟨fun hmem => ?_, h.1.sublist (eraseIdx_sublist ..)⟩)
    exact h.2.2 _ (eraseIdx_subset hmem) _ (mem_singleton_self _) rfl
  · rw [set_append_right _ _ (Nat.le_of_not_lt hlt), dropLast_append_of_ne_nil (by simp), map_append]
    cases index - older.length with
    | zero | succ => simpa using h.1

/-- Only the element at the index is lost. -/
theorem mem_swapRemove {x : α} (hx : x ∈ list) (hindex : index < list.length) :
    list[index]? = some x ∨ x ∈ swapRemove list index := by
  obtain ⟨older, last, rfl⟩ := (eq_nil_or_concat' list).resolve_left (ne_nil_of_mem hx)
  simp only [swapRemove, getLast?_concat]
  by_cases hlt : index < older.length
  · rw [set_append_left _ _ hlt, dropLast_concat, getElem?_append_left hlt]
    rcases mem_append.mp hx with hx | hx
    · obtain ⟨i, hi, rfl⟩ := getElem_of_mem hx
      by_cases heq : i = index
      · exact .inl (heq ▸ getElem?_eq_getElem hi)
      · exact .inr (mem_iff_getElem?.mpr ⟨i, by rw [getElem?_set_ne (Ne.symm heq), getElem?_eq_getElem hi]⟩)
    · exact .inr (mem_singleton.mp hx ▸ mem_set hlt last)
  · obtain rfl : index = older.length := by
      rw [length_append, length_singleton] at hindex
      omega
    rcases mem_append.mp hx with hx | hx
    · simp [hx]
    · simp [mem_singleton.mp hx]

end Charlotte.Lib
