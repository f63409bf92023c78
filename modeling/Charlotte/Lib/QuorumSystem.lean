import Mathlib

/-!
# Quorum systems

A quorum system is a family of sets in which any two members meet. Majorities
of a finite voter set are the standard instance; the family is closed upwards,
so a quorum may be witnessed by any set that contains a majority.
-/

namespace Charlotte.Lib

variable {ν : Type*}

/-- A family of sets, closed upwards, any two of which share an element. -/
structure QuorumSystem (ν : Type*) where
  IsQuorum : Set ν → Prop
  mono : ∀ {A B : Set ν}, A ⊆ B → IsQuorum A → IsQuorum B
  inter : ∀ {A B : Set ν}, IsQuorum A → IsQuorum B → ∃ x, x ∈ A ∧ x ∈ B

namespace QuorumSystem

/-- Two majorities of one finite set have a common element. -/
theorem exists_mem_of_majorities [DecidableEq ν] {V A B : Finset ν}
    (hA : A ⊆ V) (hB : B ⊆ V) (ha : V.card / 2 < A.card) (hb : V.card / 2 < B.card) :
    ∃ x, x ∈ A ∧ x ∈ B := by
  by_contra hne
  have hdisj : Disjoint A B := by
    rw [Finset.disjoint_left]
    intro x hxA hxB
    exact hne ⟨x, hxA, hxB⟩
  have hcard : A.card + B.card ≤ V.card := by
    rw [← Finset.card_union_of_disjoint hdisj]
    exact Finset.card_le_card (Finset.union_subset hA hB)
  omega

/-- The majorities of a finite voter set form a quorum system. -/
def majority [DecidableEq ν] (V : Finset ν) : QuorumSystem ν where
  IsQuorum A := ∃ S : Finset ν, S ⊆ V ∧ V.card / 2 < S.card ∧ ∀ x ∈ S, x ∈ A
  mono hAB := by
    rintro ⟨S, hSV, hS, hSA⟩
    exact ⟨S, hSV, hS, fun x hx => hAB (hSA x hx)⟩
  inter := by
    rintro A B ⟨S, hSV, hS, hSA⟩ ⟨R, hRV, hR, hRB⟩
    obtain ⟨x, hxS, hxR⟩ := exists_mem_of_majorities hSV hRV hS hR
    exact ⟨x, hSA x hxS, hRB x hxR⟩

end QuorumSystem

end Charlotte.Lib
