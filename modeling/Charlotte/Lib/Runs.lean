import Mathlib

/-!
# Runs of many steps

What every step of a run keeps, in the states of the run or under a condition on the step,
the run keeps.
-/

namespace Charlotte.Lib

open List

universe u

variable {σ : Type*}

/-- What holds at first, and what every step of a run keeps that is taken in a state of the
run, holds after any part of the run. -/
theorem foldl_take_invariant {ι : Type*} {f : σ → ι → σ} {P : σ → Prop} {steps : List ι} {s : σ}
    (hsta : P s) (hstep : ∀ i x, steps[i]? = some x → P ((steps.take i).foldl f s) →
      P (f ((steps.take i).foldl f s) x)) (k : Nat) : P ((steps.take k).foldl f s) := by
  induction k with
  | zero => exact hsta
  | succ k ih =>
    cases hx : steps[k]? with
    | none =>
      rw [take_add_one, hx]
      simpa using ih
    | some x =>
      rw [take_add_one, hx, foldl_append]
      exact hstep k x hx ih

/-- Every step of a run is taken in a state that meets the condition with it. -/
def Meets {ι : Type*} (f : σ → ι → σ) (C : σ → ι → Prop) : σ → List ι → Prop
  | _, [] => True
  | s, x :: rest => C s x ∧ Meets f C (f s x) rest

/-- What every step keeps that meets the condition, a run of such steps keeps. -/
theorem Meets.invariant {ι : Type*} {f : σ → ι → σ} {C : σ → ι → Prop} {P : σ → Prop}
    (hstep : ∀ s x, P s → C s x → P (f s x)) {s : σ} {steps : List ι} (h : Meets f C s steps)
    (hs : P s) : P (steps.foldl f s) := by
  induction steps generalizing s with
  | nil => exact hs
  | cons x rest ih => exact ih h.2 (hstep s x hs h.1)

/-- A run that may stop with an error, with what each of its steps has produced. -/
theorem foldlM_history {ι ρ σ : Type} {ε : Type u} {f : σ → ι → Except ε σ}
    {P : List (ι × ρ) → σ → Prop} {steps : List ι}
    (hstep : ∀ done s x s', x ∈ steps → P done s → f s x = .ok s' → ∃ r, P (done ++ [(x, r)]) s')
    {past : List (ι × ρ)} {s s' : σ} (hpast : P past s) (hrun : steps.foldlM f s = .ok s') :
    ∃ done, done.map Prod.fst = past.map Prod.fst ++ steps ∧ P done s' := by
  induction steps generalizing past s with
  | nil =>
    cases hrun
    exact ⟨past, by simp, hpast⟩
  | cons x steps ih =>
    rw [foldlM_cons] at hrun
    cases hx : f s x with
    | error =>
      rw [hx] at hrun
      cases hrun
    | ok middle =>
      rw [hx] at hrun
      obtain ⟨r, hr⟩ := hstep past s x middle mem_cons_self hpast hx
      obtain ⟨done, hdone, hP⟩ := ih
        (fun done s y s' hy => hstep done s y s' (mem_cons_of_mem x hy)) hr hrun
      refine ⟨done, ?_, hP⟩
      rw [hdone, map_append, append_assoc]
      rfl

end Charlotte.Lib
