import Mathlib

/-!
# Checks that stop a computation

A fallible computation is a chain of checks: a condition that must hold, a value that must
be there, a computation that must not fail. The lemmas turn a successful chain into the
list of what was checked.
-/

namespace Charlotte.Lib

variable {ε α β : Type} {a : α}

/-- The condition holds, or the computation stops with the error. -/
def ensure (c : Prop) [Decidable c] (error : ε) : Except ε Unit :=
  if c then .ok () else .error error

/-- The value is there, or the computation stops with the error. -/
def okOr (value : Option α) (error : ε) : Except ε α := value.elim (.error error) .ok

/-- What a changed table holds was put there or was there before. -/
theorem update_eq_some {ι : Type} [DecidableEq ι] {f : ι → Option α} {i j : ι} {v : Option α}
    (h : Function.update f i v j = some a) : j = i ∧ v = some a ∨ j ≠ i ∧ f j = some a := by
  rw [Function.update_apply] at h
  by_cases hj : j = i
  · exact .inl ⟨hj, by rwa [if_pos hj] at h⟩
  · exact .inr ⟨hj, by rwa [if_neg hj] at h⟩

variable {b : β} {f : Unit → Except ε β}

theorem bind_eq_ok {x : Except ε α} {f : α → Except ε β} :
    x >>= f = .ok b ↔ ∃ a, x = .ok a ∧ f a = .ok b := by
  cases x with
  | ok a => exact ⟨fun h => ⟨a, rfl, h⟩, fun ⟨_, ha, h⟩ => by cases ha; exact h⟩
  | error => exact ⟨nofun, fun ⟨_, ha, _⟩ => (nomatch ha)⟩

theorem check_bind_eq_ok {x : Except ε Unit} : x >>= f = .ok b ↔ x = .ok () ∧ f () = .ok b := by
  rw [bind_eq_ok]
  exact ⟨fun ⟨_, hx, h⟩ => ⟨hx, h⟩, fun ⟨hx, h⟩ => ⟨(), hx, h⟩⟩

variable {error : ε} {c : Prop} {value : Option α}

theorem ensure_eq_ok [Decidable c] {u : Unit} : ensure c error = .ok u ↔ c := by
  unfold ensure
  by_cases hc : c <;> simp [hc]

theorem okOr_eq_ok : okOr value error = .ok a ↔ value = some a := by
  cases value with
  | none => exact ⟨nofun, nofun⟩
  | some => exact ⟨fun h => congrArg some (Except.ok.inj h), fun h => congrArg Except.ok (Option.some.inj h)⟩

theorem ensure_bind_ok [Decidable c] : ensure c error >>= f = .ok b ↔ c ∧ f () = .ok b := by
  rw [check_bind_eq_ok, ensure_eq_ok]

theorem ensure_bind_of_not [Decidable c] (f : Unit → Except ε β) (hc : ¬ c) :
    ensure c error >>= f = .error error := by
  unfold ensure
  rw [if_neg hc]
  rfl

theorem okOr_bind_ok {f : α → Except ε β} :
    okOr value error >>= f = .ok b ↔ ∃ a, value = some a ∧ f a = .ok b := by
  simp only [bind_eq_ok, okOr_eq_ok]

theorem toOption_eq_some {result : Except ε α} : result.toOption = some a ↔ result = .ok a := by
  cases result with
  | error => exact ⟨nofun, nofun⟩
  | ok =>
    refine ⟨fun h => ?_, fun h => ?_⟩
    · cases h
      rfl
    · cases h
      rfl

end Charlotte.Lib
