import Mathlib

/-!
# Hysteresis of reassignments

`operations_admission.rs`: the controller asks a gate before it moves an artifact's replicas.
The gate keeps one candidate and two times; what it answers is a statement about all the
calls made to it.
-/

namespace Charlotte.Placement

open List

structure ReassignmentGate where
  /-- Empty where no candidate waits. -/
  candidate : List ℕ := []
  candidateSinceMs : ℕ := 0
  lastSubmissionMs : Option ℕ := none

namespace ReassignmentGate

variable (gate : ReassignmentGate)

def ready (current candidate : List ℕ) (forced : Bool) (nowMs dwellMs cooldownMs : ℕ) :
    Bool × ReassignmentGate :=
  if current = candidate then
    (false, { gate with candidate := [], candidateSinceMs := nowMs })
  else if forced then
    (true, { gate with candidate := [], candidateSinceMs := nowMs })
  else if gate.candidate ≠ candidate then
    (false, { gate with candidate, candidateSinceMs := nowMs })
  else if gate.lastSubmissionMs.any fun last => nowMs - last < cooldownMs then (false, gate)
  else (dwellMs ≤ nowMs - gate.candidateSinceMs, gate)

def markSubmitted (nowMs : ℕ) : ReassignmentGate :=
  { lastSubmissionMs := some nowMs, candidate := [], candidateSinceMs := nowMs }

inductive Call
  | ready (current candidate : List ℕ) (forced : Bool) (nowMs dwellMs cooldownMs : ℕ)
  | markSubmitted (nowMs : ℕ)

def Call.nowMs : Call → ℕ
  | ready _ _ _ nowMs _ _ => nowMs
  | markSubmitted nowMs => nowMs

/-- The call asks, unforced, for the candidate in place of another set. -/
def Call.proposes (candidate : List ℕ) : Call → Bool
  | ready current proposed forced _ _ _ => !forced && proposed = candidate && current ≠ proposed
  | markSubmitted _ => false

/-- The gate after the calls, of which the last comes first. -/
def after : List Call → ReassignmentGate
  | [] => {}
  | .ready current candidate forced nowMs dwellMs cooldownMs :: calls =>
    ((after calls).ready current candidate forced nowMs dwellMs cooldownMs).2
  | .markSubmitted nowMs :: _ => markSubmitted nowMs

/-- No call is earlier than one before it. -/
abbrev Ordered (calls : List Call) : Prop := calls.Pairwise fun later call => call.nowMs ≤ later.nowMs

variable {gate} {calls : List Call} {current candidate : List ℕ} {forced : Bool}
  {nowMs dwellMs cooldownMs : ℕ}

/-- The candidate after a call, and since when it waits. -/
theorem ready_candidate :
    let next := (gate.ready current candidate forced nowMs dwellMs cooldownMs).2
    if forced = false ∧ current ≠ candidate then next.candidate = candidate ∧
      next.candidateSinceMs = if gate.candidate = candidate then gate.candidateSinceMs else nowMs
    else next.candidate = [] := by
  unfold ready
  split_ifs <;> simp_all

theorem ready_lastSubmissionMs :
    (gate.ready current candidate forced nowMs dwellMs cooldownMs).2.lastSubmissionMs =
      gate.lastSubmissionMs := by
  unfold ready
  split_ifs <;> rfl

theorem ready_unforced_iff : (gate.ready current candidate false nowMs dwellMs cooldownMs).1 = true ↔
    current ≠ candidate ∧ gate.candidate = candidate ∧
      (gate.lastSubmissionMs.any fun last => nowMs - last < cooldownMs) = false ∧
      dwellMs ≤ nowMs - gate.candidateSinceMs := by
  unfold ready
  split_ifs <;> simp_all

/-- The gate holds the candidate exactly if the last calls have proposed it, and then has the
time of the first of these. -/
theorem after_candidate (hne : candidate ≠ []) (calls : List Call) :
    match (calls.takeWhile (·.proposes candidate)).getLast? with
    | none => (after calls).candidate ≠ candidate
    | some first =>
      (after calls).candidate = candidate ∧ (after calls).candidateSinceMs = first.nowMs := by
  induction calls with
  | nil => exact hne.symm
  | cons call calls ih =>
    cases call with
    | markSubmitted => exact hne.symm
    | ready current proposed forced nowMs dwellMs cooldownMs =>
      have hnext := @ready_candidate (after calls) current proposed forced nowMs dwellMs cooldownMs
      by_cases hp : forced = false ∧ current ≠ proposed
      · rw [if_pos hp] at hnext
        by_cases heq : proposed = candidate
        · subst heq
          rw [takeWhile_cons_of_pos (by simp [Call.proposes, hp]), getLast?_cons]
          refine ⟨hnext.1, hnext.2.trans ?_⟩
          cases htw : (calls.takeWhile (·.proposes proposed)).getLast? with
          | none =>
            rw [htw] at ih
            exact if_neg ih
          | some =>
            rw [htw] at ih
            rw [if_pos ih.1, ih.2]
            rfl
        · rw [takeWhile_cons_of_neg (by simp [Call.proposes, heq])]
          exact fun h => heq (hnext.1.symm.trans h)
      · rw [if_neg hp] at hnext
        rw [takeWhile_cons_of_neg (by grind [Call.proposes])]
        exact fun h => hne (h.symm.trans hnext)

/-- The cooldown since the last submission is over exactly if it is over since each. -/
theorem after_cooled_iff (hord : Ordered calls) (hnow : ∀ call ∈ calls, call.nowMs ≤ nowMs) :
    ((after calls).lastSubmissionMs.any fun last => nowMs - last < cooldownMs) = false ↔
      ∀ last, .markSubmitted last ∈ calls → last + cooldownMs ≤ nowMs := by
  induction calls with
  | nil => simp [after]
  | cons call calls ih =>
    obtain ⟨hlater, hrest⟩ := pairwise_cons.mp hord
    rw [forall_mem_cons] at hnow
    cases call with
    | markSubmitted last =>
      have hlast : last ≤ nowMs := hnow.1
      have heach : (∀ older, .markSubmitted older ∈ Call.markSubmitted last :: calls →
          older + cooldownMs ≤ nowMs) ↔ last + cooldownMs ≤ nowMs := by
        refine ⟨fun h => h last mem_cons_self, fun h older hmem => ?_⟩
        rcases mem_cons.mp hmem with heq | hmem
        · cases heq
          exact h
        · have hle : older ≤ last := hlater _ hmem
          omega
      rw [heach, after, markSubmitted, Option.any_some, decide_eq_false_iff_not]
      omega
    | ready =>
      rw [after, ready_lastSubmissionMs, ih hrest hnow.2]
      simp

/-- The call made first is the one the dwell time ago, if any is. -/
theorem Ordered.exists_iff {first : Call} (hord : Ordered calls) (hfirst : calls.getLast? = some first) :
    (∃ call ∈ calls, call.nowMs + dwellMs ≤ nowMs) ↔ first.nowMs + dwellMs ≤ nowMs := by
  obtain ⟨later, rfl⟩ := getLast?_eq_some_iff.mp hfirst
  refine ⟨?_, fun h => ⟨first, by simp, h⟩⟩
  rintro ⟨call, hmem, hcall⟩
  rcases mem_append.mp hmem with hmem | hmem
  · have hle := (pairwise_append.mp hord).2.2 call hmem first mem_cons_self
    omega
  · rwa [← mem_singleton.mp hmem]

/-- An unforced call is answered with yes exactly if it and all calls from one that is the dwell
time ago have proposed the candidate, and no submission lies within the cooldown. -/
theorem ready_iff_waited (hne : candidate ≠ [])
    (hord : Ordered (.ready current candidate false nowMs dwellMs cooldownMs :: calls)) :
    ((after calls).ready current candidate false nowMs dwellMs cooldownMs).1 = true ↔
      current ≠ candidate ∧
      (∃ first ∈ calls.takeWhile (·.proposes candidate), first.nowMs + dwellMs ≤ nowMs) ∧
      ∀ last, .markSubmitted last ∈ calls → last + cooldownMs ≤ nowMs := by
  obtain ⟨hbefore, hord⟩ := pairwise_cons.mp hord
  have hnow : ∀ call ∈ calls, call.nowMs ≤ nowMs := hbefore
  have hheld := after_candidate hne calls
  rw [ready_unforced_iff, after_cooled_iff hord hnow]
  cases hfirst : (calls.takeWhile (·.proposes candidate)).getLast? with
  | none =>
    rw [hfirst] at hheld
    simp [getLast?_eq_none_iff.mp hfirst, hheld]
  | some first =>
    rw [hfirst] at hheld
    have hle := hnow first ((takeWhile_subset _) (mem_of_getLast? hfirst))
    rw [Ordered.exists_iff (hord.sublist (takeWhile_sublist _)) hfirst, hheld.1, hheld.2]
    constructor
    · rintro ⟨hcur, -, hcool, hdwell⟩
      exact ⟨hcur, by omega, hcool⟩
    · rintro ⟨hcur, hdwell, hcool⟩
      exact ⟨hcur, rfl, hcool, by omega⟩

theorem ready_iff_waited_ten :
    ((after [.ready [1] [2] false 0 10 5]).ready [1] [2] false 10 10 5).1 = true := by
  apply (ready_iff_waited (by decide) (by decide)).mpr
  exact ⟨by decide, ⟨_, mem_cons_self, by decide⟩, by simp⟩

end ReassignmentGate

end Charlotte.Placement
