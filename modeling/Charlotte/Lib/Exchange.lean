import Mathlib

/-!
# Requests over a network that loses messages

A client sends one request again and again until it is answered, gives up, or has used up its
attempts. Each attempt loses the request, loses the reply, is turned away by the server
without an effect, or is delivered both ways. The client cannot tell the first two apart.
-/

namespace Charlotte.Lib

/-- What happens to one request and its reply. -/
inductive Delivery (ε κ : Type) where
  | requestLost (error : ε)
  | replyLost (error : ε)
  | refused (code : κ)
  | delivered

/-- One attempt, and what comes of looking the server up again after it. -/
structure Attempt (ε κ : Type) where
  delivery : Delivery ε κ
  refresh : Option ε := none

/-- What a client does after an attempt that was not answered. -/
inductive Next (ε : Type) where
  | fail (error : ε)
  | again
  | refresh

/-- How a client reacts; the flag says whether it was the last attempt. -/
structure RetryPolicy (ε κ : Type) where
  attempts : ℕ
  onError : Bool → ε → Next ε
  onRefusal : Bool → κ → Next ε
  exhausted : ε

/-- The client sends the request again. -/
def Next.goesOn {ε : Type} (refresh : Option ε) : Next ε → Bool
  | .fail _ => false
  | .again => true
  | .refresh => refresh.isNone

section Fates

variable {ε κ : Type} (policy : RetryPolicy ε κ)

/-- Whether the client goes on after an attempt without an effect that it heard of. -/
def RetryPolicy.goesOn (last : Bool) (attempt : Attempt ε κ) : Bool :=
  match attempt.delivery with
  | .requestLost error | .replyLost error => (policy.onError last error).goesOn attempt.refresh
  | .refused code => (policy.onRefusal last code).goesOn attempt.refresh
  | .delivered => false

/-- An attempt reaches the server before the client gives up. -/
def reachesFrom : ℕ → List (Attempt ε κ) → Bool
  | left + 1, attempt :: rest =>
    match attempt.delivery with
    | .delivered | .replyLost _ => true
    | _ => policy.goesOn (left == 0) attempt && reachesFrom left rest
  | _, _ => false

def reaches (attempts : List (Attempt ε κ)) : Bool := reachesFrom policy policy.attempts attempts

end Fates

section

variable {σ ε κ α : Type} (process : σ → σ × Except κ α)

/-- One request: what the server becomes and what the client sees. -/
def exchange (s : σ) : Delivery ε κ → σ × Except ε (Except κ α)
  | .requestLost error => (s, .error error)
  | .replyLost error => ((process s).1, .error error)
  | .refused code => (s, .ok (.error code))
  | .delivered => ((process s).1, .ok (process s).2)

/-- The client gives up or goes on, after looking the server up again if it has to. -/
def Next.follow (refresh : Option ε) (goOn : σ → σ × Except ε α) (s : σ) : Next ε → σ × Except ε α
  | .fail error => (s, .error error)
  | .again => goOn s
  | .refresh => match refresh with
      | some error => (s, .error error)
      | none => goOn s

/-- The attempts in order. -/
def retryFrom (policy : RetryPolicy ε κ) : ℕ → List (Attempt ε κ) → σ → σ × Except ε α
  | left + 1, attempt :: rest, s =>
    match exchange process s attempt.delivery with
    | (s, .ok (.ok answer)) => (s, .ok answer)
    | (s, .ok (.error code)) =>
      (policy.onRefusal (left == 0) code).follow attempt.refresh (retryFrom policy left rest) s
    | (s, .error error) =>
      (policy.onError (left == 0) error).follow attempt.refresh (retryFrom policy left rest) s
  | _, _, s => (s, .error policy.exhausted)

def retry (policy : RetryPolicy ε κ) (attempts : List (Attempt ε κ)) (s : σ) : σ × Except ε α :=
  retryFrom process policy policy.attempts attempts s

variable {process}

/-- The result satisfies the invariant, and an answer its postcondition. -/
def Answers (P : σ → Prop) (Q : σ → α → Prop) (result : σ × Except ε α) : Prop :=
  P result.1 ∧ ∀ answer, result.2 = .ok answer → Q result.1 answer

variable {s : σ} {Q : σ → α → Prop} {P : σ → Prop}

theorem answers_error (hs : P s) (error : ε) :
    Answers P Q (s, .error error) := ⟨hs, fun _ h => (nomatch h)⟩

theorem Next.answers_follow {goOn : σ → σ × Except ε α}
    (hgoOn : ∀ s, P s → Answers P Q (goOn s)) (refresh : Option ε) (hs : P s) (next : Next ε) :
    Answers P Q (next.follow refresh goOn s) := by
  cases next with
  | fail error => exact answers_error hs error
  | again => exact hgoOn s hs
  | refresh =>
    cases refresh with
    | some error => exact answers_error hs error
    | none => exact hgoOn s hs

variable {policy : RetryPolicy ε κ}

/-- What one effect of the request keeps, all the attempts keep; and an answer is the answer
of one effect. -/
theorem retryFrom_spec (P : σ → Prop) (Q : σ → α → Prop) (hstep : ∀ s, P s → P (process s).1)
    (hans : ∀ s answer, P s → (process s).2 = .ok answer → Q (process s).1 answer)
    (left : ℕ) (attempts : List (Attempt ε κ)) (s : σ) (hs : P s) :
    Answers P Q (retryFrom process policy left attempts s) := by
  induction attempts generalizing left s with
  | nil => cases left <;> exact answers_error hs _
  | cons attempt rest ih =>
    cases left with
    | zero => exact answers_error hs _
    | succ left =>
      have hfollow := fun s (hs : P s) next =>
        Next.answers_follow (fun s hs => ih left s hs) attempt.refresh hs next
      simp only [retryFrom]
      cases attempt.delivery with
      | requestLost => exact hfollow s hs _
      | replyLost => exact hfollow _ (hstep s hs) _
      | refused => exact hfollow s hs _
      | delivered =>
        simp only [exchange]
        cases hp : (process s).2 with
        | error => exact hfollow _ (hstep s hs) _
        | ok answer =>
          refine ⟨hstep s hs, fun found h => ?_⟩
          cases h
          exact hans s answer hs hp

theorem retry_spec (P : σ → Prop) (Q : σ → α → Prop) (hstep : ∀ s, P s → P (process s).1)
    (hans : ∀ s answer, P s → (process s).2 = .ok answer → Q (process s).1 answer)
    (attempts : List (Attempt ε κ)) (hs : P s) : Answers P Q (retry process policy attempts s) :=
  retryFrom_spec P Q hstep hans policy.attempts attempts s hs

/-- The attempts keep what one effect keeps. -/
theorem retry_invariant (P : σ → Prop)
    (hstep : ∀ s, P s → P (process s).1) (attempts : List (Attempt ε κ)) (hs : P s) :
    P (retry process policy attempts s).1 :=
  (retry_spec P (fun _ _ => True) hstep (fun _ _ _ _ => trivial) attempts hs).1

theorem Next.follow_of_goesOn {next : Next ε} {refresh : Option ε} (h : next.goesOn refresh = true)
    (goOn : σ → σ × Except ε α) (s : σ) : next.follow refresh goOn s = goOn s := by
  cases next with
  | fail => cases h
  | again => rfl
  | refresh => cases refresh with
    | some => cases h
    | none => rfl

/-- A request that reaches the server has its effect. -/
theorem retry_reached (hhit : P (process s).1) (hkeep : ∀ s, P s → P (process s).1)
    {attempts : List (Attempt ε κ)} (h : reaches policy attempts = true) :
    P (retry process policy attempts s).1 := by
  unfold retry
  unfold reaches at h
  generalize policy.attempts = left at h ⊢
  induction attempts generalizing left with
  | nil => cases left <;> cases h
  | cons attempt rest ih =>
    cases left with
    | zero => cases h
    | succ left =>
      have hdone : ∀ next : Next ε,
          P (next.follow attempt.refresh (retryFrom process policy left rest) (process s).1).1 :=
        fun next => (Next.answers_follow (retryFrom_spec P (fun _ _ => True) hkeep
          (fun _ _ _ _ => trivial) left rest) attempt.refresh hhit next).1
      simp only [reachesFrom, RetryPolicy.goesOn] at h
      simp only [retryFrom]
      cases hd : attempt.delivery with
      | requestLost | refused =>
        simp only [hd, Bool.and_eq_true] at h
        simp only [exchange]
        rw [Next.follow_of_goesOn h.1]
        exact ih left h.2
      | replyLost => exact hdone _
      | delivered =>
        simp only [exchange]
        cases (process s).2 with
        | error => exact hdone _
        | ok => exact hhit

end

end Charlotte.Lib
