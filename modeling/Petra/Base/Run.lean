import Mathlib

/-! # Runs of a system

A system takes one operation after another. An operation may stop the system, and a
condition may restrict which operations are taken in which states.
-/

namespace Base

variable {σ ι π : Type} {α : Type} {observe : σ → α} {a : α} {ops : List ι}
  {step : σ → ι → Except π σ} {allowed : σ → ι → Prop}

/-- The states a run visits whose operations all meet `allowed` where they are taken. -/
inductive Visits (step : σ → ι → Except π σ) (allowed : σ → ι → Prop) (start : σ) : σ → Prop
  | start : Visits step allowed start start
  | next {s s' : σ} {op : ι} (before : Visits step allowed start s) (hallowed : allowed s op)
      (hstep : step s op = .ok s') : Visits step allowed start s'

namespace Visits

variable {step : σ → ι → Except π σ} {allowed : σ → ι → Prop} {start s : σ}

/-- What holds at the start and is kept by every allowed step holds in every state. -/
theorem invariant {I : σ → Prop} (h : Visits step allowed start s) (hstart : I start)
    (hstep : ∀ s op s', I s → allowed s op → step s op = .ok s' → I s') : I s := by
  induction h with
  | start => exact hstart
  | next _ hallowed hrun ih => exact hstep _ _ _ ih hallowed hrun

theorem mono {allowed' : σ → ι → Prop} (h : Visits step allowed start s)
    (hsub : ∀ s op, allowed s op → allowed' s op) : Visits step allowed' start s := by
  induction h with
  | start => exact .start
  | next _ hallowed hrun ih => exact .next ih (hsub _ _ hallowed) hrun

end Visits

/-- Take the operations of a list, one after the other. -/
def run (step : σ → ι → Except π σ) (s : σ) : List ι → Except π σ
  | [] => .ok s
  | op :: ops => do run step (← step s op) ops

/-- What is found in a part of the state that was changed at one place. -/
theorem update_eq_cases {α β : Type} [DecidableEq α] {f : α → β} {a x : α} {b y : β}
    (h : Function.update f a b x = y) : x = a ∧ b = y ∨ x ≠ a ∧ f x = y := by
  by_cases hx : x = a
  · rw [hx, Function.update_self] at h
    exact .inl ⟨hx, h⟩
  · rw [Function.update_of_ne hx] at h
    exact .inr ⟨hx, h⟩

/-- A run that was observed to end. -/
theorem exists_of_observed {r : Except π σ}
    (h : r.map observe = .ok a) : ∃ s, r = .ok s ∧ observe s = a := by
  cases r with
  | error e => cases h
  | ok s => exact ⟨s, rfl, by simpa [Except.map] using h⟩

/-- A result that was checked. -/
theorem exists_ok (r : Except π σ) (P : σ → Prop) [∀ s, Decidable (P s)]
    (h : r.toOption.any (fun s => decide (P s)) = true) : ∃ s, r = .ok s ∧ P s := by
  cases r with
  | error e => cases h
  | ok s => exact ⟨s, rfl, of_decide_eq_true h⟩

/-- A run of operations that are allowed everywhere. -/
theorem Visits.of_run {start s s' : σ}
    (h : Visits step allowed start s) (hallowed : ∀ s, ∀ op ∈ ops, allowed s op)
    (hrun : run step s ops = .ok s') : Visits step allowed start s' := by
  induction ops generalizing s with
  | nil =>
    cases hrun
    exact h
  | cons op ops ih =>
    unfold run at hrun
    cases hstep : step s op with
    | error e =>
      rw [hstep] at hrun
      cases hrun
    | ok mid =>
      rw [hstep] at hrun
      refine ih (.next h (hallowed s op (by simp)) hstep) ?_ hrun
      exact fun t op' hop' => hallowed t op' (by simp [hop'])

/-- Take the operations of a list, as long as each is allowed where it is taken. -/
def runAllowed (step : σ → ι → Except π σ) (allowed : σ → ι → Prop)
    [∀ s op, Decidable (allowed s op)] (s : σ) : List ι → Option σ
  | [] => some s
  | op :: ops =>
    if allowed s op then
      match step s op with
      | .ok s' => runAllowed step allowed s' ops
      | .error _ => none
    else none

theorem Visits.of_runAllowed [∀ s op, Decidable (allowed s op)] {start s s' : σ}
    (h : Visits step allowed start s) (hrun : runAllowed step allowed s ops = some s') :
    Visits step allowed start s' := by
  induction ops generalizing s with
  | nil =>
    cases hrun
    exact h
  | cons op ops ih =>
    unfold runAllowed at hrun
    split_ifs at hrun with hallowed
    split at hrun
    next mid hstep => exact ih (.next h hallowed hstep) hrun
    · cases hrun

/-- A run whose end was checked. -/
theorem exists_visits (step : σ → ι → Except π σ) (allowed : σ → ι → Prop)
    [∀ s op, Decidable (allowed s op)] (start : σ) (ops : List ι) (P : σ → Prop)
    [∀ s, Decidable (P s)]
    (h : (runAllowed step allowed start ops).any (fun s => decide (P s)) = true) :
    ∃ s, Visits step allowed start s ∧ P s := by
  obtain ⟨s, hrun, hP⟩ := (Option.any_eq_true _ _).mp h
  exact ⟨s, .of_runAllowed .start hrun, of_decide_eq_true hP⟩

end Base
