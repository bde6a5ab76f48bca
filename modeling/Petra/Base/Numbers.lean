import Mathlib

/-! # Numbers that are handed out

Things have the numbers below a counter, and the next one gets the number of the counter.
-/

namespace Base

/-- A new thing that differs from the others keeps them apart. -/
theorem apart_succ {α : Type} {f f' : Nat → α} {n : Nat} (hold : ∀ u < n, f' u = f u)
    (h : ∀ u < n, ∀ v < n, f u = f v → u = v) (hnew : ∀ u < n, f u ≠ f' n) :
    ∀ u < n + 1, ∀ v < n + 1, f' u = f' v → u = v := by
  intro u hu v hv huv
  rcases Nat.lt_succ_iff_lt_or_eq.mp hu with hu | rfl
  · rw [hold u hu] at huv
    rcases Nat.lt_succ_iff_lt_or_eq.mp hv with hv | rfl
    · rw [hold v hv] at huv
      exact h u hu v hv huv
    · exact absurd huv (hnew u hu)
  · rcases Nat.lt_succ_iff_lt_or_eq.mp hv with hv | rfl
    · rw [hold v hv] at huv
      exact absurd huv.symm (hnew v hv)
    · rfl

end Base
