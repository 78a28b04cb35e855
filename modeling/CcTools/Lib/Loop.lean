import Mathlib.Data.List.Basic

/-!
# Loops that may not end

The body of a `while` loop is a function to `Option`, `none` where the test of the loop fails. `run step
n s` follows the loop through at most `n` tests.
-/

namespace Loop

section
variable {σ : Type*} (step : σ → Option σ)

def run : Nat → σ → Option σ
  | 0, _ => none
  | n + 1, s =>
    match step s with
    | none => some s
    | some s' => run n s'

/-- The loop ends if started in `s`. -/
def Ends (s : σ) : Prop := ∃ n r, run step n s = some r

variable {step} {s r : σ} {n : Nat}

theorem run_exit (h : step s = none) : run step (n + 1) s = some s := by
  rw [run, h]

theorem run_next {s' : σ} (h : step s = some s') : run step (n + 1) s = run step n s' := by
  rw [run, h]

/-- A measure that every iteration lowers bounds the number of iterations. -/
theorem exists_run (μ : σ → Nat) (hdec : ∀ s s', step s = some s' → μ s' < μ s) (h : μ s < n) :
    ∃ r, run step n s = some r := by
  induction n generalizing s with
  | zero => exact absurd h (Nat.not_lt_zero _)
  | succ n ih =>
    cases hs : step s with
    | none => exact ⟨s, run_exit hs⟩
    | some s' =>
      rw [run_next hs]
      exact ih (Nat.lt_of_lt_of_le (hdec s s' hs) (Nat.le_of_lt_succ h))

/-- A loop that always finds another iteration does not end. -/
theorem not_ends {P : σ → Prop} (hstep : ∀ s, P s → ∃ s', step s = some s' ∧ P s') (h : P s) : ¬ Ends step s := by
  rintro ⟨n, r, hr⟩
  induction n generalizing s with
  | zero => cases hr
  | succ n ih =>
    obtain ⟨s', hs, hP⟩ := hstep s h
    rw [run_next hs] at hr
    exact ih hP hr

end
end Loop
