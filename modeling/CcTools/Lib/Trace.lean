import Mathlib.Data.List.Basic

/-!
# Traces of a labelled system

`Trace step s as s'`: the system goes from `s` to `s'` through the labels `as`. A forward simulation
carries the traces of one system to another, label by label.
-/

inductive Trace {σ ℓ : Type*} (step : σ → ℓ → σ → Prop) : σ → List ℓ → σ → Prop
  | nil (s : σ) : Trace step s [] s
  | cons {s s' s'' : σ} {a : ℓ} {as : List ℓ} : step s a s' → Trace step s' as s'' → Trace step s (a :: as) s''

namespace Trace
variable {σ τ ℓ : Type*} {step : σ → ℓ → σ → Prop} {s s' : σ} {as bs : List ℓ}

theorem split (h : Trace step s (as ++ bs) s') : ∃ m, Trace step s as m ∧ Trace step m bs s' := by
  induction as generalizing s with
  | nil => exact ⟨s, .nil s, h⟩
  | cons a as ih =>
    cases h with
    | cons hstep hrest =>
      obtain ⟨m, hm, hbs⟩ := ih hrest
      exact ⟨m, .cons hstep hm, hbs⟩

theorem split_last {a : ℓ} (h : Trace step s (as ++ [a]) s') : ∃ m, Trace step s as m ∧ step m a s' := by
  obtain ⟨m, hm, hlast⟩ := h.split
  cases hlast with
  | cons hstep hnil =>
    cases hnil
    exact ⟨m, hm, hstep⟩

/-- What every step of the first system does is a step of the second, between related states. -/
def Simulates (step : σ → ℓ → σ → Prop) (step' : τ → ℓ → τ → Prop) (R : σ → τ → Prop) : Prop :=
  ∀ s t a s', R s t → step s a s' → ∃ t', step' t a t' ∧ R s' t'

theorem simulate {step' : τ → ℓ → τ → Prop} {R : σ → τ → Prop} {t : τ} (hsim : Simulates step step' R)
    (h : Trace step s as s') (hst : R s t) : ∃ t', Trace step' t as t' ∧ R s' t' := by
  induction h generalizing t with
  | nil => exact ⟨t, .nil t, hst⟩
  | cons hab _ ih =>
    obtain ⟨t', ht, hr⟩ := hsim _ _ _ _ hst hab
    obtain ⟨t'', ht', hr'⟩ := ih hr
    exact ⟨t'', .cons ht ht', hr'⟩

end Trace
