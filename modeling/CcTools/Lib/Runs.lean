import Mathlib.Data.List.Basic

/-!
# Runs of a deterministic machine

`run step s is` is the state a machine reaches from `s` on the inputs `is`. `EveryState P` and
`EveryStep C` say that `P` holds in every state of a run, and `C` of every state the run passes
together with the input it meets there.
-/

namespace Runs

section
variable {σ ι : Type*} (step : σ → ι → σ)

def run (s : σ) (is : List ι) : σ := is.foldl step s

def EveryState (P : σ → Prop) : σ → List ι → Prop
  | s, [] => P s
  | s, i :: is => P s ∧ EveryState P (step s i) is

def EveryStep (C : σ → ι → Prop) : σ → List ι → Prop
  | _, [] => True
  | s, i :: is => C s i ∧ EveryStep C (step s i) is

/-- Inputs are taken as long as `stop` is false; what is left of them is returned beside the state. -/
def runUntil (stop : σ → Bool) : σ → List ι → σ × List ι
  | s, [] => (s, [])
  | s, i :: is => if stop s then (s, i :: is) else runUntil stop (step s i) is

def Reachable (s₀ s : σ) : Prop := ∃ is, run step s₀ is = s

variable {step} {P : σ → Prop} {C : σ → ι → Prop} {s : σ} {is : List ι}

@[simp] theorem run_nil : run step s [] = s := rfl

@[simp] theorem run_cons (i : ι) : run step s (i :: is) = run step (step s i) is := rfl

/-- An invariant of the steps of a run, each of which may use its input and its side condition. -/
theorem EveryStep.run_inv (hC : EveryStep step C s is)
    (hstep : ∀ s, P s → ∀ i ∈ is, C s i → P (step s i)) (h : P s) : P (run step s is) := by
  induction is generalizing s with
  | nil => exact h
  | cons i is ih =>
    exact ih hC.2 (fun s hs j hj => hstep s hs j (List.mem_cons_of_mem i hj))
      (hstep s h i (List.mem_cons_self ..) hC.1)

theorem everyStep_of_inv (hstep : ∀ s, P s → ∀ i ∈ is, P (step s i)) (hC : ∀ s, P s → ∀ i ∈ is, C s i)
    (h : P s) : EveryStep step C s is := by
  induction is generalizing s with
  | nil => trivial
  | cons i is ih =>
    refine ⟨hC s h i (List.mem_cons_self ..), ih ?_ ?_ (hstep s h i (List.mem_cons_self ..))⟩
    · exact fun s hs j hj => hstep s hs j (List.mem_cons_of_mem i hj)
    · exact fun s hs j hj => hC s hs j (List.mem_cons_of_mem i hj)

theorem everyState_of_inv {Q : σ → Prop} (hstep : ∀ s, P s → ∀ i ∈ is, P (step s i)) (hQ : ∀ s, P s → Q s)
    (h : P s) : EveryState step Q s is := by
  induction is generalizing s with
  | nil => exact hQ s h
  | cons i is ih =>
    exact ⟨hQ s h, ih (fun s hs j hj => hstep s hs j (List.mem_cons_of_mem i hj))
      (hstep s h i (List.mem_cons_self ..))⟩

theorem EveryState.imp {Q : σ → Prop} (hP : EveryState step P s is) (himp : ∀ s, P s → Q s) :
    EveryState step Q s is := by
  induction is generalizing s with
  | nil => exact himp s hP
  | cons i is ih => exact ⟨himp s hP.1, ih hP.2⟩

/-- What the side condition of a step says of its input alone. -/
theorem EveryStep.forall_mem {D : ι → Prop} (hC : EveryStep step C s is)
    (hstep : ∀ s, P s → ∀ i, P (step s i)) (hD : ∀ s, P s → ∀ i ∈ is, C s i → D i) (h : P s) :
    ∀ i ∈ is, D i := by
  induction is generalizing s with
  | nil => simp
  | cons i is ih =>
    intro j hj
    rcases List.mem_cons.1 hj with rfl | hj
    · exact hD s h j (List.mem_cons_self ..) hC.1
    · exact ih hC.2 (fun s hs k hk => hD s hs k (List.mem_cons_of_mem i hk)) (hstep s h i) j hj

theorem run_inv (hstep : ∀ s, P s → ∀ i ∈ is, P (step s i)) (h : P s) : P (run step s is) :=
  (everyStep_of_inv (C := fun _ _ => True) hstep (fun _ _ _ _ => trivial) h).run_inv
    (fun s hs i hi _ => hstep s hs i hi) h

theorem EveryStep.imp {C' : σ → ι → Prop} (hC : EveryStep step C s is)
    (hstep : ∀ s, P s → ∀ i, C s i → P (step s i)) (himp : ∀ s, P s → ∀ i, C s i → C' s i) (h : P s) :
    EveryStep step C' s is := by
  induction is generalizing s with
  | nil => trivial
  | cons i is ih => exact ⟨himp s h i hC.1, ih hC.2 (hstep s h i hC.1)⟩

theorem everyStep_of_forall (h : ∀ s, ∀ i ∈ is, C s i) : EveryStep step C s is :=
  everyStep_of_inv (P := fun _ => True) (fun _ _ _ _ => trivial) (fun s _ => h s) trivial

/-- An invariant that the steps keep under their side condition holds all along. -/
theorem EveryStep.everyState (hC : EveryStep step C s is) (hstep : ∀ s, P s → ∀ i, C s i → P (step s i))
    (h : P s) : EveryState step P s is := by
  induction is generalizing s with
  | nil => exact h
  | cons i is ih => exact ⟨h, ih hC.2 (hstep s h i hC.1)⟩

theorem EveryStep.and {C' : σ → ι → Prop} (hC : EveryStep step C s is) (hC' : EveryStep step C' s is) :
    EveryStep step (fun s i => C s i ∧ C' s i) s is := by
  induction is generalizing s with
  | nil => trivial
  | cons i is ih => exact ⟨⟨hC.1, hC'.1⟩, ih hC.2 hC'.2⟩

/-- A condition on every step, told by what came before the step. -/
theorem everyStep_iff_forall_split :
    EveryStep step C s is ↔ ∀ pre i post, is = pre ++ i :: post → C (run step s pre) i := by
  induction is generalizing s with
  | nil => simp [EveryStep]
  | cons j is ih =>
    rw [EveryStep, ih]
    constructor
    · rintro ⟨hj, hrest⟩ pre i post heq
      cases pre with
      | nil =>
        cases heq
        exact hj
      | cons k pre =>
        cases heq
        exact hrest pre i post rfl
    · intro h
      refine ⟨h [] j is rfl, fun pre i post heq => ?_⟩
      subst heq
      exact h (j :: pre) i post rfl

theorem EveryStep.append_left {js : List ι} (hC : EveryStep step C s (is ++ js)) : EveryStep step C s is := by
  rw [everyStep_iff_forall_split] at hC ⊢
  rintro pre i post rfl
  exact hC pre i (post ++ js) (by simp)

/-- Two step conditions that agree wherever an invariant holds. -/
theorem everyStep_congr {J : σ → Prop} {C' : σ → ι → Prop} (hJ : ∀ s, J s → ∀ i, J (step s i))
    (h : ∀ s, J s → ∀ i, (C s i ↔ C' s i)) (h0 : J s) : EveryStep step C s is ↔ EveryStep step C' s is := by
  induction is generalizing s with
  | nil => exact Iff.rfl
  | cons i is ih => exact and_congr (h s h0 i) (ih (hJ s h0 i))

/-- A property holds in every state of a run exactly when every step meets the condition under which
it is kept. -/
theorem everyState_iff_everyStep {J : σ → Prop} (hJ : ∀ s, J s → ∀ i, J (step s i))
    (h : ∀ s, J s → P s → ∀ i, (P (step s i) ↔ C s i)) (h0 : J s) (hP : P s) :
    EveryState step P s is ↔ EveryStep step C s is := by
  induction is generalizing s with
  | nil => exact ⟨fun _ => trivial, fun _ => hP⟩
  | cons i is ih =>
    constructor
    · rintro ⟨-, hrest⟩
      have hnext : P (step s i) := by
        cases is with
        | nil => exact hrest
        | cons => exact hrest.1
      exact ⟨(h s h0 hP i).1 hnext, (ih (hJ s h0 i) hnext).1 hrest⟩
    · rintro ⟨hc, hrest⟩
      exact ⟨hP, (ih (hJ s h0 i) ((h s h0 hP i).2 hc)).2 hrest⟩

theorem runUntil_of_stop {stop : σ → Bool} (h : stop s = true) : runUntil step stop s is = (s, is) := by
  cases is with
  | nil => rfl
  | cons i is => rw [runUntil, if_pos h]

/-- The run stops at the first state where `stop` is true, or with the last input. -/
theorem runUntil_split (step : σ → ι → σ) (stop : σ → Bool) (s : σ) (is : List ι) : ∃ pre rest, is = pre ++ rest ∧
    runUntil step stop s is = (run step s pre, rest) ∧ (rest = [] ∨ stop (run step s pre) = true) ∧
      ∀ q i q', pre = q ++ i :: q' → stop (run step s q) = false := by
  induction is generalizing s with
  | nil => exact ⟨[], [], rfl, rfl, .inl rfl, fun q i q' heq => by simp at heq⟩
  | cons i is ih =>
    cases hs : stop s with
    | true =>
      exact ⟨[], i :: is, rfl, runUntil_of_stop hs, .inr hs, fun q j q' heq => by simp at heq⟩
    | false =>
      obtain ⟨pre, rest, rfl, hrun, hstop, hbefore⟩ := ih (step s i)
      refine ⟨i :: pre, rest, rfl, by rw [runUntil, hs]; exact hrun, hstop, fun q j q' heq => ?_⟩
      cases q with
      | nil => exact hs
      | cons k q =>
        cases heq
        exact hbefore q j q' rfl

/-- One machine follows another: what relates their states before a step does so behind it. -/
theorem run_rel {τ : Type*} {step' : τ → ι → τ} {R : σ → τ → Prop} {t : τ}
    (hstep : ∀ s t, R s t → ∀ i, R (step s i) (step' t i)) (is : List ι) (h : R s t) : R (run step s is) (run step' t is) := by
  induction is generalizing s t with
  | nil => exact h
  | cons i is ih => exact ih (hstep s t h i)

theorem reachable_run (s₀ : σ) (is : List ι) : Reachable step s₀ (run step s₀ is) := ⟨is, rfl⟩

end

section
variable {σ ι ο : Type*} (step : σ → ι → σ) (out : σ → ι → ο)

/-- What a machine answers to the inputs of a run. -/
def outputs : σ → List ι → List ο
  | _, [] => []
  | s, i :: is => out s i :: outputs (step s i) is

variable {step out}

/-- Related states that answer alike and stay related cannot be told apart. -/
theorem outputs_congr {R : σ → σ → Prop} (hout : ∀ s t, R s t → ∀ i, out s i = out t i)
    (hstep : ∀ s t, R s t → ∀ i, R (step s i) (step t i)) {s t : σ} (h : R s t) (is : List ι) :
    outputs step out s is = outputs step out t is := by
  induction is generalizing s t with
  | nil => rfl
  | cons i is ih => rw [outputs, outputs, hout s t h i, ih (hstep s t h i)]

end

end Runs
