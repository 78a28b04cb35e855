import Mathlib.Data.List.Basic

/-!
# Greedy reading

A reader takes elements off the front of its input as long as its transition function accepts them
(`munch`), or as long as they satisfy a predicate (`List.takeWhile`). It reads exactly `t` off `t ++ s` if
it accepts `t` and the first element of `s` does not continue it.
-/

namespace Munch

section
variable {σ α : Type*} {step : σ → α → Option σ} {q q' : σ} {s t : List α}

/-- What is read from state `q` on, and what is left. -/
def munch (step : σ → α → Option σ) : σ → List α → List α × List α
  | _, [] => ([], [])
  | q, c :: s =>
    match step q c with
    | none => ([], c :: s)
    | some q' => (c :: (munch step q' s).1, (munch step q' s).2)

theorem munch_append (step : σ → α → Option σ) (q : σ) (s : List α) : (munch step q s).1 ++ (munch step q s).2 = s := by
  induction s generalizing q with
  | nil => rfl
  | cons c s ih =>
    rw [munch]
    cases step q c with
    | none => rfl
    | some q' => exact congrArg (c :: ·) (ih q')

theorem munch_of_refused (h : ∀ c ∈ s.head?, step q c = none) : munch step q s = ([], s) := by
  cases s with
  | nil => rfl
  | cons c s => rw [munch, h c rfl]

theorem run_cons {c : α} (h : step q c = some q') : (c :: s).foldlM step q = s.foldlM step q' := by
  rw [List.foldlM_cons, h]
  rfl

theorem run_append (h : t.foldlM step q = some q') : (t ++ s).foldlM step q = s.foldlM step q' := by
  rw [List.foldlM_append, h]
  rfl

/-- The reader accepts `t` and is in state `q'` then. -/
theorem munch_run (ht : t.foldlM step q = some q') (hs : ∀ c ∈ s.head?, step q' c = none) :
    munch step q (t ++ s) = (t, s) := by
  induction t generalizing q with
  | nil =>
    obtain rfl : q = q' := Option.some.inj ht
    exact munch_of_refused hs
  | cons c t ih =>
    rw [List.foldlM_cons] at ht
    obtain ⟨q₁, hstep, hrun⟩ := Option.bind_eq_some_iff.1 ht
    rw [List.cons_append, munch, hstep]
    simp only [ih hrun]

/-- What no state accepts is left, with all that follows it. -/
theorem munch_append_refused (hs : ∀ q, ∀ c ∈ s.head?, step q c = none) :
    munch step q (t ++ s) = ((munch step q t).1, (munch step q t).2 ++ s) := by
  induction t generalizing q with
  | nil => exact munch_of_refused (hs q)
  | cons c t ih =>
    rw [List.cons_append, munch, munch]
    cases step q c with
    | none => rfl
    | some q' => simp only [ih]

/-- Letters that mean the same are read alike. -/
theorem munch_map {f : α → α} (hf : ∀ q c, step q (f c) = step q c) :
    munch step q (s.map f) = ((munch step q s).1.map f, (munch step q s).2.map f) := by
  induction s generalizing q with
  | nil => rfl
  | cons c s ih =>
    rw [List.map_cons, munch, munch, hf]
    cases step q c with
    | none => rfl
    | some q' => simp only [ih, List.map_cons]

end

section
variable {α : Type*} {p : α → Bool} {s t : List α}

theorem takeWhile_run (ht : ∀ c ∈ t, p c) (hs : ∀ c ∈ s.head?, ¬ p c) : (t ++ s).takeWhile p = t := by
  rw [List.takeWhile_append_of_pos ht]
  cases s with
  | nil => exact List.append_nil t
  | cons c s => rw [List.takeWhile_cons_of_neg (hs c rfl), List.append_nil]

theorem dropWhile_run (ht : ∀ c ∈ t, p c) (hs : ∀ c ∈ s.head?, ¬ p c) : (t ++ s).dropWhile p = s := by
  rw [List.dropWhile_append_of_pos ht]
  cases s with
  | nil => rfl
  | cons c s => exact List.dropWhile_cons_of_neg (hs c rfl)

end

end Munch
