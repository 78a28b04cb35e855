import CcTools.Histogram

/-!
# The guard against division by zero

Equal values are set apart by `1e-6f`, which is lost where the values of `float` lie further apart than
that: from 32 on, and below -32. There `strechlim` divides zero by zero (`addressable_iff`).
-/

namespace CcTools.MathUtils
open Rounding

/-- The literal `1e-6f` lies between `2 ^ -20` and `2 ^ -19`. -/
theorem roundTo_millionth :
    (1 : ℚ) / 2 ^ 20 < roundTo 24 (1 / 1000000) ∧ roundTo 24 (1 / 1000000) < (1 : ℚ) / 2 ^ 19 := by
  decide +kernel

/-- What is added to `m` is lost. -/
def Absorbs (m : ℚ) : Prop := roundTo 24 (m + roundTo 24 (1 / 1000000)) = m

section
variable {m : ℚ}

theorem absorbs_of_far (hm : IsFloat 24 m) (hfar : m < -32 ∨ 32 ≤ m) : Absorbs m := by
  obtain ⟨hlo, hhi⟩ := roundTo_millionth
  unfold Absorbs
  generalize roundTo 24 (1 / 1000000) = eps at hlo hhi
  norm_num at hlo hhi
  have hge : m ≤ roundTo 24 (m + eps) := hm.le_roundTo (by linarith)
  have hle : roundTo 24 (m + eps) ≤ m + 2 * eps := by
    have hnear := abs_roundTo_sub_le_abs hm (m + eps)
    rw [sub_add_cancel_left, abs_neg, abs_of_pos (by linarith : 0 < eps)] at hnear
    linarith [(abs_le.1 hnear).2]
  by_contra hne
  have hlt : m < roundTo 24 (m + eps) := lt_of_le_of_ne hge (Ne.symm hne)
  -- beyond 32 the next value is `2 ^ -18` away
  have hbig : (2 : ℚ) ^ (5 : ℤ) ≤ |m| ∧ (2 : ℚ) ^ (5 : ℤ) ≤ |roundTo 24 (m + eps)| := by
    rcases hfar with hneg | hpos
    · have h32 : IsFloat 24 (-32) := ⟨-1, 5, by decide, by norm_num⟩
      have hm32 : (2 : ℚ) ^ (5 : ℤ) ≤ |m| := by
        rw [abs_of_neg (by linarith)]
        norm_num
        linarith
      have hstep : m + 2 ^ ((5 : ℤ) + 1 - (24 : ℕ)) ≤ -32 := hm.add_le_of_lt h32 hm32 (by norm_num) hneg
      norm_num at hstep
      refine ⟨hm32, ?_⟩
      rw [abs_of_neg (by linarith)]
      norm_num
      linarith
    · have hf := hpos.trans hge
      rw [abs_of_pos (by linarith), abs_of_pos (by linarith)]
      norm_num
      exact ⟨hpos, hf⟩
  have hstep := hm.add_le_of_lt (isFloat_roundTo 24 (m + eps)) hbig.1 hbig.2 hlt
  norm_num at hstep
  linarith

theorem not_absorbs_of_near (hlo : -32 ≤ m) (hhi : m < 32) : ¬ Absorbs m := by
  obtain ⟨heps, -⟩ := roundTo_millionth
  unfold Absorbs
  generalize roundTo 24 (1 / 1000000) = eps at heps
  intro h
  rcases lt_or_ge (m + eps) 32 with hlt | hge
  · have herr : |roundTo 24 (m + eps) - (m + eps)| ≤ 2 ^ ((4 : ℤ) - (24 : ℕ)) := by
      apply abs_roundTo_sub_le_of_lt
      norm_num at heps ⊢
      rw [abs_lt]
      constructor <;> linarith
    rw [h, sub_add_cancel_left, abs_neg, abs_of_pos (lt_trans (by norm_num) heps)] at herr
    norm_num at herr heps
    linarith
  · have h32 : IsFloat 24 32 := ⟨1, 5, by decide, by norm_num⟩
    have hle := h32.le_roundTo hge
    linarith

theorem absorbs_iff (hm : IsFloat 24 m) : Absorbs m ↔ ¬ (-32 ≤ m ∧ m < 32) := by
  constructor
  · rintro h ⟨hlo, hhi⟩
    exact not_absorbs_of_near hlo hhi h
  · intro h
    refine absorbs_of_far hm ?_
    rcases lt_or_ge m (-32) with hlt | hge
    · exact .inl hlt
    · exact .inr (not_lt.1 fun hhi => h ⟨hge, hhi⟩)

end

/-- The divisor is a divisor, and every element has its bucket. -/
structure Addressable (x : ℚ) (xs : List ℚ) : Prop where
  divisor : (rangeOf (roundTo 24) x xs).width (roundTo 24) ≠ 0
  bins : ∀ y ∈ x :: xs, ∃ b, binOf (roundTo 24) (rangeOf (roundTo 24) x xs) y = some b ∧ 0 ≤ b ∧ b ≤ 255

section
variable {x : ℚ} {xs : List ℚ}

theorem addressable_of_width (hw : (rangeOf (roundTo 24) x xs).width (roundTo 24) ≠ 0) : Addressable x xs where
  divisor := hw
  bins y _ := by
    obtain ⟨hbin, hle⟩ := binOf_eq rounds_roundTo hw y
    exact ⟨_, hbin, by omega, by omega⟩

theorem width_eq_zero_iff (hall : ∀ y ∈ x :: xs, y = x) :
    (rangeOf (roundTo 24) x xs).width (roundTo 24) = 0 ↔ Absorbs x := by
  rw [rangeOf_of_eq hall, Range.width, roundTo_eq_zero, sub_eq_zero]
  rfl

/-- Two values differ, or their common value is near enough to zero. -/
def Separable (data : List ℚ) : Prop := (∃ y ∈ data, ∃ z ∈ data, y ≠ z) ∨ ∀ y ∈ data, -32 ≤ y ∧ y < 32

theorem width_ne_zero_iff (hdata : ∀ y ∈ x :: xs, IsFloat 24 y) :
    (rangeOf (roundTo 24) x xs).width (roundTo 24) ≠ 0 ↔ Separable (x :: xs) := by
  by_cases hne : ∃ y ∈ x :: xs, ∃ z ∈ x :: xs, y ≠ z
  · exact iff_of_true (width_pos rounds_roundTo hne).ne' (.inl hne)
  · have hall : ∀ y ∈ x :: xs, y = x := by
      intro y hy
      by_contra hyx
      exact hne ⟨y, hy, x, List.mem_cons_self .., hyx⟩
    rw [ne_eq, width_eq_zero_iff hall, absorbs_iff (hdata x (List.mem_cons_self ..)), not_not]
    constructor
    · intro h
      refine .inr fun y hy => ?_
      rw [hall y hy]
      exact h
    · rintro (h | h)
      · exact absurd h hne
      · exact h x (List.mem_cons_self ..)

end

/-- Whether a call gets through its histogram does not depend on the tolerances. -/
theorem addressable_iff (x : ℚ) (xs : List ℚ) (tolLow tolHigh : ℚ) (hdata : ∀ y ∈ x :: xs, IsFloat 24 y)
    (hlow : 0 ≤ tolLow) (hlt : tolLow < tolHigh) (hhigh : tolHigh ≤ 1) :
    (Addressable x xs ∧ ∃ r, strechlim (roundTo 24) (x :: xs) tolLow tolHigh = .ok r) ↔ Separable (x :: xs) := by
  rw [← width_ne_zero_iff hdata]
  constructor
  · exact fun h => h.1.divisor
  · exact fun hw => ⟨addressable_of_width hw, _, strechlim_eq rounds_roundTo hw (not_badTolerances hlow hlt hhigh)⟩

theorem addressable_one : Addressable 1 [] :=
  ((addressable_iff 1 [] 0 1 (by intro y hy; rw [List.mem_singleton.1 hy]; exact ⟨1, 0, by decide, by norm_num⟩)
    le_rfl one_pos le_rfl).2 (.inr (by intro y hy; rw [List.mem_singleton.1 hy]; norm_num))).1

/-- A single element of value 32. -/
theorem not_addressable_thirtytwo :
    strechlim (roundTo 24) [32] 0 1 = .error .nanToInt ∧ ¬ Addressable 32 [] := by
  refine ⟨by decide +kernel, fun h => ?_⟩
  exact h.divisor (by decide +kernel)

end CcTools.MathUtils
