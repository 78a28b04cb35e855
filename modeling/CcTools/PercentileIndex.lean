import CcTools.MathUtils

/-!
# The index of a percentile

`length - 1` is converted to `float` before it is multiplied. Below 1 the percentile makes up for what the
conversion may add; at 1 it does not (`percentileIndex_lt_iff`).
-/

namespace CcTools.MathUtils
open Rounding

section
variable {n : Nat} {p : ℚ}

/-- The largest `float` below 1. -/
theorem le_of_isFloat_lt_one (hp : IsFloat 24 p) (h1 : p < 1) : p ≤ 1 - 2 ^ (-24 : ℤ) := by
  rcases le_or_gt ((2 : ℚ) ^ (-1 : ℤ)) p with h | h
  · have hone : IsFloat 24 1 := by simpa using isFloat_zpow 24 0
    have hnorm : (2 : ℚ) ^ (-1 : ℤ) ≤ |1| := by norm_num
    have hgap := hp.add_le_of_lt hone (h.trans (le_abs_self p)) hnorm h1
    norm_num at hgap ⊢
    linarith
  · norm_num at h ⊢
    linarith

theorem roundTo_mul_le_of_le (h1 : p ≤ 1) (h : roundTo 24 n ≤ n) : roundTo 24 (roundTo 24 n * p) ≤ n := by
  have hnonneg : 0 ≤ roundTo 24 n := roundTo_nonneg (Nat.cast_nonneg n)
  exact ((isFloat_roundTo 24 n).roundTo_le (mul_le_of_le_one_right hnonneg h1)).trans h

/-- If the size was rounded up, the product with a percentile below 1 is rounded to a smaller `float`. -/
theorem roundTo_mul_le_of_lt (hp : IsFloat 24 p) (h0 : 0 < p) (h1 : p < 1) (h : n < roundTo 24 n) :
    roundTo 24 (roundTo 24 n * p) ≤ n := by
  have hn0 : n ≠ 0 := by
    rintro rfl
    simp at h
  have hlo : (2 : ℚ) ^ (Nat.log 2 n : ℤ) ≤ n := by exact_mod_cast Nat.pow_log_le_self 2 hn0
  have hhi : (n : ℚ) < 2 ^ ((Nat.log 2 n : ℤ) + 1) := by
    exact_mod_cast Nat.lt_pow_succ_log_self (by decide) n
  have hpos : (0 : ℚ) < 2 ^ (Nat.log 2 n : ℤ) := zpow_pos two_pos _
  -- half a unit in the last place
  have hhalf : (2 : ℚ) ^ ((Nat.log 2 n : ℤ) - (24 : ℕ)) = 2 ^ (Nat.log 2 n : ℤ) * 2 ^ (-24 : ℤ) := by
    rw [← zpow_add₀ two_ne_zero]
    rfl
  have hunit : (2 : ℚ) ^ ((Nat.log 2 n : ℤ) + 1 - (24 : ℕ)) = 2 * (2 ^ (Nat.log 2 n : ℤ) * 2 ^ (-24 : ℤ)) := by
    rw [← hhalf, ← zpow_one_add₀ two_ne_zero]
    congr 1
    omega
  have herr : |roundTo 24 (n : ℚ) - n| ≤ 2 ^ ((Nat.log 2 n : ℤ) - (24 : ℕ)) :=
    abs_roundTo_sub_le_of_lt (by rwa [Nat.abs_cast])
  have hF := isFloat_roundTo 24 n
  have hFle : roundTo 24 n ≤ 2 ^ ((Nat.log 2 n : ℤ) + 1) := (isFloat_zpow 24 _).roundTo_le hhi.le
  generalize roundTo 24 n = F at *
  have hF0 : 0 < F := lt_trans (by positivity) h
  have hgap : F * p < F - 2 ^ (Nat.log 2 n : ℤ) * 2 ^ (-24 : ℤ) := by
    have hle := mul_le_mul_of_nonneg_left (le_of_isFloat_lt_one hp h1) hF0.le
    have hlt := mul_lt_mul_of_pos_right (hlo.trans_lt h) (zpow_pos two_pos (-24) : (0 : ℚ) < 2 ^ (-24 : ℤ))
    linarith
  rw [hhalf] at herr
  have hFn := (abs_le.1 herr).2
  have hy0 : 0 < F * p := mul_pos hF0 h0
  have hyF : F * p < F := mul_lt_of_lt_one_right hF0 h1
  by_contra hcon
  have hng : (2 : ℚ) ^ (Nat.log 2 n : ℤ) < roundTo 24 (F * p) := hlo.trans_lt (not_le.1 hcon)
  rcases (hF.roundTo_le hyF.le).lt_or_eq with hlt | heq
  · have hstep := (isFloat_roundTo 24 (F * p)).add_le_of_lt hF (hng.le.trans (le_abs_self _))
      ((hlo.trans h.le).trans (le_abs_self _)) hlt
    rw [hunit] at hstep
    linarith
  · have herr' : |roundTo 24 (F * p) - F * p| ≤ 2 ^ ((Nat.log 2 n : ℤ) - (24 : ℕ)) :=
      abs_roundTo_sub_le_of_lt (by rw [abs_of_pos hy0]; exact hyF.trans_le hFle)
    rw [heq, hhalf, abs_of_pos (by linarith)] at herr'
    linarith

theorem percentileIndex_lt_iff (length : Nat) (p : ℚ) (hl : 1 ≤ length) (hp : IsFloat 24 p) (h0 : 0 < p)
    (h1 : p ≤ 1) : percentileIndex (roundTo 24) length p < length ↔ p < 1 ∨ RoundsDown 24 (length - 1) := by
  have hfloor : ∀ x : ℚ, x ≤ (length - 1 : Nat) → ⌊x⌋.toNat < length := by
    intro x hx
    have hle : ⌊x⌋ ≤ ((length - 1 : Nat) : ℤ) := by
      exact_mod_cast (Int.floor_le x).trans hx
    omega
  constructor
  · intro hidx
    rcases h1.lt_or_eq with hlt | rfl
    · exact .inl hlt
    · right
      obtain ⟨m, hm⟩ := exists_roundTo_natCast (p := 24) (length - 1)
      rw [percentileIndex, mul_one, (isFloat_roundTo 24 _).roundTo_eq, hm] at hidx
      rw [← roundTo_natCast_le_iff, hm]
      rw [Int.floor_natCast, Int.toNat_natCast] at hidx
      exact_mod_cast Nat.le_sub_one_of_lt hidx
  · intro hcond
    apply hfloor
    rcases le_or_gt (roundTo 24 ((length - 1 : Nat) : ℚ)) ((length - 1 : Nat) : ℚ) with hle | hgt
    · exact roundTo_mul_le_of_le h1 hle
    · rcases hcond with hlt | hdown
      · exact roundTo_mul_le_of_lt hp h0 hlt hgt
      · exact absurd (roundTo_natCast_le_iff _ |>.2 hdown) (not_le.2 hgt)

theorem percentileIndex_lt_half : percentileIndex (roundTo 24) 12 (1 / 2) < 12 :=
  (percentileIndex_lt_iff 12 (1 / 2) (by decide) ⟨1, -1, by decide, by norm_num⟩ (by norm_num) (by norm_num)).2
    (.inl (by norm_num))

/-- `2 ^ 24 + 3` lies half way between two values of `float`, and the upper one is even. -/
theorem percentileIndex_outside : ¬ percentileIndex (roundTo 24) (2 ^ 24 + 4) 1 < 2 ^ 24 + 4 := by
  decide +kernel

end

end CcTools.MathUtils
