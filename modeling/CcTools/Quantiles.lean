import CcTools.Histogram
import Mathlib.Algebra.BigOperators.Ring.Finset
import Mathlib.Algebra.BigOperators.Ring.List

/-!
# The limits as quantiles

In exact arithmetic a value lies within half a bucket of the middle of its bucket, the clamp at
`1 - epsilon` included. So each limit is the quantile of its tolerance up to half a bucket
(`strechlim_quantiles`).
-/

namespace CcTools.MathUtils
open Rounding

/-- `r` is the `t`-quantile of `data`, up to half of one of the 255 steps between the smallest value `m`
and `m + R`. -/
structure ApproxQuantile (data : List ℚ) (m R t r : ℚ) : Prop where
  reached : t * data.length ≤ data.countP (· ≤ r + R / 510)
  notBefore : r = m ∨ data.countP (· < r - R / 510) < t * data.length

structure QuantileLimits (data : List ℚ) (tolLow tolHigh m M : ℚ) (s : Stretch) (r : ℚ × ℚ) : Prop where
  least : m ∈ data ∧ ∀ y ∈ data, m ≤ y
  greatest : M ∈ data ∧ ∀ y ∈ data, y ≤ M
  counts : s.hist.length = 256 ∧ s.hist.sum = data.length
  ordered : m ≤ r.1 ∧ r.1 ≤ r.2 ∧ r.2 ≤ M
  low : ApproxQuantile data m (M - m) tolLow r.1
  high : ApproxQuantile data m (M - m) tolHigh r.2

section
variable {r : Range} {y : ℚ}

theorem binOf_id (hlt : r.dataMin < r.dataMax) (y : ℚ) :
    binOf id r y = some ⌊min (max ((y - r.dataMin) / (r.dataMax - r.dataMin)) 0) (1 - epsilon) * 255 + 1 / 2⌋ := by
  have hw : r.width id ≠ 0 := (sub_pos.2 hlt).ne'
  rw [binOf, if_neg hw]
  rfl

/-- A value stands within half a step of its bucket. -/
theorem bucket_near (hlo : r.dataMin ≤ y) (hhi : y ≤ r.dataMax) (hlt : r.dataMin < r.dataMax) :
    (bucket id r y - 1 / 2) * (r.dataMax - r.dataMin) ≤ (y - r.dataMin) * 255 ∧
    (y - r.dataMin) * 255 ≤ (bucket id r y + 1 / 2) * (r.dataMax - r.dataMin) := by
  have hpos : 0 < r.dataMax - r.dataMin := sub_pos.2 hlt
  have hbin := (binOf_eq rounds_id hpos.ne' y).1
  rw [binOf_id hlt] at hbin
  have hfloor := Option.some.inj hbin
  set v := (y - r.dataMin) / (r.dataMax - r.dataMin) with hv
  have hv0 : 0 ≤ v := div_nonneg (sub_nonneg.2 hlo) hpos.le
  have hv1 : v ≤ 1 := (div_le_one hpos).2 (by linarith)
  have hy : (y - r.dataMin) * 255 = v * 255 * (r.dataMax - r.dataMin) := by
    rw [hv]
    field_simp
  rw [max_eq_left hv0] at hfloor
  have hle := Int.floor_le (min v (1 - epsilon) * 255 + 1 / 2)
  have hgt := Int.lt_floor_add_one (min v (1 - epsilon) * 255 + 1 / 2)
  rw [hfloor] at hle hgt
  push_cast at hle hgt
  rw [hy]
  constructor
  · refine mul_le_mul_of_nonneg_right ?_ hpos.le
    have := min_le_left v (1 - epsilon)
    linarith
  · refine mul_le_mul_of_nonneg_right ?_ hpos.le
    rcases le_or_gt v (1 - epsilon) with hsmall | hlarge
    · rw [min_eq_left hsmall] at hgt
      linarith
    · -- clamped: the value is in the last bucket
      rw [min_eq_right hlarge.le, epsilon] at hgt
      norm_num at hgt
      have h254 : (254 : ℚ) < bucket id r y := by linarith
      have h255 : (255 : ℚ) ≤ bucket id r y := by exact_mod_cast h254
      linarith

theorem limit_id (r : Range) (k : Nat) : limit id r k = r.dataMin + k / 255 * (r.dataMax - r.dataMin) := by
  show r.dataMin + (k : ℚ) / ((nbins - 1 : Nat) : ℚ) * (r.dataMax - r.dataMin) = _
  norm_num [nbins]

/-- In exact arithmetic the distribution is the part of the elements up to a bucket. -/
theorem getElem?_cdfOf_id {data : List ℚ} {k : Nat} (hk : k < nbins) :
    (cdfOf id data.length (countsOf id r data))[k]? =
      some ((data.countP (bucket id r · < k + 1) : ℚ) / data.length) := by
  rw [getElem?_cdfOf rounds_id (by rwa [length_countsOf]), sumFrom_id, zero_add]
  have hshare : share id data.length = fun c : Nat => (c : ℚ) * (data.length : ℚ)⁻¹ := rfl
  rw [hshare, List.sum_map_mul_right, ← Nat.cast_list_sum, sum_take_countsOf (Nat.succ_le_of_lt hk), div_eq_mul_inv]

variable {x : ℚ} {xs : List ℚ} {t : ℚ} {k : Nat}

/-- The limit of a bucket whose distribution is the first to reach `t`. -/
theorem approxQuantile {data : List ℚ} (hin : ∀ y ∈ data, r.dataMin ≤ y ∧ y ≤ r.dataMax)
    (hlt : r.dataMin < r.dataMax) (hdata : 0 < data.length)
    (hk : BinarySearch.IsEnd (· < t) (cdfOf id data.length (countsOf id r data)) k) (hk255 : k ≤ 255) :
    ApproxQuantile data r.dataMin (r.dataMax - r.dataMin) t (limit id r k) where
  reached := by
    have hn : (0 : ℚ) < data.length := by exact_mod_cast hdata
    have hcdf := hk.after k _ le_rfl (getElem?_cdfOf_id (Nat.lt_succ_of_le hk255))
    rw [decide_eq_true_eq, not_lt, le_div_iff₀ hn] at hcdf
    refine hcdf.trans ?_
    have hmono : data.countP (bucket id r · < k + 1) ≤
        data.countP (· ≤ limit id r k + (r.dataMax - r.dataMin) / 510) := by
      refine List.countP_mono_left fun y hy hb => ?_
      rw [decide_eq_true_eq] at hb ⊢
      have hbk : (bucket id r y : ℚ) ≤ k := by exact_mod_cast Nat.lt_succ_iff.1 hb
      have hnear := (bucket_near (hin y hy).1 (hin y hy).2 hlt).2
      have hmul := mul_le_mul_of_nonneg_right hbk (sub_pos.2 hlt).le
      rw [limit_id]
      linarith
    exact_mod_cast hmono
  notBefore := by
    rcases Nat.eq_zero_or_pos k with rfl | hpos
    · left
      rw [limit_id]
      simp
    · right
      have hn : (0 : ℚ) < data.length := by exact_mod_cast hdata
      have hcdf := hk.before (k - 1) _ (by omega) (getElem?_cdfOf_id (by unfold nbins; omega))
      rw [decide_eq_true_eq, div_lt_iff₀ hn, Nat.sub_add_cancel hpos] at hcdf
      refine lt_of_le_of_lt ?_ hcdf
      have hmono : data.countP (· < limit id r k - (r.dataMax - r.dataMin) / 510) ≤
          data.countP (bucket id r · < k) := by
        refine List.countP_mono_left fun y hy hb => ?_
        rw [decide_eq_true_eq] at hb ⊢
        by_contra hge
        have hbk : (k : ℚ) ≤ bucket id r y := by exact_mod_cast not_lt.1 hge
        have hnear := (bucket_near (hin y hy).1 (hin y hy).2 hlt).1
        have hmul := mul_le_mul_of_nonneg_right hbk (sub_pos.2 hlt).le
        rw [limit_id] at hb
        linarith
      exact_mod_cast hmono

theorem limit_mono (hlt : r.dataMin < r.dataMax) {j : Nat} (hjk : j ≤ k) : limit id r j ≤ limit id r k := by
  have hq : (j : ℚ) ≤ k := by exact_mod_cast hjk
  have hmul := mul_le_mul_of_nonneg_right hq (sub_pos.2 hlt).le
  rw [limit_id, limit_id]
  linarith

/-- In exact arithmetic the last bucket reaches every tolerance. -/
theorem highBin_le (hne : ∃ y ∈ x :: xs, ∃ z ∈ x :: xs, y ≠ z) {tolLow tolHigh : ℚ} (hhigh : tolHigh ≤ 1) :
    (stretchOf id x xs tolLow tolHigh).highBin ≤ 255 := by
  have hw := (width_pos rounds_id hne).ne'
  have hend : BinarySearch.IsEnd (· < tolHigh) _ (stretchOf id x xs tolLow tolHigh).highBin :=
    isEnd_searchBin rounds_id tolHigh
  by_contra hlt
  have hcdf := hend.before 255 _ (not_le.1 hlt) (getElem?_cdfOf_id (by decide))
  have hall : (x :: xs).countP (bucket id (rangeOf id x xs) · < 255 + 1) = (x :: xs).length := by
    rw [List.countP_eq_length]
    intro y _
    exact decide_eq_true (Nat.lt_succ_of_le (binOf_eq rounds_id hw y).2)
  have hn : ((x :: xs).length : ℚ) ≠ 0 := Nat.cast_ne_zero.2 (Nat.succ_ne_zero _)
  rw [hall, div_self hn, decide_eq_true_eq] at hcdf
  linarith

end

/-- The limits are the two quantiles up to half a bucket, and lie between the smallest and the largest value. -/
theorem strechlim_quantiles (x : ℚ) (xs : List ℚ) (tolLow tolHigh : ℚ) (hne : ∃ y ∈ x :: xs, ∃ z ∈ x :: xs, y ≠ z)
    (hlow : 0 ≤ tolLow) (hlt : tolLow < tolHigh) (hhigh : tolHigh ≤ 1) :
    ∃ s r m M, stretch id (x :: xs) tolLow tolHigh = .ok s ∧ strechlim id (x :: xs) tolLow tolHigh = .ok r ∧
      QuantileLimits (x :: xs) tolLow tolHigh m M s r := by
  have hgood := not_badTolerances hlow hlt hhigh
  have hw := (width_pos rounds_id hne).ne'
  have hrange : (rangeOf id x xs).dataMax = xs.foldl max x ∧ (rangeOf id x xs).dataMin < (rangeOf id x xs).dataMax :=
    rangeOf_dataMax hne
  have hleast := foldl_min_least x xs
  have hgreatest := foldl_max_greatest x xs
  rw [← hrange.1] at hgreatest
  have hin : ∀ y ∈ x :: xs, (rangeOf id x xs).dataMin ≤ y ∧ y ≤ (rangeOf id x xs).dataMax :=
    fun y hy => ⟨hleast.2 y hy, hgreatest.2 y hy⟩
  have hhighBin : (stretchOf id x xs tolLow tolHigh).highBin ≤ 255 := highBin_le hne hhigh
  have horder : (stretchOf id x xs tolLow tolHigh).lowBin ≤ (stretchOf id x xs tolLow tolHigh).highBin :=
    lowBin_le_highBin rounds_id hlt
  have hfirst := limit_mono hrange.2 (Nat.zero_le (stretchOf id x xs tolLow tolHigh).lowBin)
  have hlast := limit_mono hrange.2 hhighBin
  rw [limit_id] at hfirst
  rw [limit_id _ 255] at hlast
  refine ⟨_, _, (rangeOf id x xs).dataMin, (rangeOf id x xs).dataMax, stretch_eq rounds_id hw hgood,
    strechlim_eq rounds_id hw hgood, ?_⟩
  exact {
    least := hleast
    greatest := hgreatest
    counts := ⟨length_countsOf, sum_countsOf rounds_id hw⟩
    ordered := ⟨by simpa using hfirst, limit_mono hrange.2 horder, by simpa using hlast⟩
    low := approxQuantile hin hrange.2 (Nat.succ_pos _) (isEnd_searchBin rounds_id tolLow) (horder.trans hhighBin)
    high := approxQuantile hin hrange.2 (Nat.succ_pos _) (isEnd_searchBin rounds_id tolHigh) hhighBin }

theorem strechlim_quantiles_pair :
    ∃ s r m M, stretch id [0, 1] 0 1 = .ok s ∧ strechlim id [0, 1] 0 1 = .ok r ∧
      QuantileLimits [0, 1] 0 1 m M s r :=
  strechlim_quantiles 0 [1] 0 1 ⟨0, by simp, 1, by simp, by norm_num⟩ (by norm_num) (by norm_num) (by norm_num)

end CcTools.MathUtils
