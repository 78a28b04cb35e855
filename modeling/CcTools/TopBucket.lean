import CcTools.Histogram
import Mathlib.Algebra.BigOperators.Ring.Finset
import Mathlib.Algebra.Order.Ring.Pow

/-!
# The last bucket of the distribution

The 256 shares are rounded and so are their sums, and what they come to in the end may stay below 1. Then no
bucket reaches the tolerance 1, the search ends behind the last one, and the limit is extrapolated. Inputs
with which this cannot happen are those of `Tolerates` (`finds_buckets`).
-/

namespace CcTools.MathUtils
open Rounding

/-- The shares of the buckets, added up from the first to the last, reach `tol`. -/
def SharesReach (fl : ℚ → ℚ) (x : ℚ) (xs : List ℚ) (tol : ℚ) : Prop :=
  tol ≤ sumFrom fl 0 ((countsOf fl (rangeOf fl x xs) (x :: xs)).map (share fl (x :: xs).length))

section
variable {fl : ℚ → ℚ} {x : ℚ} {xs : List ℚ} {tolLow tolHigh : ℚ}

theorem highBin_le_iff (h : Rounds fl) :
    (stretchOf fl x xs tolLow tolHigh).highBin ≤ 255 ↔ SharesReach fl x xs tolHigh := by
  set hist := countsOf fl (rangeOf fl x xs) (x :: xs) with hhist
  have hlen : hist.length = 256 := length_countsOf
  have hend : BinarySearch.IsEnd (· < tolHigh) (cdfOf fl (x :: xs).length hist)
      (stretchOf fl x xs tolLow tolHigh).highBin := isEnd_searchBin h tolHigh
  have hlast : (cdfOf fl (x :: xs).length hist).getLast? =
      some (sumFrom fl 0 (hist.map (share fl (x :: xs).length))) := by
    rw [List.getLast?_eq_getElem?, length_cdfOf, hlen, getElem?_cdfOf h (by rw [hlen]; decide),
      List.take_of_length_le (by rw [hlen])]
  have hiff := hend.lt_length_iff
  rw [length_cdfOf, hlen, hlast, Nat.lt_succ_iff] at hiff
  rw [hiff, SharesReach]
  constructor
  · rintro ⟨y, hy, hle⟩
    obtain rfl := Option.some.inj hy
    exact not_lt.1 fun hlt => hle (decide_eq_true hlt)
  · intro hle
    exact ⟨_, rfl, fun hlt => absurd (of_decide_eq_true hlt) (not_lt.2 hle)⟩

/-- A share loses three times, by the conversions of its two numbers and by the division. -/
theorem pow_mul_le_share {n : Nat} (hn : 0 < n) (k : Nat) :
    (1 - 2 ^ (-24 : ℤ)) ^ 3 * ((k : ℚ) / n) ≤ share (roundTo 24) n k := by
  have hn' : (0 : ℚ) < n := by exact_mod_cast hn
  have hk : (0 : ℚ) ≤ k := Nat.cast_nonneg k
  have hflk : (1 - 2 ^ (-24 : ℤ)) * (k : ℚ) ≤ roundTo 24 k := one_sub_mul_le_roundTo hk
  have hfln : roundTo 24 n ≤ (1 + 2 ^ (-24 : ℤ)) * (n : ℚ) := roundTo_le_one_add_mul hn'.le
  have hposn : 0 < roundTo 24 (n : ℚ) := roundTo_pos hn'
  have hdiv : (1 - 2 ^ (-24 : ℤ)) ^ 2 * ((k : ℚ) / n) ≤ roundTo 24 k / roundTo 24 n := by
    rw [le_div_iff₀ hposn]
    have hkn : 0 ≤ (k : ℚ) / n := div_nonneg hk hn'.le
    calc
      (1 - 2 ^ (-24 : ℤ)) ^ 2 * ((k : ℚ) / n) * roundTo 24 n ≤
          (1 - 2 ^ (-24 : ℤ)) ^ 2 * ((k : ℚ) / n) * ((1 + 2 ^ (-24 : ℤ)) * n) :=
        mul_le_mul_of_nonneg_left hfln (mul_nonneg (sq_nonneg _) hkn)
      _ = (1 - 2 ^ (-24 : ℤ)) * ((1 - 2 ^ (-24 : ℤ)) * (1 + 2 ^ (-24 : ℤ))) * k := by
        field_simp
      _ ≤ (1 - 2 ^ (-24 : ℤ)) * 1 * k :=
        mul_le_mul_of_nonneg_right (by norm_num) hk
      _ ≤ roundTo 24 k := by rwa [mul_one]
  have hround := one_sub_mul_le_roundTo (p := 24) (div_nonneg (roundTo_nonneg (p := 24) hk) hposn.le)
  calc
    (1 - 2 ^ (-24 : ℤ)) ^ 3 * ((k : ℚ) / n) =
        (1 - 2 ^ (-24 : ℤ)) * ((1 - 2 ^ (-24 : ℤ)) ^ 2 * ((k : ℚ) / n)) := by ring
    _ ≤ (1 - 2 ^ (-24 : ℤ)) * (roundTo 24 k / roundTo 24 n) :=
      mul_le_mul_of_nonneg_left hdiv (by norm_num)
    _ ≤ share (roundTo 24) n k := hround

theorem pow_le_sum_shares {n : Nat} (hn : 0 < n) {hist : List Nat} (hsum : hist.sum = n) :
    (1 - 2 ^ (-24 : ℤ)) ^ 3 ≤ (hist.map (share (roundTo 24) n)).sum := by
  have hn' : (n : ℚ) ≠ 0 := by exact_mod_cast hn.ne'
  have hcast : (hist.map fun k : Nat => (k : ℚ)).sum = n := by
    rw [← hsum, Nat.cast_list_sum]
  calc
    (1 - 2 ^ (-24 : ℤ)) ^ 3 = (1 - 2 ^ (-24 : ℤ)) ^ 3 * ((hist.map fun k : Nat => (k : ℚ)).sum / n) := by
      rw [hcast, div_self hn', mul_one]
    _ = (hist.map fun k : Nat => (1 - 2 ^ (-24 : ℤ)) ^ 3 * ((k : ℚ) / n)).sum := by
      simp only [div_eq_mul_inv, List.sum_map_mul_left, List.sum_map_mul_right]
    _ ≤ (hist.map (share (roundTo 24) n)).sum := List.sum_le_sum fun k _ => pow_mul_le_share hn k

/-! ### The buckets that are not empty -/

theorem share_zero (h : Rounds fl) (n : Nat) : share fl n 0 = 0 := by
  rw [share, Nat.cast_zero, h.zero, zero_div, h.zero]

theorem length_filter_countP (g : ℚ → Nat) (data : List ℚ) (n : Nat) :
    (((List.range n).map fun k => data.countP (g · = k)).filter (· ≠ 0)).length ≤ min data.dedup.length n := by
  rw [List.filter_map, List.length_map]
  refine le_min ?_ ((List.length_filter_le _ _).trans_eq List.length_range)
  rw [← List.length_map g]
  refine (List.subperm_of_subset (List.nodup_range.filter _) fun k hk => ?_).length_le
  have hne : data.countP (g · = k) ≠ 0 := of_decide_eq_true (List.mem_filter.1 hk).2
  obtain ⟨y, hy, hyk⟩ := List.countP_pos_iff.1 (Nat.pos_of_ne_zero hne)
  exact List.mem_map.2 ⟨y, List.mem_dedup.2 hy, of_decide_eq_true hyk⟩

theorem dvd_countP {data : List ℚ} {m : Nat} (h : ∀ y ∈ data, m ∣ data.count y) (q : ℚ → Bool) : m ∣ data.countP q := by
  rw [← List.sum_map_count_dedup_filter_eq_countP]
  refine List.dvd_sum fun k hk => ?_
  obtain ⟨y, hy, rfl⟩ := List.mem_map.1 hk
  exact h y (List.mem_dedup.1 (List.mem_of_mem_filter hy))

/-- What the buckets hold that are not empty. -/
structure Parts (data : List ℚ) (parts : List Nat) : Prop where
  sum : parts.sum = data.length
  length : parts.length ≤ min data.dedup.length nbins
  dvd : ∀ m, (∀ y ∈ data, m ∣ data.count y) → ∀ k ∈ parts, m ∣ k

/-- Empty buckets take no part in the sum. -/
theorem exists_parts (hw : (rangeOf (roundTo 24) x xs).width (roundTo 24) ≠ 0) (tol : ℚ) :
    ∃ parts, Parts (x :: xs) parts ∧ (SharesReach (roundTo 24) x xs tol ↔
      tol ≤ sumFrom (roundTo 24) 0 (parts.map (share (roundTo 24) (x :: xs).length))) := by
  have hsum : (countsOf (roundTo 24) (rangeOf (roundTo 24) x xs) (x :: xs)).sum = (x :: xs).length :=
    sum_countsOf rounds_roundTo hw
  refine ⟨(countsOf (roundTo 24) (rangeOf (roundTo 24) x xs) (x :: xs)).filter (· ≠ 0), ⟨?_, ?_, ?_⟩, ?_⟩
  · rw [← hsum]
    generalize countsOf (roundTo 24) (rangeOf (roundTo 24) x xs) (x :: xs) = counts
    induction counts with
    | nil => rfl
    | cons k counts ih =>
      cases k with
      | zero => rw [List.sum_cons, zero_add, ← ih]; rfl
      | succ k => rw [List.sum_cons, ← ih]; rfl
  · exact length_filter_countP _ _ _
  · intro m hm k hk
    obtain ⟨b, -, rfl⟩ := List.mem_map.1 (List.mem_of_mem_filter hk)
    exact dvd_countP hm _
  · rw [SharesReach, sumFrom_map_filter rounds_roundTo.idem (fun k hk => ?_) rounds_roundTo.zero]
    rw [of_decide_eq_false hk |> not_not.1, share_zero rounds_roundTo]

/-! ### Inputs whose shares reach the tolerance -/

/-- `2 ^ j` groups of the same size, each of equal elements. -/
def InGroups (data : List ℚ) : Prop := ∃ m j, data.length = m * 2 ^ j ∧ ∀ y ∈ data, m ∣ data.count y

/-- What rounding takes from the shares does not show: the upper tolerance leaves room for it, or there are
only two values, or the shares are `float` values themselves. -/
def Tolerates (data : List ℚ) (tolHigh : ℚ) : Prop :=
  tolHigh ≤ 1 - (min data.dedup.length nbins + 3 : Nat) * 2 ^ (-24 : ℤ) ∨
    data.length ≤ 2 ^ 24 ∧ (data.dedup.length ≤ 2 ∨ InGroups data)

/-- Every share loses three times at most, and every sum once. -/
theorem le_sum_parts {n : Nat} (hn : 0 < n) {parts : List Nat} (hsum : parts.sum = n) {d : Nat} (hd : parts.length ≤ d) :
    1 - (d + 3 : Nat) * 2 ^ (-24 : ℤ) ≤ sumFrom (roundTo 24) 0 (parts.map (share (roundTo 24) n)) := by
  have hnonneg : ∀ y ∈ parts.map (share (roundTo 24) n), 0 ≤ y := by
    intro y hy
    rcases List.mem_map.1 hy with ⟨k, -, rfl⟩
    exact share_nonneg rounds_roundTo _ k
  have htotal := pow_mul_le_sumFrom (p := 24) le_rfl hnonneg
  rw [List.length_map, zero_add] at htotal
  have hbase : (0 : ℚ) ≤ 1 - 2 ^ (-24 : ℤ) := by norm_num
  calc
    1 - (d + 3 : Nat) * (2 : ℚ) ^ (-24 : ℤ) = 1 + (d + 3 : Nat) * -(2 : ℚ) ^ (-24 : ℤ) := by ring
    _ ≤ (1 + -(2 : ℚ) ^ (-24 : ℤ)) ^ (d + 3) := one_add_mul_le_pow (by norm_num) (d + 3)
    _ = (1 - 2 ^ (-24 : ℤ)) ^ d * (1 - 2 ^ (-24 : ℤ)) ^ 3 := by rw [← pow_add, sub_eq_add_neg]
    _ ≤ (1 - 2 ^ (-24 : ℤ)) ^ parts.length * (1 - 2 ^ (-24 : ℤ)) ^ 3 :=
      mul_le_mul_of_nonneg_right (pow_le_pow_of_le_one hbase (by norm_num) hd) (pow_nonneg hbase 3)
    _ ≤ (1 - 2 ^ (-24 : ℤ)) ^ parts.length * (parts.map (share (roundTo 24) n)).sum :=
      mul_le_mul_of_nonneg_left (pow_le_sum_shares hn hsum) (pow_nonneg hbase _)
    _ ≤ sumFrom (roundTo 24) 0 (parts.map (share (roundTo 24) n)) := htotal

/-- Up to `2 ^ 24` elements, only the division is rounded. -/
theorem share_of_le {n k : Nat} (hn : n ≤ 2 ^ 24) (hk : k ≤ n) : share (roundTo 24) n k = roundTo 24 (k / n) := by
  rw [share, (isFloat_natCast (hk.trans hn)).roundTo_eq, (isFloat_natCast hn).roundTo_eq]

theorem one_le_two_parts {n : Nat} (hn : 0 < n) (hle : n ≤ 2 ^ 24) {parts : List Nat} (hsum : parts.sum = n)
    (hlen : parts.length ≤ 2) : 1 ≤ sumFrom (roundTo 24) 0 (parts.map (share (roundTo 24) n)) := by
  have hn' : (n : ℚ) ≠ 0 := by exact_mod_cast hn.ne'
  have hpair : ∀ j k : Nat, j + k = n → 1 ≤ roundTo 24 (share (roundTo 24) n j + share (roundTo 24) n k) := by
    intro j k hjk
    rw [share_of_le hle (by omega), share_of_le hle (by omega)]
    refine one_le_roundTo_add (by positivity) (by positivity) ?_
    rw [← add_div, ← Nat.cast_add, hjk, div_self hn']
  rcases parts with _ | ⟨j, _ | ⟨k, _ | ⟨l, parts⟩⟩⟩
  · exact absurd hsum hn.ne
  · have hone := hpair 0 n (Nat.zero_add n)
    rw [share_zero rounds_roundTo] at hone
    obtain rfl : j = n := by simpa using hsum
    exact hone
  · have hfirst : roundTo 24 (0 + share (roundTo 24) n j) = share (roundTo 24) n j := by
      rw [zero_add, share, rounds_roundTo.idem]
    show 1 ≤ roundTo 24 (roundTo 24 (0 + share (roundTo 24) n j) + share (roundTo 24) n k)
    rw [hfirst]
    exact hpair j k (by simpa using hsum)
  · simp at hlen

/-- The share of `k` groups out of `2 ^ j` is a `float`. -/
theorem share_groups {m j k : Nat} (hm : 0 < m) (hn : m * 2 ^ j ≤ 2 ^ 24) (hk : k ≤ 2 ^ j) :
    share (roundTo 24) (m * 2 ^ j) (m * k) = k * 2 ^ (-j : ℤ) := by
  have hm' : (m : ℚ) ≠ 0 := by exact_mod_cast hm.ne'
  have hbits : |(k : ℤ)| ≤ 2 ^ 24 := by
    have hk' : k ≤ 2 ^ 24 := hk.trans ((Nat.le_mul_of_pos_left _ hm).trans hn)
    rw [Nat.abs_cast]
    exact_mod_cast hk'
  have hfloat : IsFloat 24 ((k : ℚ) * 2 ^ (-j : ℤ)) := ⟨k, -j, hbits, rfl⟩
  have hdiv : ((m * k : Nat) : ℚ) / (m * 2 ^ j : Nat) = k * 2 ^ (-j : ℤ) := by
    push_cast
    rw [mul_div_mul_left _ _ hm', div_eq_mul_inv, zpow_neg, zpow_natCast]
  rw [share_of_le hn (Nat.mul_le_mul_left m hk), hdiv, hfloat.roundTo_eq]

theorem one_le_groups {m j : Nat} (hn : m * 2 ^ j ≤ 2 ^ 24) (hm : 0 < m) {parts : List Nat}
    (hsum : parts.sum = m * 2 ^ j) (hdvd : ∀ k ∈ parts, m ∣ k) :
    1 ≤ sumFrom (roundTo 24) 0 (parts.map (share (roundTo 24) (m * 2 ^ j))) := by
  obtain ⟨ks, rfl⟩ : ∃ ks : List Nat, parts = ks.map (m * ·) := by
    refine ⟨parts.map (· / m), ?_⟩
    rw [List.map_map]
    exact (List.map_id _).symm.trans (List.map_congr_left fun k hk => (Nat.mul_div_cancel' (hdvd k hk)).symm)
  rw [List.sum_map_mul_left, List.map_id'] at hsum
  have hks : ks.sum = 2 ^ j := Nat.eq_of_mul_eq_mul_left hm hsum
  have hshares : (ks.map (m * ·)).map (share (roundTo 24) (m * 2 ^ j)) = ks.map fun k : ℕ => (k : ℚ) * 2 ^ (-j : ℤ) := by
    rw [List.map_map]
    refine List.map_congr_left fun k hk => share_groups hm hn ?_
    rw [← hks]
    exact List.le_sum_of_mem hk
  have hbits : 0 + ks.sum ≤ 2 ^ 24 := by
    rw [hks, zero_add]
    exact (Nat.le_mul_of_pos_left _ hm).trans hn
  have hexact := sumFrom_natCast_mul (-j : ℤ) hbits
  rw [zero_add, hks, Nat.cast_zero, zero_mul, Nat.cast_pow, Nat.cast_two, zpow_neg, zpow_natCast,
    mul_inv_cancel₀ (by positivity)] at hexact
  rw [hshares, ← hexact, zpow_neg, zpow_natCast]

theorem sharesReach_of_tolerates (hw : (rangeOf (roundTo 24) x xs).width (roundTo 24) ≠ 0) (hhigh : tolHigh ≤ 1)
    (h : Tolerates (x :: xs) tolHigh) : SharesReach (roundTo 24) x xs tolHigh := by
  have hn : 0 < (x :: xs).length := Nat.succ_pos _
  obtain ⟨parts, hparts, hiff⟩ := exists_parts hw tolHigh
  rw [hiff]
  rcases h with h | ⟨hle, htwo | ⟨m, j, hlen, hdvd⟩⟩
  · exact h.trans (le_sum_parts hn hparts.sum hparts.length)
  · exact hhigh.trans (one_le_two_parts hn hle hparts.sum ((hparts.length.trans (Nat.min_le_left _ _)).trans htwo))
  · rw [hlen] at hn hle
    have hsum := hparts.sum
    rw [hlen] at hsum ⊢
    exact hhigh.trans (one_le_groups hle (Nat.pos_of_mul_pos_right hn) hsum (hparts.dvd m hdvd))

end

/-- Both searches end inside the distribution, in their order. -/
structure FindsBuckets (data : List ℚ) (tolLow tolHigh : ℚ) (s : Stretch) : Prop where
  run : stretch (roundTo 24) data tolLow tolHigh = .ok s
  ordered : s.lowBin ≤ s.highBin
  inside : s.highBin ≤ 255

/-- The searches find their buckets where rounding takes too little from the shares to be seen. -/
theorem finds_buckets (x : ℚ) (xs : List ℚ) (tolLow tolHigh : ℚ) (hne : ∃ y ∈ x :: xs, ∃ z ∈ x :: xs, y ≠ z)
    (hlow : 0 ≤ tolLow) (hlt : tolLow < tolHigh) (hhigh : tolHigh ≤ 1) (h : Tolerates (x :: xs) tolHigh) :
    ∃ s, FindsBuckets (x :: xs) tolLow tolHigh s := by
  have hw := (width_pos rounds_roundTo hne).ne'
  have hrun := stretch_eq rounds_roundTo hw (not_badTolerances hlow hlt hhigh)
  exact ⟨_, hrun, lowBin_le_highBin rounds_roundTo hlt,
    (highBin_le_iff rounds_roundTo).2 (sharesReach_of_tolerates hw hhigh h)⟩

theorem finds_buckets_pair : ∃ s, FindsBuckets [0, 1] 0 1 s :=
  finds_buckets 0 [1] 0 1 ⟨0, by decide, 1, by decide, by decide⟩ le_rfl one_pos le_rfl
    (.inr ⟨by decide, .inl (by decide)⟩)

/-- Twelve elements in three buckets: the shares 1/12, 10/12 and 1/12 add up to less than 1. -/
theorem not_finds_buckets_twelve : ¬ ∃ s, FindsBuckets (0 :: List.replicate 10 1 ++ [2]) 0 1 s := by
  rintro ⟨s, hs, -, hin⟩
  have heval : (stretch (roundTo 24) (0 :: List.replicate 10 1 ++ [2]) 0 1).toOption.map Stretch.highBin = some 256 := by
    decide +kernel
  rw [hs] at heval
  obtain h256 : s.highBin = 256 := Option.some.inj heval
  omega

end CcTools.MathUtils
