import CcTools.MathUtils

/-!
# The histogram and its distribution

What `strechlim` computes on the way to its limits, for every rounding that is monotone and fixes the
`float` values (`Rounds`): exact arithmetic is one of them. The counts are those of the buckets, the
distribution is sorted, and so the two searches find its ends.
-/

namespace CcTools.MathUtils
open Rounding

structure Rounds (fl : ℚ → ℚ) : Prop where
  mono : Monotone fl
  idem : ∀ x, fl (fl x) = fl x
  fixes : ∀ x, IsFloat 24 x → fl x = x
  pos : ∀ x, 0 < x → 0 < fl x

theorem rounds_id : Rounds id := ⟨monotone_id, fun _ => rfl, fun _ _ => rfl, fun _ h => h⟩

theorem rounds_roundTo : Rounds (roundTo 24) where
  mono := roundTo_mono 24
  idem x := (isFloat_roundTo 24 x).roundTo_eq
  fixes _ h := h.roundTo_eq
  pos _ h := roundTo_pos h

namespace Rounds
variable {fl : ℚ → ℚ} {x y : ℚ}

theorem zero (h : Rounds fl) : fl 0 = 0 := h.fixes 0 isFloat_zero

theorem nonneg (h : Rounds fl) (hx : 0 ≤ x) : 0 ≤ fl x := h.zero.symm.trans_le (h.mono hx)

theorem le_of_fixed (h : Rounds fl) (hy : IsFloat 24 y) (hxy : x ≤ y) : fl x ≤ y :=
  (h.mono hxy).trans_eq (h.fixes y hy)

theorem ge_of_fixed (h : Rounds fl) (hy : IsFloat 24 y) (hxy : y ≤ x) : y ≤ fl x :=
  (h.fixes y hy).symm.trans_le (h.mono hxy)

end Rounds

/-! ### The buckets -/

section
variable (fl : ℚ → ℚ) (r : Range)

/-- The index of the bucket of `x`. -/
def bucket (x : ℚ) : Nat := ((binOf fl r x).getD 0).toNat

variable {fl r} {data : List ℚ} {x : ℚ}

/-- Whatever the value is: after the clamp, 255.5 is not exceeded. -/
theorem binOf_eq (h : Rounds fl) (hw : r.width fl ≠ 0) (x : ℚ) :
    binOf fl r x = some (bucket fl r x : ℤ) ∧ bucket fl r x ≤ 255 := by
  have hhalf : IsFloat 24 (1 / 2) := ⟨1, -1, by decide, by norm_num⟩
  have htop : IsFloat 24 (511 / 2) := ⟨511, -1, by decide, by norm_num⟩
  have hone : IsFloat 24 1 := ⟨1, 0, by decide, by norm_num⟩
  have hmax : IsFloat 24 255 := ⟨255, 0, by decide, by norm_num⟩
  unfold bucket binOf
  rw [if_neg hw]
  dsimp only
  set v := min (max (fl (fl (x - r.dataMin) / r.width fl)) 0) (fl (1 - epsilon)) with hv
  have hv0 : 0 ≤ v := le_min (le_max_right _ _) (h.nonneg (by norm_num [epsilon]))
  have hv1 : v ≤ 1 := (min_le_right _ _).trans (h.le_of_fixed hone (by norm_num [epsilon]))
  have hm0 : 0 ≤ fl (v * (nbins - 1 : Nat)) := h.nonneg (by positivity)
  have hm1 : fl (v * (nbins - 1 : Nat)) ≤ 255 := by
    refine h.le_of_fixed hmax ?_
    norm_num [nbins]
    linarith
  have hs0 : 1 / 2 ≤ fl (fl (v * (nbins - 1 : Nat)) + 1 / 2) := h.ge_of_fixed hhalf (by linarith)
  have hs1 : fl (fl (v * (nbins - 1 : Nat)) + 1 / 2) ≤ 511 / 2 := h.le_of_fixed htop (by linarith)
  have hb0 : 0 ≤ ⌊fl (fl (v * (nbins - 1 : Nat)) + 1 / 2)⌋ := Int.floor_nonneg.2 (by linarith)
  have hb1 : ⌊fl (fl (v * (nbins - 1 : Nat)) + 1 / 2)⌋ < 256 := Int.floor_lt.2 (by push_cast; linarith)
  simp only [Option.getD_some]
  rw [Int.toNat_of_nonneg hb0]
  exact ⟨rfl, by omega⟩

theorem tally_eq {hist : List Nat} {b : Nat} (hb : b < hist.length) :
    tally hist b = .ok (hist.modify b (· + 1)) := by
  have hin : (0 : ℤ) ≤ b ∧ (b : ℤ) < hist.length := ⟨by omega, by omega⟩
  rw [tally, if_pos hin]
  rfl

theorem countValue_eq (h : Rounds fl) (hw : r.width fl ≠ 0) {hist : List Nat} (hlen : hist.length = nbins) (x : ℚ) :
    countValue fl r hist x = .ok (hist.modify (bucket fl r x) (· + 1)) := by
  obtain ⟨hbin, hle⟩ := binOf_eq h hw x
  rw [countValue, hbin]
  exact tally_eq (by rw [hlen]; exact Nat.lt_succ_of_le hle)

theorem foldlM_countValue (h : Rounds fl) (hw : r.width fl ≠ 0) {hist : List Nat} (hlen : hist.length = nbins) :
    data.foldlM (countValue fl r) hist =
      .ok (hist.mapIdx fun k c => c + data.countP (bucket fl r · = k)) := by
  induction data generalizing hist with
  | nil =>
    have hid : hist.mapIdx (fun k c => c + ([] : List ℚ).countP (bucket fl r · = k)) = hist := by
      apply List.ext_getElem?
      intro k
      rw [List.getElem?_mapIdx]
      simp
    rw [hid]
    rfl
  | cons x data ih =>
    rw [List.foldlM_cons, countValue_eq h hw hlen]
    show List.foldlM _ (hist.modify (bucket fl r x) (· + 1)) data = _
    rw [ih (by rwa [List.length_modify])]
    congr 1
    apply List.ext_getElem?
    intro k
    rw [List.getElem?_mapIdx, List.getElem?_mapIdx, List.getElem?_modify, List.countP_cons]
    cases hist[k]? with
    | none => rfl
    | some c =>
      by_cases hk : bucket fl r x = k
      · simp [hk]
        omega
      · simp [hk]

/-- How many elements fall into each bucket. -/
def countsOf (fl : ℚ → ℚ) (r : Range) (data : List ℚ) : List Nat :=
  (List.range nbins).map fun k => data.countP (bucket fl r · = k)

@[simp] theorem length_countsOf : (countsOf fl r data).length = nbins := by simp [countsOf]

theorem histogram_eq (h : Rounds fl) (hw : r.width fl ≠ 0) : histogram fl r data = .ok (countsOf fl r data) := by
  rw [histogram, foldlM_countValue h hw (List.length_replicate ..)]
  refine congrArg Except.ok (List.ext_getElem? ?_)
  intro k
  rw [List.getElem?_mapIdx, List.getElem?_replicate, countsOf, List.getElem?_map]
  by_cases hk : k < nbins
  · rw [if_pos hk, List.getElem?_range hk]
    simp
  · rw [if_neg hk, List.getElem?_eq_none (by simpa using hk)]
    rfl

theorem countP_lt_succ (g : ℚ → Nat) (data : List ℚ) (n : Nat) :
    data.countP (g · < n + 1) = data.countP (g · < n) + data.countP (g · = n) := by
  induction data with
  | nil => rfl
  | cons x data ih =>
    simp only [List.countP_cons, ih, decide_eq_true_eq]
    split_ifs <;> omega

theorem sum_countP (g : ℚ → Nat) (data : List ℚ) (n : Nat) :
    ((List.range n).map fun k => data.countP (g · = k)).sum = data.countP (g · < n) := by
  induction n with
  | zero => simp
  | succ n ih =>
    rw [List.range_succ, List.map_append, List.sum_append, ih, countP_lt_succ, List.map_singleton,
      List.sum_singleton]

theorem sum_take_countsOf {k : Nat} (hk : k ≤ nbins) :
    ((countsOf fl r data).take k).sum = data.countP (bucket fl r · < k) := by
  rw [countsOf, ← List.map_take, List.take_range, min_eq_left hk, sum_countP]

theorem sum_countsOf (h : Rounds fl) (hw : r.width fl ≠ 0) : (countsOf fl r data).sum = data.length := by
  rw [countsOf, sum_countP, List.countP_eq_length]
  intro x _
  exact decide_eq_true (Nat.lt_succ_of_le (binOf_eq h hw x).2)

end

/-! ### The range -/

section
variable {fl : ℚ → ℚ} {x : ℚ} {xs : List ℚ}

theorem foldl_min_least (x : ℚ) (xs : List ℚ) : xs.foldl min x ∈ x :: xs ∧ ∀ y ∈ x :: xs, xs.foldl min x ≤ y :=
  List.min?_eq_some_iff.1 List.min?_cons'

theorem foldl_max_greatest (x : ℚ) (xs : List ℚ) : xs.foldl max x ∈ x :: xs ∧ ∀ y ∈ x :: xs, y ≤ xs.foldl max x :=
  List.max?_eq_some_iff.1 List.max?_cons'

/-- Where two elements differ, the guard does nothing. -/
theorem rangeOf_dataMax (h : ∃ y ∈ x :: xs, ∃ z ∈ x :: xs, y ≠ z) :
    (rangeOf fl x xs).dataMax = xs.foldl max x ∧ (rangeOf fl x xs).dataMin < (rangeOf fl x xs).dataMax := by
  have hlt : xs.foldl min x < xs.foldl max x := by
    obtain ⟨y, hy, z, hz, hne⟩ := h
    by_contra hle
    have hy1 := (foldl_min_least x xs).2 y hy
    have hy2 := (foldl_max_greatest x xs).2 y hy
    have hz1 := (foldl_min_least x xs).2 z hz
    have hz2 := (foldl_max_greatest x xs).2 z hz
    exact hne (by linarith)
  have heq : (rangeOf fl x xs).dataMax = xs.foldl max x := if_neg (not_le.2 hlt)
  rw [heq]
  exact ⟨rfl, hlt⟩

theorem rangeOf_of_eq (h : ∀ y ∈ x :: xs, y = x) :
    rangeOf fl x xs = { dataMin := x, dataMax := fl (x + fl (1 / 1000000)) } := by
  have hmin : xs.foldl min x = x := h _ (foldl_min_least x xs).1
  have hmax : xs.foldl max x = x := h _ (foldl_max_greatest x xs).1
  rw [rangeOf, hmin, hmax, if_pos le_rfl]

theorem width_pos (h : Rounds fl) (hne : ∃ y ∈ x :: xs, ∃ z ∈ x :: xs, y ≠ z) : 0 < (rangeOf fl x xs).width fl :=
  h.pos _ (sub_pos.2 (rangeOf_dataMax hne).2)

end

/-! ### The distribution -/

section
variable {fl : ℚ → ℚ} {n k : Nat} {hist : List Nat}

theorem share_nonneg (h : Rounds fl) (n k : Nat) : 0 ≤ share fl n k :=
  h.nonneg (div_nonneg (h.nonneg (Nat.cast_nonneg k)) (h.nonneg (Nat.cast_nonneg n)))

@[simp] theorem length_accumulate (last : ℚ) : (accumulate fl n last hist).length = hist.length := by
  induction hist generalizing last with
  | nil => rfl
  | cons c hist ih => simp [accumulate, ih]

theorem getElem?_accumulate (last : ℚ) (hk : k < hist.length) :
    (accumulate fl n last hist)[k]? = some (sumFrom fl last ((hist.take (k + 1)).map (share fl n))) := by
  induction hist generalizing last k with
  | nil => simp at hk
  | cons c hist ih =>
    cases k with
    | zero => simp [accumulate, sumFrom]
    | succ k => exact ih _ (Nat.lt_of_succ_lt_succ hk)

/-- The distribution holds the rounded partial sums of the shares. -/
theorem getElem?_cdfOf (h : Rounds fl) (hk : k < hist.length) :
    (cdfOf fl n hist)[k]? = some (sumFrom fl 0 ((hist.take (k + 1)).map (share fl n))) := by
  cases hist with
  | nil => simp at hk
  | cons c hist =>
    have hfirst : fl (0 + share fl n c) = share fl n c := by rw [zero_add, share, h.idem]
    cases k with
    | zero => simp [cdfOf, sumFrom, share, h.idem]
    | succ k =>
      have hrest : (accumulate fl n (share fl n c) hist)[k]? =
          some (sumFrom fl (share fl n c) ((hist.take (k + 1)).map (share fl n))) :=
        getElem?_accumulate _ (Nat.lt_of_succ_lt_succ hk)
      rw [cdfOf, List.getElem?_cons_succ, hrest, List.take_succ_cons, List.map_cons, sumFrom, sumFrom, List.foldl_cons,
        hfirst]

@[simp] theorem length_cdfOf : (cdfOf fl n hist).length = hist.length := by
  cases hist with
  | nil => rfl
  | cons c hist => simp [cdfOf]

theorem pairwise_accumulate (h : Rounds fl) {last : ℚ} (hlast : fl last = last) :
    (last :: accumulate fl n last hist).Pairwise (· ≤ ·) := by
  induction hist generalizing last with
  | nil => simp [accumulate]
  | cons c hist ih =>
    have hstep : last ≤ fl (last + share fl n c) := by
      refine hlast.symm.trans_le (h.mono ?_)
      linarith [share_nonneg h n c]
    have htail := ih (h.idem (last + share fl n c))
    rw [accumulate]
    refine List.pairwise_cons.2 ⟨fun y hy => ?_, htail⟩
    rcases List.mem_cons.1 hy with rfl | hy
    · exact hstep
    · exact hstep.trans ((List.pairwise_cons.1 htail).1 y hy)

theorem pairwise_cdfOf (h : Rounds fl) : (cdfOf fl n hist).Pairwise (· ≤ ·) := by
  cases hist with
  | nil => exact List.Pairwise.nil
  | cons c hist => exact pairwise_accumulate h (h.idem _)

theorem isEnd_searchBin (h : Rounds fl) (tol : ℚ) :
    BinarySearch.IsEnd (· < tol) (cdfOf fl n hist) (searchBin (cdfOf fl n hist) tol) := by
  refine BinarySearch.isEnd_lowerBound ((pairwise_cdfOf h).imp fun hxy hy => ?_)
  rw [decide_eq_true_eq] at hy ⊢
  exact lt_of_le_of_lt hxy hy

end

/-- What the locals of `strechlim` come to for `x :: xs`. -/
def stretchOf (fl : ℚ → ℚ) (x : ℚ) (xs : List ℚ) (tolLow tolHigh : ℚ) : Stretch :=
  let range := rangeOf fl x xs
  let hist := countsOf fl range (x :: xs)
  let cdf := cdfOf fl (x :: xs).length hist
  { range, hist, cdf, lowBin := searchBin cdf tolLow, highBin := searchBin cdf tolHigh }

section
variable {fl : ℚ → ℚ} {x : ℚ} {xs : List ℚ} {tolLow tolHigh : ℚ}

theorem not_badTolerances (hlow : 0 ≤ tolLow) (hlt : tolLow < tolHigh) (hhigh : tolHigh ≤ 1) :
    ¬ BadTolerances tolLow tolHigh := by
  rintro (h | h | h | h | h) <;> linarith

theorem stretch_eq (h : Rounds fl) (hw : (rangeOf fl x xs).width fl ≠ 0) (hgood : ¬ BadTolerances tolLow tolHigh) :
    stretch fl (x :: xs) tolLow tolHigh = .ok (stretchOf fl x xs tolLow tolHigh) := by
  simp only [stretch, if_neg hgood, histogram_eq h hw]
  rfl

theorem strechlim_eq (h : Rounds fl) (hw : (rangeOf fl x xs).width fl ≠ 0) (hgood : ¬ BadTolerances tolLow tolHigh) :
    strechlim fl (x :: xs) tolLow tolHigh =
      .ok (limit fl (rangeOf fl x xs) (stretchOf fl x xs tolLow tolHigh).lowBin,
        limit fl (rangeOf fl x xs) (stretchOf fl x xs tolLow tolHigh).highBin) := by
  rw [strechlim, stretch_eq h hw hgood]
  rfl

/-- The larger tolerance is not reached before the smaller one. -/
theorem lowBin_le_highBin (h : Rounds fl) (hlt : tolLow < tolHigh) :
    (stretchOf fl x xs tolLow tolHigh).lowBin ≤ (stretchOf fl x xs tolLow tolHigh).highBin := by
  refine (isEnd_searchBin h tolLow).le_of_imp (isEnd_searchBin h tolHigh) fun y hy => ?_
  rw [decide_eq_true_eq] at hy ⊢
  exact hy.trans hlt

end

end CcTools.MathUtils
