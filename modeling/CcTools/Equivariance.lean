import CcTools.Histogram

/-!
# How the limits follow the data

`strechlim` sees its data through their order and their differences only. Its limits do not depend on the
order of the elements (`strechlim_perm`), move with a change of scale that the arithmetic computes exactly
(`strechlim_affine`), and grow with the tolerances (`strechlim_mono`).
-/

namespace CcTools.MathUtils
open Rounding

/-! ### The order of the elements -/

section
variable {fl : ℚ → ℚ} {x y : ℚ} {xs ys : List ℚ} {tolLow tolHigh : ℚ}

theorem rangeOf_perm (fl : ℚ → ℚ) (h : (x :: xs).Perm (y :: ys)) : rangeOf fl x xs = rangeOf fl y ys := by
  have hmin : xs.foldl min x = ys.foldl min y := by
    obtain ⟨hx, hxle⟩ := foldl_min_least x xs
    obtain ⟨hy, hyle⟩ := foldl_min_least y ys
    exact le_antisymm (hxle _ (h.mem_iff.2 hy)) (hyle _ (h.mem_iff.1 hx))
  have hmax : xs.foldl max x = ys.foldl max y := by
    obtain ⟨hx, hxle⟩ := foldl_max_greatest x xs
    obtain ⟨hy, hyle⟩ := foldl_max_greatest y ys
    exact le_antisymm (hyle _ (h.mem_iff.1 hx)) (hxle _ (h.mem_iff.2 hy))
  simp only [rangeOf, hmin, hmax]

theorem histogram_of_width_eq_zero {r : Range} (hw : r.width fl = 0) : histogram fl r (x :: xs) = .error .nanToInt := by
  rw [histogram, List.foldlM_cons, countValue, binOf, if_pos hw]
  rfl

theorem tally_comm (hist : List Nat) (b c : ℤ) :
    (tally hist b >>= fun hist => tally hist c) = tally hist c >>= fun hist => tally hist b := by
  unfold tally
  by_cases hb : 0 ≤ b ∧ b < hist.length
  · by_cases hc : 0 ≤ c ∧ c < hist.length
    · simp only [hb, hc, and_self, ↓reduceIte, pure_bind, List.length_modify]
      refine congrArg Except.ok (List.ext_getElem? fun k => ?_)
      simp only [List.getElem?_modify]
      cases hist[k]? with
      | none => rfl
      | some n => by_cases hbk : b.toNat = k <;> by_cases hck : c.toNat = k <;> simp [hbk, hck]
    · simp only [hb, hc, and_self, ↓reduceIte, pure_bind, List.length_modify]
      rfl
  · by_cases hc : 0 ≤ c ∧ c < hist.length
    · simp only [hb, hc, and_self, ↓reduceIte, pure_bind, List.length_modify]
      rfl
    · simp only [hb, hc, ↓reduceIte]
      rfl

/-- Where the width is 0 the first value already is not a number, else there is only one way to fail. -/
theorem histogram_perm (fl : ℚ → ℚ) (hperm : (x :: xs).Perm (y :: ys)) (r : Range) :
    histogram fl r (x :: xs) = histogram fl r (y :: ys) := by
  by_cases hw : r.width fl = 0
  · rw [histogram_of_width_eq_zero hw, histogram_of_width_eq_zero hw]
  · rw [histogram, histogram, List.foldlM_eq_foldl, List.foldlM_eq_foldl]
    refine hperm.foldl_eq' (fun v _ w _ hist => ?_) _
    cases hist with
    | error e => rfl
    | ok hist =>
      show (countValue fl r hist v >>= fun hist => countValue fl r hist w) =
        countValue fl r hist w >>= fun hist => countValue fl r hist v
      simp only [countValue, binOf, if_neg hw]
      exact tally_comm hist _ _

/-- Whatever the arithmetic, the order of the elements decides neither whether a call fails nor what it returns. -/
theorem strechlim_perm (fl : ℚ → ℚ) {data data' : List ℚ} (hperm : data.Perm data') (tolLow tolHigh : ℚ) :
    strechlim fl data tolLow tolHigh = strechlim fl data' tolLow tolHigh := by
  cases data with
  | nil => rw [List.nil_perm.1 hperm]
  | cons x xs =>
    cases data' with
    | nil => exact (List.not_perm_nil_cons _ _ hperm.symm).elim
    | cons y ys =>
      have hhist := histogram_perm fl hperm (rangeOf fl x xs)
      rw [rangeOf_perm fl hperm] at hhist
      simp only [strechlim, stretch, rangeOf_perm fl hperm, hhist, hperm.length_eq]

theorem strechlim_perm_triple : strechlim (roundTo 24) [3, 1, 2] 0 1 = strechlim (roundTo 24) [1, 2, 3] 0 1 :=
  strechlim_perm (roundTo 24) (by decide) 0 1

/-! ### The tolerances -/

theorem strechlim_cases (h : Rounds fl) {data : List ℚ} {r : ℚ × ℚ} (hr : strechlim fl data tolLow tolHigh = .ok r) :
    ∃ x xs, data = x :: xs ∧ tolLow < tolHigh ∧ r = (limit fl (rangeOf fl x xs) (stretchOf fl x xs tolLow tolHigh).lowBin,
      limit fl (rangeOf fl x xs) (stretchOf fl x xs tolLow tolHigh).highBin) := by
  cases data with
  | nil => cases hr
  | cons x xs =>
    by_cases hbad : BadTolerances tolLow tolHigh
    · rw [strechlim, stretch, if_pos hbad] at hr
      cases hr
    have hlt : tolLow < tolHigh := by
      by_contra hge
      exact hbad (.inr (.inr (.inr (.inr (not_lt.1 hge)))))
    by_cases hw : (rangeOf fl x xs).width fl = 0
    · rw [strechlim, stretch, if_neg hbad] at hr
      dsimp only at hr
      rw [histogram_of_width_eq_zero hw] at hr
      cases hr
    · rw [strechlim_eq h hw hbad] at hr
      exact ⟨x, xs, rfl, hlt, (Except.ok.inj hr).symm⟩

theorem width_nonneg (h : Rounds fl) (hfloat : ∀ y ∈ x :: xs, fl y = y) : 0 ≤ (rangeOf fl x xs).width fl := by
  refine h.nonneg (sub_nonneg.2 ?_)
  have hmin := hfloat _ (foldl_min_least x xs).1
  have heps : 0 ≤ fl (1 / 1000000) := h.nonneg (by norm_num)
  unfold rangeOf
  dsimp only
  split
  · exact hmin.symm.trans_le (h.mono (le_add_of_nonneg_right heps))
  · exact le_of_lt (not_le.1 ‹_›)

theorem limit_le_limit (h : Rounds fl) {r : Range} (hw : 0 ≤ r.width fl) {j k : Nat} (hjk : j ≤ k) :
    limit fl r j ≤ limit fl r k := by
  have hbin : fl j ≤ fl k := h.mono (by exact_mod_cast hjk)
  have hquot : fl (fl j / (nbins - 1 : Nat)) ≤ fl (fl k / (nbins - 1 : Nat)) :=
    h.mono (div_le_div_of_nonneg_right hbin (Nat.cast_nonneg _))
  refine h.mono (add_le_add_right (h.mono ?_) _)
  exact mul_le_mul_of_nonneg_right hquot hw

theorem dataMin_le_limit (h : Rounds fl) {r : Range} (hw : 0 ≤ r.width fl) (hmin : fl r.dataMin = r.dataMin) (k : Nat) :
    r.dataMin ≤ limit fl r k := by
  have hquot : 0 ≤ fl (fl k / (nbins - 1 : Nat)) :=
    h.nonneg (div_nonneg (h.nonneg (Nat.cast_nonneg k)) (Nat.cast_nonneg _))
  refine hmin.symm.trans_le (h.mono (le_add_of_nonneg_right ?_))
  exact h.nonneg (mul_nonneg hquot hw)

theorem searchBin_mono (h : Rounds fl) (n : Nat) (hist : List Nat) {t t' : ℚ} (ht : t ≤ t') :
    searchBin (cdfOf fl n hist) t ≤ searchBin (cdfOf fl n hist) t' := by
  refine (isEnd_searchBin h t).le_of_imp (isEnd_searchBin h t') fun y hy => ?_
  rw [decide_eq_true_eq] at hy ⊢
  exact lt_of_lt_of_le hy ht

/-- For every monotone rounding that fixes the numbers with 24 bits: no limit lies below the smallest value, the
lower one not above the upper one, and both grow with their tolerances. -/
theorem strechlim_mono (h : Rounds fl) {data : List ℚ} (hfloat : ∀ y ∈ data, fl y = y) {tolLow' tolHigh' : ℚ}
    {r r' : ℚ × ℚ} (hlow : tolLow ≤ tolLow') (hhigh : tolHigh ≤ tolHigh')
    (hr : strechlim fl data tolLow tolHigh = .ok r) (hr' : strechlim fl data tolLow' tolHigh' = .ok r') :
    (∃ m ∈ data, (∀ y ∈ data, m ≤ y) ∧ m ≤ r.1) ∧ r.1 ≤ r.2 ∧ r.1 ≤ r'.1 ∧ r.2 ≤ r'.2 := by
  obtain ⟨x, xs, rfl, hlt, rfl⟩ := strechlim_cases h hr
  obtain ⟨x', xs', heq, -, rfl⟩ := strechlim_cases h hr'
  obtain ⟨rfl, rfl⟩ := List.cons.inj heq
  have hw := width_nonneg h hfloat
  obtain ⟨hmem, hleast⟩ := foldl_min_least x xs
  refine ⟨⟨_, hmem, hleast, dataMin_le_limit h hw (hfloat _ hmem) _⟩, ?_, ?_, ?_⟩
  · exact limit_le_limit h hw (lowBin_le_highBin h hlt)
  · exact limit_le_limit h hw (searchBin_mono h _ _ hlow)
  · exact limit_le_limit h hw (searchBin_mono h _ _ hhigh)

theorem strechlim_mono_pair : ∃ r r', strechlim id [0, 1] 0 (1 / 2) = .ok r ∧ strechlim id [0, 1] 0 1 = .ok r' ∧
    r.2 ≤ r'.2 := by
  have hr : strechlim id [0, 1] 0 (1 / 2) = .ok (0, 0) := by decide +kernel
  have hr' : strechlim id [0, 1] 0 1 = .ok (0, 1) := by decide +kernel
  exact ⟨_, _, hr, hr', (strechlim_mono rounds_id (fun _ _ => rfl) le_rfl (by norm_num) hr hr').2.2.2⟩

/-! ### The scale -/

/-- What the arithmetic makes of a change of scale by `a` and `b`. -/
structure Exact (fl : ℚ → ℚ) (a b : ℚ) : Prop where
  pos : 0 < a
  scale : ∀ x, fl (a * x) = a * fl x
  shift : ∀ x, fl (a * x + b) = a * fl x + b

theorem exact_id {a : ℚ} (ha : 0 < a) (b : ℚ) : Exact id a b := ⟨ha, fun _ => rfl, fun _ => rfl⟩

theorem exact_roundTo (k : ℤ) : Exact (roundTo 24) (2 ^ k) 0 where
  pos := zpow_pos two_pos k
  scale := roundTo_zpow_mul 24 k
  shift x := by rw [add_zero, add_zero, roundTo_zpow_mul]

namespace Exact
variable {a b : ℚ} {r : Range}

theorem mono (h : Exact fl a b) : Monotone (a * · + b) := fun _ _ hxy =>
  add_le_add_left (mul_le_mul_of_nonneg_left hxy h.pos.le) b

theorem foldl_map (h : Exact fl a b) (x : ℚ) (xs : List ℚ) :
    (xs.map (a * · + b)).foldl min (a * x + b) = a * xs.foldl min x + b ∧
      (xs.map (a * · + b)).foldl max (a * x + b) = a * xs.foldl max x + b := by
  rw [List.foldl_map, List.foldl_map]
  exact ⟨List.foldl_hom (a * · + b) fun _ _ => (h.mono.map_min).symm,
    List.foldl_hom (a * · + b) fun _ _ => (h.mono.map_max).symm⟩

theorem differ (h : Exact fl a b) (hne : ∃ y ∈ x :: xs, ∃ z ∈ x :: xs, y ≠ z) :
    ∃ y ∈ (x :: xs).map (a * · + b), ∃ z ∈ (x :: xs).map (a * · + b), y ≠ z := by
  obtain ⟨y, hy, z, hz, hyz⟩ := hne
  refine ⟨_, List.mem_map_of_mem hy, _, List.mem_map_of_mem hz, fun heq => hyz ?_⟩
  exact mul_left_cancel₀ h.pos.ne' (add_right_cancel heq)

theorem rangeOf_map (h : Exact fl a b) (hne : ∃ y ∈ x :: xs, ∃ z ∈ x :: xs, y ≠ z) :
    rangeOf fl (a * x + b) (xs.map (a * · + b)) =
      { dataMin := a * (rangeOf fl x xs).dataMin + b, dataMax := a * (rangeOf fl x xs).dataMax + b } := by
  obtain ⟨hmin, hmax⟩ := h.foldl_map x xs
  have hdata : (rangeOf fl x xs).dataMax = xs.foldl max x := (rangeOf_dataMax hne).1
  have hdata' : (rangeOf fl (a * x + b) (xs.map (a * · + b))).dataMax = (xs.map (a * · + b)).foldl max (a * x + b) :=
    (rangeOf_dataMax (h.differ hne)).1
  rw [hdata, ← hmax, ← hdata']
  exact congrArg (Range.mk · _) hmin

theorem width_map (h : Exact fl a b) (r : Range) :
    Range.width fl { dataMin := a * r.dataMin + b, dataMax := a * r.dataMax + b } = a * r.width fl := by
  rw [Range.width, add_sub_add_right_eq_sub, ← mul_sub, h.scale]
  rfl

theorem binOf_map (h : Exact fl a b) (r : Range) (y : ℚ) :
    binOf fl { dataMin := a * r.dataMin + b, dataMax := a * r.dataMax + b } (a * y + b) = binOf fl r y := by
  rw [binOf, binOf, h.width_map]
  dsimp only
  rw [add_sub_add_right_eq_sub, ← mul_sub, h.scale, mul_div_mul_left _ _ h.pos.ne']
  simp only [mul_eq_zero, h.pos.ne', false_or]

theorem histogram_map (h : Exact fl a b) (r : Range) (data : List ℚ) :
    histogram fl { dataMin := a * r.dataMin + b, dataMax := a * r.dataMax + b } (data.map (a * · + b)) =
      histogram fl r data := by
  have hcount : ∀ hist y, countValue fl { dataMin := a * r.dataMin + b, dataMax := a * r.dataMax + b } hist (a * y + b) =
      countValue fl r hist y := by
    intro hist y
    rw [countValue, countValue, h.binOf_map]
  rw [histogram, histogram, List.foldlM_map]
  simp only [hcount]

theorem limit_map (h : Exact fl a b) (r : Range) (bin : Nat) :
    limit fl { dataMin := a * r.dataMin + b, dataMax := a * r.dataMax + b } bin = a * limit fl r bin + b := by
  have hstep : fl (fl (fl bin / (nbins - 1 : Nat)) * (a * r.width fl)) =
      a * fl (fl (fl bin / (nbins - 1 : Nat)) * r.width fl) := by
    rw [← h.scale]
    congr 1
    ring
  rw [limit, h.width_map, hstep, limit, ← h.shift]
  congr 1
  ring

theorem strechlim_map (h : Exact fl a b) (hne : ∃ y ∈ x :: xs, ∃ z ∈ x :: xs, y ≠ z) (tolLow tolHigh : ℚ) :
    strechlim fl ((x :: xs).map (a * · + b)) tolLow tolHigh =
      (strechlim fl (x :: xs) tolLow tolHigh).map (Prod.map (a * · + b) (a * · + b)) := by
  have hhist := h.histogram_map (rangeOf fl x xs) (x :: xs)
  rw [List.map_cons] at hhist ⊢
  rw [strechlim, strechlim, stretch, stretch]
  split
  · rfl
  · rw [h.rangeOf_map hne]
    dsimp only
    rw [hhist, List.length_cons, List.length_cons, List.length_map]
    cases histogram fl (rangeOf fl x xs) (x :: xs) with
    | error e => rfl
    | ok hist =>
      show Except.ok (limit fl _ _, limit fl _ _) = Except.ok (a * limit fl _ _ + b, a * limit fl _ _ + b)
      rw [h.limit_map, h.limit_map]

end Exact

end

/-- Values that are not all equal: in exact arithmetic the limits move with any change of scale, in 24 bits without
a bound on the exponent with any power of two. -/
theorem strechlim_affine (x : ℚ) (xs : List ℚ) (tolLow tolHigh : ℚ) (hne : ∃ y ∈ x :: xs, ∃ z ∈ x :: xs, y ≠ z) :
    (∀ a b : ℚ, 0 < a → strechlim id ((x :: xs).map (a * · + b)) tolLow tolHigh =
      (strechlim id (x :: xs) tolLow tolHigh).map (Prod.map (a * · + b) (a * · + b))) ∧
    ∀ k : ℤ, strechlim (roundTo 24) ((x :: xs).map (2 ^ k * ·)) tolLow tolHigh =
      (strechlim (roundTo 24) (x :: xs) tolLow tolHigh).map (Prod.map (2 ^ k * ·) (2 ^ k * ·)) := by
  refine ⟨fun a b ha => (exact_id ha b).strechlim_map hne tolLow tolHigh, fun k => ?_⟩
  have hmap := (exact_roundTo k).strechlim_map hne tolLow tolHigh
  simpa only [add_zero] using hmap

theorem strechlim_affine_pair : strechlim id [10, 12] (1 / 4) (3 / 4) = .ok (10, 12) := by
  have hunit : strechlim id [0, 1] (1 / 4) (3 / 4) = .ok (0, 1) := by decide +kernel
  have hmap := (strechlim_affine 0 [1] (1 / 4) (3 / 4) ⟨0, by simp, 1, by simp, by norm_num⟩).1 2 10 (by norm_num)
  rw [hunit] at hmap
  norm_num [Except.map] at hmap
  exact hmap

end CcTools.MathUtils
