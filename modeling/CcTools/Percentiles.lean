import CcTools.Clamping

/-!
# Clamping at two percentiles

A smaller percentile has no higher rank (`percentileIndex_mono`), and the element of a rank is clamped with
the array. So a second call clamps as if it had come first (`reduceMaxValues_comp`).
-/

namespace CcTools.MathUtils
open Rounding

theorem percentileIndex_mono {p q : ℚ} (length : Nat) (h : p ≤ q) :
    percentileIndex (roundTo 24) length p ≤ percentileIndex (roundTo 24) length q := by
  have hnonneg : 0 ≤ roundTo 24 ((length - 1 : Nat) : ℚ) := roundTo_nonneg (Nat.cast_nonneg _)
  refine Int.toNat_le_toNat (Int.floor_le_floor (roundTo_mono 24 ?_))
  exact mul_le_mul_of_nonneg_left h hnonneg

section
variable {T F : Type*} [LinearOrder T] [LinearOrder F] (n : Narrowing T F) {data : List T} {p q : ℚ}

/-- The second of two calls, for the elements `c` and `d` at the two ranks. -/
theorem reduceMaxValues_twice {c d : T} (hp0 : 0 < p) (hp1 : p ≤ 1) (hq0 : 0 < q) (hq1 : q ≤ 1)
    (hc : (Rank.sorted data)[percentileIndex (roundTo 24) data.length p]? = some c)
    (hd : (Rank.sorted data)[percentileIndex (roundTo 24) data.length q]? = some d) :
    (reduceMaxValues n data p >>= fun out => reduceMaxValues n out q) =
      .ok (data.map (min · (min (n.copied c) (n.copied d)))) := by
  have hd' : (Rank.sorted (data.map (min · (n.copied c))))[percentileIndex (roundTo 24)
      (data.map (min · (n.copied c))).length q]? = some (min d (n.copied c)) := by
    rw [List.length_map, Rank.sorted_map (min_mono (n.copied c)), List.getElem?_map, hd]
    rfl
  have hcap : n.copied (min d (n.copied c)) = min (n.copied c) (n.copied d) := by
    rw [n.copied_mono.map_min, n.copied_copied, min_comm]
  rw [reduceMaxValues_eq n hp0 hp1 hc]
  show reduceMaxValues n (data.map (min · (n.copied c))) q = _
  rw [reduceMaxValues_eq n hq0 hq1 hd', hcap, List.map_map]
  refine congrArg Except.ok (List.map_congr_left fun x _ => ?_)
  show min (min x (n.copied c)) (min (n.copied c) (n.copied d)) = _
  rw [min_assoc, ← min_assoc (n.copied c), min_self]

/-- Clamping at two percentiles, in either order, is clamping at the smaller one. -/
theorem reduceMaxValues_comp (hp0 : 0 < p) (hp1 : p ≤ 1) (hq0 : 0 < q) (hq1 : q ≤ 1)
    (hp : percentileIndex (roundTo 24) data.length p < data.length)
    (hq : percentileIndex (roundTo 24) data.length q < data.length) :
    (reduceMaxValues n data p >>= fun out => reduceMaxValues n out q) = reduceMaxValues n data (min p q) := by
  obtain ⟨c, hc⟩ := exists_rank hp
  obtain ⟨d, hd⟩ := exists_rank hq
  rw [reduceMaxValues_twice n hp0 hp1 hq0 hq1 hc hd]
  rcases le_total p q with h | h
  · have hle := n.copied_mono (Rank.le_of_rank hc hd (percentileIndex_mono data.length h))
    rw [min_eq_left h, min_eq_left hle, reduceMaxValues_eq n hp0 hp1 hc]
  · have hle := n.copied_mono (Rank.le_of_rank hd hc (percentileIndex_mono data.length h))
    rw [min_eq_right h, min_eq_right hle, reduceMaxValues_eq n hq0 hq1 hd]

theorem reduceMaxValues_comp_triple :
    (reduceMaxValues binary32 [3, 5, 4] 1 >>= fun out => reduceMaxValues binary32 out (1 / 2)) =
      reduceMaxValues binary32 [3, 5, 4] (min 1 (1 / 2)) :=
  reduceMaxValues_comp binary32 (by norm_num) (by norm_num) (by norm_num) (by norm_num) (by decide +kernel)
    (by decide +kernel)

end

end CcTools.MathUtils
