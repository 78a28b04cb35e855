import CcTools.MathUtils
import Mathlib.Data.Fin.VecNotation

/-!
# Clamping at an element of the array

The threshold is the element of rank `idx`, copied into a `float` and back. `clamping_stable` needs no more of
the copy than that it is monotone and fixes the `float` values; that the threshold is itself an element of
the array depends on what the copy makes of it (`clamps_to_rank_iff`).
-/

namespace CcTools.MathUtils
open Rounding

section
variable {T F : Type*} [LinearOrder T] [LinearOrder F] (n : Narrowing T F) {data : List T} {p : ℚ} {c : T}

/-- A value after it was copied into a `float` and back. -/
def Narrowing.copied (x : T) : T := n.ofFloat (n.toFloat x)

theorem Narrowing.copied_mono : Monotone n.copied :=
  n.ofFloat_strictMono.monotone.comp n.toFloat_mono

@[simp] theorem Narrowing.copied_copied (x : T) : n.copied (n.copied x) = n.copied x := by
  rw [copied, copied, n.toFloat_ofFloat]

theorem reduceMaxValues_eq (h0 : 0 < p) (h1 : p ≤ 1)
    (hc : (Rank.sorted data)[percentileIndex (roundTo 24) data.length p]? = some c) :
    reduceMaxValues n data p = .ok (data.map (min · (n.copied c))) := by
  have hlen : data.length ≠ 0 := by
    intro hlen
    rw [List.length_eq_zero_iff.1 hlen] at hc
    simp [Rank.sorted] at hc
  have hcap : (Rank.sorted (data.map n.toFloat))[percentileIndex (roundTo 24) data.length p]? =
      some (n.toFloat c) := by
    rw [Rank.sorted_map n.toFloat_mono, List.getElem?_map, hc]
    rfl
  have hmin : ∀ x, (if x > n.ofFloat (n.toFloat c) then n.ofFloat (n.toFloat c) else x) = min x (n.copied c) := by
    intro x
    rw [Narrowing.copied]
    split
    · rename_i hx
      exact (min_eq_right (le_of_lt hx)).symm
    · rename_i hx
      exact (min_eq_left (not_lt.1 hx)).symm
  rw [reduceMaxValues, if_neg hlen, if_neg (by rw [not_or]; exact ⟨not_le.2 h0, not_lt.2 h1⟩)]
  simp only [hcap, hmin]
  rfl

end

theorem exists_rank {T : Type*} [LinearOrder T] {data : List T} {i : Nat} (hi : i < data.length) :
    ∃ c, (Rank.sorted data)[i]? = some c :=
  ⟨_, List.getElem?_eq_getElem (by rwa [Rank.length_sorted])⟩

/-! ### Stability -/

section
variable {T F : Type*} [LinearOrder T] [LinearOrder F] (n : Narrowing T F) {m : Nat} {p : ℚ} {c : T}

theorem min_mono (b : T) : Monotone (min · b) := fun _ _ h => min_le_min_right b h

theorem reduceMaxValues_ofFn {data : Fin m → T} (h0 : 0 < p) (h1 : p ≤ 1)
    (hc : (Rank.sorted (List.ofFn data))[percentileIndex (roundTo 24) m p]? = some c) :
    reduceMaxValues n (List.ofFn data) p = .ok (List.ofFn fun i => min (data i) (n.copied c)) := by
  rw [reduceMaxValues_eq n h0 h1 (by rwa [List.length_ofFn]), List.map_ofFn]
  rfl

/-- The threshold of the clamped values is the threshold they were clamped to. -/
theorem copied_min (c : T) : n.copied (min c (n.copied c)) = n.copied c := by
  rw [n.copied_mono.map_min, n.copied_copied, min_self]

/-- Clamping twice is clamping once, keeps the order of any two elements, and does not mind in which order
they stand. -/
theorem clamping_stable (data : Fin m → T) (p : ℚ) (h0 : 0 < p) (h1 : p ≤ 1)
    (hidx : percentileIndex (roundTo 24) m p < m) :
    ∃ out : Fin m → T, reduceMaxValues n (List.ofFn data) p = .ok (List.ofFn out) ∧
      reduceMaxValues n (List.ofFn out) p = .ok (List.ofFn out) ∧
      (∀ i j, data i ≤ data j → out i ≤ out j) ∧
      ∀ σ : Equiv.Perm (Fin m), reduceMaxValues n (List.ofFn (data ∘ σ)) p = .ok (List.ofFn (out ∘ σ)) := by
  obtain ⟨c, hc⟩ : ∃ c, (Rank.sorted (List.ofFn data))[percentileIndex (roundTo 24) m p]? = some c :=
    exists_rank (by rwa [List.length_ofFn])
  refine ⟨fun i => min (data i) (n.copied c), reduceMaxValues_ofFn n h0 h1 hc, ?_, ?_, fun σ => ?_⟩
  · have hmap : List.ofFn (fun i => min (data i) (n.copied c)) = (List.ofFn data).map (min · (n.copied c)) := by
      rw [List.map_ofFn]
      rfl
    have hc' : (Rank.sorted (List.ofFn fun i => min (data i) (n.copied c)))[percentileIndex (roundTo 24) m p]? =
        some (min c (n.copied c)) := by
      rw [hmap, Rank.sorted_map (min_mono (n.copied c)), List.getElem?_map, hc]
      rfl
    rw [reduceMaxValues_ofFn n h0 h1 hc', copied_min]
    simp only [min_assoc, min_self]
  · exact fun i j hij => min_mono (n.copied c) hij
  · have hc' : (Rank.sorted (List.ofFn (data ∘ σ)))[percentileIndex (roundTo 24) m p]? = some c := by
      rw [Rank.sorted_perm (σ.ofFn_comp_perm data)]
      exact hc
    exact reduceMaxValues_ofFn n h0 h1 hc'

theorem clamping_stable_pair : ∃ out : Fin 2 → ℚ,
    reduceMaxValues binary32 (List.ofFn ![3, 5]) (1 / 2) = .ok (List.ofFn out) ∧
    reduceMaxValues binary32 (List.ofFn out) (1 / 2) = .ok (List.ofFn out) := by
  obtain ⟨out, hout, hagain, -⟩ := clamping_stable binary32 ![3, 5] (1 / 2) (by norm_num) (by norm_num)
    (by decide +kernel)
  exact ⟨out, hout, hagain⟩

end

/-! ### The threshold as an element -/

/-- `out` is `data` cut off at its element `c` of rank `i`. -/
structure ClampsToRank (data out : List ℚ) (i : Nat) (c : ℚ) : Prop where
  rank : (Rank.sorted data)[i]? = some c
  clamped : out = data.map (min · c)
  values : ∀ v ∈ out, v ∈ data
  changed : (data.zip out).countP (fun v => v.1 ≠ v.2) ≤ data.length - 1 - i

theorem clampsToRank {data : List ℚ} {i : Nat} {c : ℚ} (hc : (Rank.sorted data)[i]? = some c) :
    ClampsToRank data (data.map (min · c)) i c where
  rank := hc
  clamped := rfl
  values v hv := by
    rcases List.mem_map.1 hv with ⟨x, hx, rfl⟩
    rcases min_choice x c with h | h
    · rwa [h]
    · rw [h]
      exact Rank.mem_of_rank hc
  changed := by
    have hzip : data.zip (data.map (min · c)) = data.map fun x => (x, min x c) := by
      rw [List.zip_map_right, List.zip_eq_zipWith]
      simp
    have hcount : (data.zip (data.map (min · c))).countP (fun v => v.1 ≠ v.2) = data.countP (c < ·) := by
      rw [hzip, List.countP_map]
      refine List.countP_congr fun x _ => ?_
      show decide (x ≠ min x c) = true ↔ decide (c < x) = true
      rw [decide_eq_true_eq, decide_eq_true_eq, ne_comm, ne_eq, min_eq_left_iff, not_le]
    rw [hcount]
    exact Rank.countP_lt_le hc

/-- The copy of `c` clamps like `c`: it is `c`, or it lies above and nothing but `c` could be cut off. -/
def CopyHarmless (data : List ℚ) (c : ℚ) : Prop :=
  roundTo 24 c = c ∨ c < roundTo 24 c ∧ ∀ x ∈ data, x ≤ c

theorem map_min_eq_iff {data : List ℚ} {c : ℚ} (hc : c ∈ data) :
    data.map (min · (roundTo 24 c)) = data.map (min · c) ↔ CopyHarmless data c := by
  rw [List.map_inj_left]
  constructor
  · intro h
    have hself := h c hc
    rw [min_self] at hself
    rcases (min_eq_left_iff.1 hself).lt_or_eq with hlt | heq
    · refine .inr ⟨hlt, fun x hx => ?_⟩
      by_contra hgt
      have hx' := h x hx
      rw [min_eq_right (not_le.1 hgt).le] at hx'
      exact absurd hx' (lt_min (not_le.1 hgt) hlt).ne'
    · exact .inl heq.symm
  · rintro (h | ⟨hlt, hmax⟩) x hx
    · rw [h]
    · rw [min_eq_left (hmax x hx), min_eq_left ((hmax x hx).trans hlt.le)]

theorem copyHarmless_of_isFloat (data : List ℚ) {c : ℚ} (h : IsFloat 24 c) : CopyHarmless data c :=
  .inl h.roundTo_eq

theorem clamps_to_rank_iff (data : List ℚ) (p : ℚ) (h0 : 0 < p) (h1 : p ≤ 1)
    (hidx : percentileIndex (roundTo 24) data.length p < data.length) :
    (∃ out c, reduceMaxValues binary32 data p = .ok out ∧
      ClampsToRank data out (percentileIndex (roundTo 24) data.length p) c) ↔
    ∃ c, (Rank.sorted data)[percentileIndex (roundTo 24) data.length p]? = some c ∧ CopyHarmless data c := by
  obtain ⟨c, hc⟩ := exists_rank hidx
  have hout : reduceMaxValues binary32 data p = .ok (data.map (min · (roundTo 24 c))) :=
    reduceMaxValues_eq binary32 h0 h1 hc
  have hmem := Rank.mem_of_rank hc
  constructor
  · rintro ⟨out, c', hout', hclamp⟩
    obtain rfl : c = c' := Option.some.inj (hc.symm.trans hclamp.rank)
    obtain rfl : data.map (min · (roundTo 24 c)) = out := Except.ok.inj (hout.symm.trans hout')
    exact ⟨c, hc, (map_min_eq_iff hmem).1 hclamp.clamped⟩
  · rintro ⟨c', hc', hharm⟩
    obtain rfl : c = c' := Option.some.inj (hc.symm.trans hc')
    rw [(map_min_eq_iff hmem).2 hharm] at hout
    exact ⟨_, c, hout, clampsToRank hc⟩

theorem clamps_to_rank_pair : ∃ out c, reduceMaxValues binary32 [5, 3] (1 / 2) = .ok out ∧
    ClampsToRank [5, 3] out (percentileIndex (roundTo 24) 2 (1 / 2)) c :=
  (clamps_to_rank_iff [5, 3] (1 / 2) (by norm_num) (by norm_num) (by decide +kernel)).2
    ⟨3, by decide +kernel, .inl (by decide +kernel)⟩

/-- `1 + 2 ^ -30` is a `double` that the buffer takes for 1. -/
theorem clamps_to_no_element : ¬ ∃ out c, reduceMaxValues binary32 [1 + 1 / 2 ^ 30, 2] (1 / 2) = .ok out ∧
    ClampsToRank [1 + 1 / 2 ^ 30, 2] out (percentileIndex (roundTo 24) 2 (1 / 2)) c := by
  rintro ⟨out, c, hout, hclamp⟩
  have heval : reduceMaxValues binary32 [1 + 1 / 2 ^ 30, 2] (1 / 2) = .ok [1, 1] := by decide +kernel
  obtain rfl : [1, 1] = out := Except.ok.inj (heval.symm.trans hout)
  exact absurd (hclamp.values 1 (by decide)) (by decide +kernel)

end CcTools.MathUtils
