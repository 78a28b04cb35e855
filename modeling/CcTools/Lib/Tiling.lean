import Mathlib.Algebra.BigOperators.Intervals
import Mathlib.Order.Monotone.Basic
import Mathlib.Data.Finset.Union

/-!
# Pieces that fill a stretch

Piece `k` starts at `start k` and is `len k` long. The pieces below `m` cover the positions below `n`
without overlap exactly when every piece that is not empty starts where the pieces before it add up to,
and all of them add up to `n` (`filled_apart_iff`).
-/

namespace Tiling

section
variable (start len : Nat → Nat)

def Covers (k pos : Nat) : Prop := start k ≤ pos ∧ pos < start k + len k

def before (k : Nat) : Nat := ∑ j ∈ Finset.range k, len j

/-- The pieces not empty lie one behind the other, and `m` of them are `n` long. -/
structure Adjoining (m n : Nat) : Prop where
  next : ∀ k < m, len k = 0 ∨ start k = before len k
  total : before len m = n

variable {start len} {m n k pos : Nat}

@[simp] theorem before_zero : before len 0 = 0 := rfl

theorem before_succ : before len (k + 1) = before len k + len k := Finset.sum_range_succ ..

theorem before_mono (len : Nat → Nat) {j k : Nat} (h : j ≤ k) : before len j ≤ before len k :=
  monotone_nat_of_le_succ (fun k => by rw [before_succ]; exact Nat.le_add_right ..) h

theorem exists_before_le (h : pos < before len m) :
    ∃ k < m, before len k ≤ pos ∧ pos < before len k + len k := by
  induction m with
  | zero => simp at h
  | succ m ih =>
    rw [before_succ] at h
    by_cases hm : pos < before len m
    · obtain ⟨k, hk, hpos⟩ := ih hm
      exact ⟨k, Nat.lt_succ_of_lt hk, hpos⟩
    · exact ⟨m, Nat.lt_succ_self m, Nat.not_lt.1 hm, h⟩

theorem Adjoining.covers_iff (h : Adjoining start len m n) (hk : k < m) :
    Covers start len k pos ↔ before len k ≤ pos ∧ pos < before len (k + 1) := by
  unfold Covers
  rw [before_succ]
  rcases h.next k hk with h0 | hs
  · omega
  · rw [hs]

theorem Adjoining.filled (h : Adjoining start len m n) (hpos : pos < n) :
    ∃ k < m, Covers start len k pos := by
  rw [← h.total] at hpos
  obtain ⟨k, hk, hle, hlt⟩ := exists_before_le hpos
  exact ⟨k, hk, (h.covers_iff hk).2 ⟨hle, before_succ ▸ hlt⟩⟩

theorem Adjoining.apart (h : Adjoining start len m n) {j : Nat} (hj : j < m) (hk : k < m)
    (hcj : Covers start len j pos) (hck : Covers start len k pos) : j = k := by
  rw [h.covers_iff hj] at hcj
  rw [h.covers_iff hk] at hck
  rcases Nat.lt_trichotomy j k with hlt | rfl | hlt
  · have hle : before len (j + 1) ≤ before len k := before_mono len hlt
    omega
  · rfl
  · have hle : before len (k + 1) ≤ before len j := before_mono len hlt
    omega

theorem before_eq_of_filled {stop : Nat}
    (hfilled : ∀ pos < stop, ∃ j < k, Covers start len j pos)
    (hinside : ∀ j < k, len j = 0 ∨ start j + len j ≤ stop)
    (hapart : ∀ i < k, ∀ j < k, ∀ pos, Covers start len i pos → Covers start len j pos → i = j) :
    before len k = stop := by
  have hunion : (Finset.range k).biUnion (fun j => Finset.Ico (start j) (start j + len j)) =
      Finset.range stop := by
    ext pos
    simp only [Finset.mem_biUnion, Finset.mem_range, Finset.mem_Ico]
    constructor
    · rintro ⟨j, hj, hle, hlt⟩
      rcases hinside j hj with h0 | hin
      · omega
      · omega
    · exact hfilled pos
  have hdisj : (Finset.range k : Set Nat).PairwiseDisjoint (fun j => Finset.Ico (start j) (start j + len j)) := by
    intro i hi j hj hne
    rw [Function.onFun, Finset.disjoint_left]
    intro pos hpi hpj
    rw [Finset.mem_Ico] at hpi hpj
    rw [Finset.mem_coe, Finset.mem_range] at hi hj
    exact hne (hapart i hi j hj pos hpi hpj)
  have hcard := Finset.card_biUnion hdisj
  rw [hunion, Finset.card_range] at hcard
  rw [before, hcard]
  refine Finset.sum_congr rfl fun j _ => ?_
  rw [Nat.card_Ico]
  omega

/-- Pieces that start in the order of their numbers fill `n` positions without overlap exactly when they
adjoin. -/
theorem filled_apart_iff (hstart : StrictMono start) (hinside : ∀ k < m, start k + len k ≤ n) :
    ((∀ pos < n, ∃ k < m, Covers start len k pos) ∧
      ∀ i < m, ∀ j < m, ∀ pos, Covers start len i pos → Covers start len j pos → i = j) ↔
    Adjoining start len m n := by
  constructor
  · rintro ⟨hfilled, hapart⟩
    refine ⟨fun k hk => ?_, before_eq_of_filled hfilled (fun j hj => .inr (hinside j hj)) hapart⟩
    rcases Nat.eq_zero_or_pos (len k) with h0 | hpos
    · exact .inl h0
    refine .inr (before_eq_of_filled (fun pos hlt => ?_) (fun j hj => ?_) fun i hi j hj =>
      hapart i (Nat.lt_trans hi hk) j (Nat.lt_trans hj hk)).symm
    · -- what lies before piece `k` is covered by a piece that starts before it
      have hin := hinside k hk
      obtain ⟨j, hj, hc⟩ := hfilled pos (by omega)
      exact ⟨j, hstart.lt_iff_lt.1 (Nat.lt_of_le_of_lt hc.1 hlt), hc⟩
    · by_contra hno
      have hlt := hstart hj
      have hcj : Covers start len j (start k) := ⟨by omega, by omega⟩
      have hck : Covers start len k (start k) := ⟨Nat.le_refl _, by omega⟩
      exact absurd (hapart j (Nat.lt_trans hj hk) k hk _ hcj hck) (Nat.ne_of_lt hj)
  · intro h
    exact ⟨fun pos hpos => h.filled hpos, fun i hi j hj pos hci hcj => h.apart hi hj hci hcj⟩

end

section
variable {α : Type*} {body : Nat → List α} {m k i : Nat}

theorem length_flatMap_range :
    ((List.range m).flatMap body).length = before (fun k => (body k).length) m := by
  induction m with
  | zero => rfl
  | succ m ih =>
    rw [List.range_succ, List.flatMap_append, List.length_append, ih, before_succ, List.flatMap_singleton]

theorem getElem?_flatMap_range (hk : k < m) (hi : i < (body k).length) :
    ((List.range m).flatMap body)[before (fun k => (body k).length) k + i]? = (body k)[i]? := by
  induction m with
  | zero => omega
  | succ m ih =>
    rw [List.range_succ, List.flatMap_append, List.flatMap_singleton, List.getElem?_append, length_flatMap_range]
    rcases Nat.lt_succ_iff_lt_or_eq.1 hk with hlt | rfl
    · have hle := before_mono (fun k => (body k).length) hlt
      rw [Nat.succ_eq_add_one, before_succ] at hle
      rw [if_pos (by omega), ih hlt]
    · rw [if_neg (by omega), Nat.add_sub_cancel_left]

end
end Tiling
