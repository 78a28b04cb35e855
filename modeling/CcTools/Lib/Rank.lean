import Mathlib.Data.List.Sort
import Mathlib.Order.Lattice

/-!
# Elements by rank

`sorted xs` lists the elements of `xs` in ascending order, so `(sorted xs)[i]?` is its element of rank `i`.
Sorting commutes with every monotone map (`sorted_map`), and few elements exceed the one of rank `i`.
-/

namespace Rank

section
variable {α β : Type*} [LinearOrder α] [LinearOrder β]

def sorted (xs : List α) : List α := xs.insertionSort (· ≤ ·)

variable {xs ys : List α} {c : α} {i : Nat}

theorem perm_sorted (xs : List α) : (sorted xs).Perm xs := List.perm_insertionSort (· ≤ ·) xs

theorem pairwise_sorted (xs : List α) : (sorted xs).Pairwise (· ≤ ·) := List.pairwise_insertionSort (· ≤ ·) xs

@[simp] theorem length_sorted (xs : List α) : (sorted xs).length = xs.length := List.length_insertionSort ..

theorem sorted_eq (hp : ys.Perm xs) (hs : ys.Pairwise (· ≤ ·)) : sorted xs = ys :=
  ((perm_sorted xs).trans hp.symm).eq_of_pairwise' (pairwise_sorted xs) hs

theorem sorted_perm (h : xs.Perm ys) : sorted xs = sorted ys :=
  sorted_eq ((perm_sorted ys).trans h.symm) (pairwise_sorted ys)

theorem sorted_map {f : α → β} (hf : Monotone f) (xs : List α) : sorted (xs.map f) = (sorted xs).map f :=
  sorted_eq ((perm_sorted xs).map f) (List.pairwise_map.2 ((pairwise_sorted xs).imp fun h => hf h))

theorem mem_of_rank (h : (sorted xs)[i]? = some c) : c ∈ xs :=
  (perm_sorted xs).mem_iff.1 (List.mem_of_getElem? h)

theorem le_of_rank {d : α} {j : Nat} (hc : (sorted xs)[i]? = some c) (hd : (sorted xs)[j]? = some d) (hij : i ≤ j) :
    c ≤ d := by
  obtain ⟨hi, rfl⟩ := List.getElem?_eq_some_iff.1 hc
  obtain ⟨hj, rfl⟩ := List.getElem?_eq_some_iff.1 hd
  rcases Nat.lt_or_eq_of_le hij with hlt | heq
  · exact List.pairwise_iff_getElem.1 (pairwise_sorted xs) i j hi hj hlt
  · simp only [heq, le_refl]

/-- At most the elements of higher rank exceed the one of rank `i`. -/
theorem countP_lt_le (h : (sorted xs)[i]? = some c) : xs.countP (c < ·) ≤ xs.length - 1 - i := by
  obtain ⟨hi, rfl⟩ := List.getElem?_eq_some_iff.1 h
  have htake : ((sorted xs).take (i + 1)).countP ((sorted xs)[i] < ·) = 0 := by
    rw [List.countP_eq_zero]
    intro x hx
    obtain ⟨j, hj, rfl⟩ := List.mem_iff_getElem.1 hx
    rw [List.length_take] at hj
    rw [List.getElem_take, decide_eq_true_eq, not_lt]
    rcases Nat.lt_or_eq_of_le (Nat.le_of_lt_succ (Nat.lt_of_lt_of_le hj (Nat.min_le_left ..))) with hlt | heq
    · exact List.pairwise_iff_getElem.1 (pairwise_sorted xs) j i _ hi hlt
    · simp only [heq, le_refl]
  calc
    xs.countP ((sorted xs)[i] < ·) = (sorted xs).countP ((sorted xs)[i] < ·) := ((perm_sorted xs).countP_eq _).symm
    _ = ((sorted xs).take (i + 1)).countP ((sorted xs)[i] < ·) +
        ((sorted xs).drop (i + 1)).countP ((sorted xs)[i] < ·) := by
      rw [← List.countP_append, List.take_append_drop]
    _ ≤ ((sorted xs).drop (i + 1)).length := by
      rw [htake, Nat.zero_add]
      exact List.countP_le_length
    _ = xs.length - 1 - i := by
      rw [List.length_drop, length_sorted]
      omega

end

end Rank
