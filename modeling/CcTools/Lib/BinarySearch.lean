import Mathlib.Data.List.Basic

/-!
# Binary search for the end of an initial segment

`lowerBound below xs` halves the range `[first, first + len)` until nothing is left of it. If `below`
holds on an initial segment of `xs` and nowhere after it, the result is the length of that segment.
-/

namespace BinarySearch

section
variable {α : Type*}

/-- `fuel` bounds the number of halvings. -/
def search (below : α → Bool) (xs : List α) : Nat → Nat → Nat → Nat
  | 0, first, _ => first
  | fuel + 1, first, len =>
    if len = 0 then first
    else
      let half := len / 2
      let middle := first + half
      if xs[middle]?.any below then search below xs fuel (middle + 1) (len - half - 1)
      else search below xs fuel first half

def lowerBound (below : α → Bool) (xs : List α) : Nat := search below xs xs.length 0 xs.length

structure IsEnd (below : α → Bool) (xs : List α) (k : Nat) : Prop where
  le : k ≤ xs.length
  before : ∀ i x, i < k → xs[i]? = some x → below x
  after : ∀ i x, k ≤ i → xs[i]? = some x → ¬ below x

variable {below below' : α → Bool} {xs : List α} {k k' : Nat}

theorem IsEnd.le_of_imp (h : IsEnd below xs k) (h' : IsEnd below' xs k') (himp : ∀ x, below x → below' x) :
    k ≤ k' := by
  by_contra hlt
  have hk : k' < xs.length := Nat.lt_of_lt_of_le (Nat.not_le.1 hlt) h.le
  have hget := List.getElem?_eq_getElem hk
  exact h'.after _ _ (Nat.le_refl _) hget (himp _ (h.before _ _ (Nat.not_le.1 hlt) hget))

theorem IsEnd.lt_length_iff (h : IsEnd below xs k) :
    k < xs.length ↔ ∃ x, xs.getLast? = some x ∧ ¬ below x := by
  rw [List.getLast?_eq_getElem?]
  constructor
  · intro hk
    have hget : xs[xs.length - 1]? = some xs[xs.length - 1] := List.getElem?_eq_getElem (by omega)
    exact ⟨_, hget, h.after _ _ (by omega) hget⟩
  · rintro ⟨x, hget, hx⟩
    obtain ⟨hlt, -⟩ := List.getElem?_eq_some_iff.1 hget
    by_contra hk
    exact hx (h.before _ _ (by omega) hget)

theorem isEnd_search (hpart : xs.Pairwise fun x y => below y → below x) {fuel first len : Nat} (hfuel : len ≤ fuel)
    (hle : first + len ≤ xs.length) (hbefore : ∀ i x, i < first → xs[i]? = some x → below x)
    (hafter : ∀ i x, first + len ≤ i → xs[i]? = some x → ¬ below x) :
    IsEnd below xs (search below xs fuel first len) := by
  have hmono : ∀ (i j : Nat) (x y : α), i < j → xs[i]? = some x → xs[j]? = some y → below y → below x := by
    intro i j x y hij hx hy
    obtain ⟨hi, rfl⟩ := List.getElem?_eq_some_iff.1 hx
    obtain ⟨hj, rfl⟩ := List.getElem?_eq_some_iff.1 hy
    exact List.pairwise_iff_getElem.1 hpart i j hi hj hij
  induction fuel generalizing first len with
  | zero =>
    obtain rfl : len = 0 := by omega
    exact ⟨hle, hbefore, hafter⟩
  | succ fuel ih =>
    rw [search]
    split
    · rename_i h0
      subst h0
      exact ⟨hle, hbefore, hafter⟩
    · have hmid : first + len / 2 < xs.length := by omega
      have hget := List.getElem?_eq_getElem hmid
      by_cases hb : below xs[first + len / 2]
      · -- the middle and what stands before it is below
        simp only [hget, Option.any_some, hb, ↓reduceIte]
        refine ih (by omega) (by omega) (fun i x hi hx => ?_) (fun i x hi hx => hafter i x (by omega) hx)
        rcases Nat.lt_or_eq_of_le (Nat.le_of_lt_succ hi) with hlt | rfl
        · exact hmono i _ x _ hlt hx hget hb
        · obtain rfl : xs[first + len / 2] = x := Option.some.inj (hget.symm.trans hx)
          exact hb
      · simp only [hget, Option.any_some, hb, Bool.false_eq_true, ↓reduceIte]
        refine ih (by omega) (by omega) hbefore (fun i x hi hx hx' => ?_)
        rcases Nat.lt_or_eq_of_le hi with hlt | rfl
        · exact hb (hmono _ i _ x hlt hget hx hx')
        · obtain rfl : xs[first + len / 2] = x := Option.some.inj (hget.symm.trans hx)
          exact hb hx'

theorem isEnd_lowerBound (hpart : xs.Pairwise fun x y => below y → below x) :
    IsEnd below xs (lowerBound below xs) := by
  refine isEnd_search hpart (Nat.le_refl _) (by omega) (fun i x hi => absurd hi (Nat.not_lt_zero i)) fun i x hi hx => ?_
  obtain ⟨hlt, -⟩ := List.getElem?_eq_some_iff.1 hx
  omega

end

end BinarySearch
