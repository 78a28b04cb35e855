import Mathlib.Data.List.Basic

/-!
# Copying into a piece of memory

`overlay dst off src` is the buffer `dst` after `src` was copied over it from position `off` on,
`slice xs off n` the `n` elements of `xs` from `off` on. A buffer that agrees with `xs` on a set of
positions and holds a filler elsewhere is `masked`; copying a slice of `xs` to its own place adds
the positions of the slice (`overlay_masked`).
-/

section
variable {α : Type*}

def slice (xs : List α) (off n : Nat) : List α := (xs.drop off).take n

/-- What falls behind the end of `dst` is lost, so the length never changes. -/
def overlay (dst : List α) (off : Nat) (src : List α) : List α :=
  dst.take off ++ src.take (dst.length - off) ++ dst.drop (off + src.length)

theorem length_slice (xs : List α) (off n : Nat) : (slice xs off n).length = min n (xs.length - off) := by
  simp [slice]

theorem getElem?_slice (xs : List α) (off n i : Nat) :
    (slice xs off n)[i]? = if i < n then xs[off + i]? else none := by
  simp [slice, List.getElem?_take, List.getElem?_drop]

theorem slice_append_left {xs ys : List α} {off n : Nat} (h : off + n ≤ xs.length) :
    slice (xs ++ ys) off n = slice xs off n := by
  have hoff : off ≤ xs.length := by omega
  have hn : n ≤ (xs.drop off).length := by rw [List.length_drop]; omega
  rw [slice, List.drop_append_of_le_length hoff, List.take_append_of_le_length hn, slice]

theorem slice_middle (xs ys zs : List α) {l : List α} {off n : Nat} (h : l = xs ++ (ys ++ zs))
    (hoff : xs.length = off) (hn : ys.length = n) : slice l off n = ys := by
  subst h hoff hn
  rw [slice, List.drop_left, List.take_left]

@[simp] theorem slice_zero_length (xs : List α) : slice xs 0 xs.length = xs := by
  simp [slice]

theorem slice_min (xs : List α) (off n : Nat) : slice xs off (min n (xs.length - off)) = slice xs off n := by
  rw [slice, slice, List.take_eq_take_iff, List.length_drop]
  omega

/-- The pieces of length `m`, one after the other. -/
theorem flatMap_slice (xs : List α) (m n : Nat) :
    (List.range n).flatMap (fun k => slice xs (k * m) m) = xs.take (n * m) := by
  induction n with
  | zero => simp
  | succ n ih =>
    rw [List.range_succ, List.flatMap_append, ih, List.flatMap_singleton, Nat.add_mul, Nat.one_mul, List.take_add]
    rfl

@[simp] theorem length_overlay (dst : List α) (off : Nat) (src : List α) :
    (overlay dst off src).length = dst.length := by
  simp only [overlay, List.length_append, List.length_take, List.length_drop]
  omega

theorem getElem?_overlay (dst : List α) (off : Nat) (src : List α) (i : Nat) :
    (overlay dst off src)[i]? =
      if off ≤ i ∧ i < off + src.length ∧ i < dst.length then src[i - off]? else dst[i]? := by
  simp only [overlay, List.getElem?_append, List.getElem?_take, List.getElem?_drop, List.length_append,
    List.length_take]
  by_cases h1 : i < off
  · grind
  · by_cases h2 : i < off + src.length ∧ i < dst.length
    · grind
    · grind

theorem overlay_nil (dst : List α) (off : Nat) : overlay dst off [] = dst := by
  simp [overlay]

theorem overlay_append (xs ys zs src : List α) (h : src.length = ys.length) :
    overlay (xs ++ ys ++ zs) xs.length src = xs ++ src ++ zs := by
  have htake : (xs ++ ys ++ zs).take xs.length = xs := by
    rw [List.append_assoc, List.take_left]
  have hdrop : (xs ++ ys ++ zs).drop (xs.length + src.length) = zs := by
    rw [h, ← List.length_append, List.drop_left]
  have hsrc : src.length ≤ (xs ++ ys ++ zs).length - xs.length := by
    simp only [List.length_append]; omega
  rw [overlay, htake, hdrop, List.take_of_length_le hsrc]

/-! ### Buffers filled in part -/

/-- `xs` at the positions where `keep` holds, `z` at the others. -/
def masked (keep : Nat → Prop) [DecidablePred keep] (z : α) (xs : List α) : List α :=
  xs.mapIdx fun i x => if keep i then x else z

variable {keep : Nat → Prop} [DecidablePred keep] {z : α} {xs : List α}

@[simp] theorem length_masked : (masked keep z xs).length = xs.length := by
  simp [masked]

theorem getElem?_masked (i : Nat) :
    (masked keep z xs)[i]? = if keep i then xs[i]? else if i < xs.length then some z else none := by
  rw [masked, List.getElem?_mapIdx]
  by_cases hi : i < xs.length
  · rw [List.getElem?_eq_getElem hi, if_pos hi]
    simp only [Option.map_some]
    split <;> rfl
  · rw [List.getElem?_eq_none (by omega), if_neg hi]
    simp

theorem masked_congr {keep' : Nat → Prop} [DecidablePred keep'] (h : ∀ i < xs.length, (keep i ↔ keep' i)) :
    masked keep z xs = masked keep' z xs := by
  apply List.ext_getElem?
  intro i
  by_cases hi : i < xs.length
  · simp only [getElem?_masked, h i hi]
  · rw [List.getElem?_eq_none (by simpa using hi), List.getElem?_eq_none (by simpa using hi)]

theorem masked_none (h : ∀ i < xs.length, ¬ keep i) : masked keep z xs = List.replicate xs.length z := by
  apply List.ext_getElem?
  intro i
  rw [getElem?_masked, List.getElem?_replicate]
  by_cases hi : i < xs.length
  · rw [if_neg (h i hi)]
  · rw [List.getElem?_eq_none (by omega), if_neg hi]; simp

theorem masked_all (h : ∀ i < xs.length, keep i) : masked keep z xs = xs := by
  apply List.ext_getElem?
  intro i
  rw [getElem?_masked]
  by_cases hi : i < xs.length
  · rw [if_pos (h i hi)]
  · rw [List.getElem?_eq_none (by omega), if_neg hi]; simp

theorem overlay_masked (off n : Nat) :
    overlay (masked keep z xs) off (slice xs off n) =
      masked (fun i => keep i ∨ (off ≤ i ∧ i < off + n)) z xs := by
  apply List.ext_getElem?
  intro i
  rw [getElem?_overlay, getElem?_masked, getElem?_masked, length_masked, length_slice, getElem?_slice]
  by_cases hi : i < xs.length
  · by_cases hr : off ≤ i ∧ i < off + n
    · rw [if_pos ⟨hr.1, by omega, hi⟩, if_pos (by omega), if_pos (.inr hr), Nat.add_sub_cancel' hr.1]
    · rw [if_neg (fun h => hr ⟨h.1, by omega⟩)]
      simp only [hr, or_false]
  · have hx : xs[i]? = none := List.getElem?_eq_none (by omega)
    rw [if_neg (fun h => hi h.2.2), if_neg hi, hx]
    simp

end
