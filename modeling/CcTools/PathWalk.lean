import CcTools.Lib.Runs
import CcTools.PathText
import Mathlib.Order.Cover

/-!
# Iterators walk over the elements

The positions at which an element begins, and the end, are the marks of a path. `++` goes to the next mark
and `--` to the one before (`next_covBy`, `decrement_covBy`), so each undoes the other, and whatever way an
iterator has come, it shows the element whose number it has counted to (`walk_shows`).
-/

namespace CcTools.Path
variable {s : Path} {i j k : Nat}

inductive Mark (s : Path) : Nat → Prop
  | first : Mark s 0
  | last : Mark s s.length
  | root : Mark s (root s)
  | name {i : Nat} (hsep : IsSep s i) (hlt : i + 1 < s.length) (hno : ¬ IsSep s (i + 1))
      (hbegin : ¬ (i = 1 ∧ IsSep s 0)) : Mark s (i + 1)
  | trailing {i : Nat} (hsep : IsSep s i) (hlast : i + 1 = s.length) : Mark s i

abbrev Marks (s : Path) := {i // Mark s i}

/-! ### Forwards -/

theorem skipSeps_of_not_isSep (fuel : Nat) (h : ¬ IsSep s i) : skipSeps s fuel i = i := by
  cases fuel with
  | zero => rfl
  | succ fuel => rw [skipSeps, if_neg (fun hc => h hc.2.2.1)]

/-- Behind an element, one separator is skipped at most, and none that is the root or the last byte. -/
theorem skipSeps_eq (hs : Normal s) (hpos : 0 < k) (hk : k = s.length ∨ IsSep s k) :
    skipSeps s s.length k = if k = s.length ∨ k = root s ∨ k + 1 = s.length then k else k + 1 := by
  obtain ⟨fuel, hfuel⟩ : ∃ fuel, s.length = fuel + 1 := by
    refine Nat.exists_eq_add_one.2 ?_
    rcases hk with rfl | hsep
    · exact hpos
    · exact Nat.zero_lt_of_lt hsep.lt
  nth_rewrite 1 [hfuel]
  rw [skipSeps]
  by_cases hstop : k = s.length ∨ k = root s ∨ k + 1 = s.length
  · rw [if_pos hstop, if_neg]
    rintro ⟨h1, h2, -, h3⟩
    exact hstop.elim h1 (fun h => h.elim h2 h3)
  · have hsep : IsSep s k := hk.resolve_left fun h => hstop (.inl h)
    rw [if_neg hstop, if_pos, skipSeps_of_not_isSep _ (hs.not_isSep_succ hpos hsep)]
    push Not at hstop
    exact ⟨hstop.1, hstop.2.1, hsep, hstop.2.2⟩

theorem not_mark_of_no_sep (hno : ∀ j, i ≤ j → j < k → ¬ IsSep s j) (hk : k ≤ s.length) (hi : i < j) (hj : j < k) :
    ¬ Mark s j := by
  intro h
  cases h with
  | first => omega
  | last => omega
  | root =>
    rcases root_cases s with hr | ⟨-, -, hr⟩
    · omega
    · exact hno _ (Nat.le_of_lt hi) hj hr
  | name hsep => exact hno _ (by omega) (by omega) hsep
  | trailing hsep => exact hno _ (Nat.le_of_lt hi) hj hsep

/-- From a mark on there are no marks up to `k`, where the element ends. -/
theorem covBy_skipSeps (hs : Normal s) (i : Marks s) (hi : i.1 < k) (hno : ∀ j, i.1 < j → j < k → ¬ Mark s j)
    (hk : k = s.length ∨ IsSep s k) (hbegin : ¬ (k = 1 ∧ IsSep s 0)) :
    ∃ h : Mark s (skipSeps s s.length k), i ⋖ ⟨skipSeps s s.length k, h⟩ := by
  rw [skipSeps_eq hs (Nat.zero_lt_of_lt hi) hk]
  by_cases hstop : k = s.length ∨ k = root s ∨ k + 1 = s.length
  · have hmark : Mark s k := by
      rcases hstop with rfl | rfl | h
      · exact .last
      · exact .root
      · rcases hk with rfl | hsep
        · exact .last
        · exact .trailing hsep h
    rw [if_pos hstop]
    exact ⟨hmark, hi, fun j hij hjk => hno j hij hjk j.2⟩
  · push Not at hstop
    have hsep : IsSep s k := hk.resolve_left hstop.1
    have hlt := hsep.lt
    have hmark : Mark s (k + 1) := .name hsep (by omega) (hs.not_isSep_succ (Nat.zero_lt_of_lt hi) hsep) hbegin
    have hnot : ¬ Mark s k := by
      intro h
      generalize hm : k = m at h
      cases h with
      | first => omega
      | last => exact hstop.1 hm
      | root => exact hstop.2.1 hm
      | name _ _ hsep' => exact hsep' (hm ▸ hsep)
      | trailing _ hlast => exact hstop.2.2 (hm ▸ hlast)
    rw [if_neg (by push Not; exact hstop)]
    refine ⟨hmark, Nat.lt_succ_of_lt hi, fun j hij hjk => ?_⟩
    rcases Nat.lt_succ_iff_lt_or_eq.1 hjk with hlt' | heq
    · exact hno j hij hlt' j.2
    · exact hnot (heq ▸ j.2)

theorem covBy_succ (i : Marks s) (h : Mark s (i + 1)) : i ⋖ ⟨i + 1, h⟩ :=
  ⟨Nat.lt_succ_self _, fun _ hij hji => absurd (Nat.lt_of_lt_of_le hij (Nat.lt_succ_iff.1 hji)) (Nat.lt_irrefl _)⟩

theorem next_of_not_isSep (hi : i < s.length) (h : ¬ IsSep s i) : next s i = skipSeps s s.length (findSep s (i + 1)) := by
  rw [next, increment, if_neg (by omega), if_neg h]

theorem next_of_isSep (h : IsSep s i) (hsucc : ¬ IsSep s (i + 1)) : next s i = i + 1 := by
  have := h.lt
  rw [next, increment, if_neg (by omega), if_pos h]
  dsimp only
  rw [if_neg (fun hc => hsucc hc.2), skipSeps_of_not_isSep _ hsucc]

theorem next_of_doubled (h : Doubled s) : next s 0 = skipSeps s s.length (findSep s 2) := by
  obtain ⟨hlen, h0, h1, h2⟩ := h
  rw [next, increment, if_neg (by omega), if_pos h0]
  dsimp only
  rw [if_pos ⟨by omega, h1⟩, if_pos ⟨rfl, fun hc => h2 hc.2⟩]

theorem Doubled.not_mark (h : Doubled s) (hpos : 0 < j) (hj : j < 3) : ¬ Mark s j := by
  obtain ⟨hlen, h0, h1, h2⟩ := h
  intro hmark
  have hcases : j = 1 ∨ j = 2 := by omega
  generalize hm : j = m at hmark
  cases hmark with
  | first => omega
  | last => omega
  | root =>
    have hne : Path.root s ≠ s.length := by omega
    have := root_bounds hne
    omega
  | @name m hsep hlt hno hbegin =>
    rcases hcases with rfl | rfl
    · exact hno (hm ▸ h1)
    · exact hbegin ⟨by omega, h0⟩
  | trailing hsep hlast =>
    rcases hcases with rfl | rfl
    · omega
    · exact h2 (hm ▸ hsep)

theorem next_covBy (hs : Normal s) (i : Marks s) (hi : i.1 < s.length) : ∃ h : Mark s (next s i), i ⋖ ⟨next s i, h⟩ := by
  obtain ⟨i, hmark⟩ := i
  dsimp only at hi ⊢
  by_cases hsep : IsSep s i
  · by_cases hsucc : IsSep s (i + 1)
    · -- the name of a host is one element with the separators before it
      obtain ⟨rfl, hd⟩ := hs i hsep hsucc
      have hbounds := findSep_bounds (s := s) (p := 2) (Nat.le_of_lt hd.1)
      have hlt : 2 < findSep s 2 := by
        refine Nat.lt_of_le_of_ne hbounds.1 fun heq => hd.2.2.2 ?_
        nth_rewrite 1 [heq]
        refine isSep_findSep ?_
        rw [← heq]
        exact hd.1
      rw [next_of_doubled hd]
      refine covBy_skipSeps hs ⟨0, hmark⟩ (Nat.zero_lt_of_lt hlt) (fun j hpos hj => ?_) ?_ (by omega)
      · by_cases h3 : j < 3
        · exact hd.not_mark hpos h3
        · exact not_mark_of_no_sep (fun _ => not_isSep_of_lt_findSep) hbounds.2 (Nat.lt_of_not_le fun h => h3 (by omega)) hj
      · rcases Nat.lt_or_eq_of_le hbounds.2 with h | h
        · exact .inr (isSep_findSep h)
        · exact .inl h
    · have hnext : Mark s (i + 1) := by
        rcases Nat.lt_or_eq_of_le (Nat.succ_le_of_lt hi) with hlt | heq
        · refine .name hsep hlt hsucc ?_
          rintro ⟨rfl, h0⟩
          exact (hs 0 h0 hsep).2.not_mark (by decide) (by decide) hmark
        · rw [show i + 1 = s.length from heq]
          exact .last
      rw [next_of_isSep hsep hsucc]
      exact ⟨hnext, covBy_succ ⟨i, hmark⟩ hnext⟩
  · have hbounds := findSep_bounds (s := s) (p := i + 1) hi
    have hno : ∀ j, i ≤ j → j < findSep s (i + 1) → ¬ IsSep s j := by
      intro j hij hj
      rcases Nat.lt_or_eq_of_le hij with hlt | rfl
      · exact not_isSep_of_lt_findSep hlt hj
      · exact hsep
    rw [next_of_not_isSep hi hsep]
    refine covBy_skipSeps hs ⟨i, hmark⟩ hbounds.1 (fun j => not_mark_of_no_sep hno hbounds.2) ?_ ?_
    · rcases Nat.lt_or_eq_of_le hbounds.2 with h | h
      · exact .inr (isSep_findSep h)
      · exact .inl h
    · rintro ⟨hone, h0⟩
      obtain rfl : i = 0 := by omega
      exact hsep h0

/-! ### Backwards -/

theorem Mark.le (h : Mark s i) : i ≤ s.length := by
  cases h with
  | first => exact Nat.zero_le _
  | last => exact Nat.le_refl _
  | root => exact root_le s
  | name _ hlt => exact Nat.le_of_lt hlt
  | trailing hsep => exact Nat.le_of_lt hsep.lt

theorem not_mark_of_no_sep_before (hno : ∀ j, k ≤ j → j < i → ¬ IsSep s j) (hi : i < s.length) (hroot : i ≠ root s)
    (hlast : i + 1 ≠ s.length ∨ ¬ IsSep s i) (hj : k < j) (hji : j ≤ i) : ¬ Mark s j := by
  rcases Nat.lt_or_eq_of_le hji with hlt | rfl
  · exact not_mark_of_no_sep hno (Nat.le_of_lt hi) hj hlt
  · intro h
    generalize hm : j = m at h
    cases h with
    | first => omega
    | last => omega
    | root => exact hroot hm
    | name hsep => exact hno _ (by omega) (by omega) hsep
    | trailing hsep heq => exact hlast.elim (fun h => h (by omega)) (fun h => h (hm ▸ hsep))

theorem mark_behindSep (hs : Normal s) (hmark : Mark s (i + 1)) (hbegin : ¬ (behindSep s i = 2 ∧ IsSep s 0 ∧ IsSep s 1)) :
    Mark s (behindSep s i) := by
  have hle := behindSep_le (s := s) (i := i)
  have hlen := hmark.le
  rcases Nat.eq_zero_or_pos (behindSep s i) with h0 | hpos
  · rw [h0]
    exact .first
  · have hsep := isSep_behindSep hpos
    have hno := fun j => not_isSep_of_behindSep_le (s := s) (i := i) (j := j)
    generalize behindSep s i = k at *
    obtain ⟨m, rfl⟩ := Nat.exists_eq_add_one.2 hpos
    rw [Nat.add_sub_cancel] at hsep
    refine .name hsep (by omega) ?_ ?_
    · intro hsucc
      obtain ⟨rfl, hd⟩ := hs m hsep hsucc
      have hi : i = 1 := by
        by_contra hne
        exact hno 1 (Nat.le_refl _) (by omega) hsucc
      exact hd.not_mark (by decide) (by decide) (hi ▸ hmark)
    · rintro ⟨rfl, h0⟩
      exact hbegin ⟨rfl, h0, hsep⟩

theorem decrement_covBy (hs : Normal s) (i : Marks s) (hi : 0 < i.1) :
    ∃ h : Mark s (decrement s i), ⟨decrement s i, h⟩ ⋖ i := by
  obtain ⟨i, hmark⟩ := i
  obtain ⟨i, rfl⟩ := Nat.exists_eq_add_one.2 hi
  have hlen : i < s.length := hmark.le
  dsimp only
  rw [decrement, if_neg (Nat.succ_ne_zero i)]
  dsimp only
  rw [Nat.add_sub_cancel]
  by_cases hstay : i ≠ root s ∧ (i + 1 ≠ s.length ∨ ¬ IsSep s i)
  · have hno := fun j => not_isSep_of_behindSep_le (s := s) (i := i) (j := j)
    have hle := behindSep_le (s := s) (i := i)
    rw [if_pos hstay]
    by_cases hbegin : behindSep s i = 2 ∧ IsSep s 0 ∧ IsSep s 1
    · -- the two separators belong to the name of the host
      obtain ⟨htwo, h0, h1⟩ := hbegin
      have hd := (hs 0 h0 h1).2
      rw [if_pos ⟨htwo, h0, h1⟩]
      simp only [htwo] at hno ⊢
      refine ⟨.first, hi, fun j hj hji => ?_⟩
      by_cases h3 : j.1 < 3
      · exact hd.not_mark hj h3 j.2
      · exact not_mark_of_no_sep_before hno hlen hstay.1 hstay.2 (by omega) (Nat.lt_succ_iff.1 hji) j.2
    · rw [if_neg hbegin]
      refine ⟨mark_behindSep hs hmark hbegin, Nat.lt_succ_of_le hle, fun j hj hji => ?_⟩
      exact not_mark_of_no_sep_before hno hlen hstay.1 hstay.2 hj (Nat.lt_succ_iff.1 hji) j.2
  · have hback : Mark s i := by
      by_cases hroot : i = root s
      · rw [hroot]
        exact .root
      · obtain ⟨hlast, hsep⟩ : i + 1 = s.length ∧ IsSep s i := by
          by_contra h
          exact hstay ⟨hroot, not_and_or.1 h⟩
        exact .trailing hsep hlast
    rw [if_neg hstay]
    exact ⟨hback, covBy_succ ⟨i, hback⟩ hmark⟩

theorem decrement_next (hs : Normal s) (hmark : Mark s i) (hi : i < s.length) : decrement s (next s i) = i := by
  obtain ⟨hnext, hcov⟩ := next_covBy hs ⟨i, hmark⟩ hi
  obtain ⟨_, hcov'⟩ := decrement_covBy hs ⟨next s i, hnext⟩ (Nat.zero_lt_of_lt hcov.1)
  exact congrArg Subtype.val (hcov'.unique_left hcov)

/-! ### The walk -/

inductive Move where
  | forward
  | back
deriving DecidableEq, Repr

/-- `++` and `--`; at the end and at the beginning an iterator stays where it is. -/
def move (s : Path) (iter : Nat) : Move → Nat
  | .forward => next s iter
  | .back => decrement s iter

/-- What a walk over a list of `n` elements counts. -/
def count (n k : Nat) : Move → Nat
  | .forward => min (k + 1) n
  | .back => k - 1

theorem next_length (s : Path) : next s s.length = s.length := by
  rw [next, increment, if_pos rfl, skipSeps_of_not_isSep]
  exact fun h => Nat.lt_irrefl _ h.lt

theorem current_length (s : Path) : current s s.length = [] := by rw [current, if_pos (.inl rfl)]

/-- The marks from `i` on, in the order in which `++` comes to them. -/
theorem exists_marks (hs : Normal s) {fuel : Nat} (hmark : Mark s i) (hfuel : s.length - i ≤ fuel) : ∃ n,
    (next s)^[n] i = s.length ∧ (∀ k < n, Mark s ((next s)^[k] i) ∧ (next s)^[k] i < s.length) ∧
      elementsFrom s fuel i = (List.range n).map fun k => current s ((next s)^[k] i) := by
  induction fuel generalizing i with
  | zero =>
    have := hmark.le
    exact ⟨0, show i = s.length by omega, fun k hk => absurd hk (Nat.not_lt_zero k), rfl⟩
  | succ fuel ih =>
    rw [elementsFrom]
    by_cases hi : i = s.length
    · rw [if_pos hi]
      exact ⟨0, hi, fun k hk => absurd hk (Nat.not_lt_zero k), rfl⟩
    · have hlt := Nat.lt_of_le_of_ne hmark.le hi
      obtain ⟨hnext, hcov⟩ := next_covBy hs ⟨i, hmark⟩ hlt
      have hup : i < next s i := hcov.1
      obtain ⟨n, hlast, hbelow, heq⟩ := ih hnext (show s.length - next s i ≤ fuel by omega)
      refine ⟨n + 1, hlast, fun k hk => ?_, ?_⟩
      · cases k with
        | zero => exact ⟨hmark, hlt⟩
        | succ k => exact hbelow k (Nat.lt_of_succ_lt_succ hk)
      · rw [if_neg hi, heq, List.range_succ_eq_map, List.map_cons, List.map_map]
        rfl

/-- Whatever way an iterator has come, it shows the element whose number it has counted to. -/
theorem walk_shows (text : Str) (moves : List Move) :
    let s := postprocess text
    current s (Runs.run (move s) 0 moves) =
        (elements s).getD (Runs.run (count (elements s).length) 0 moves) [] ∧
      (Runs.run (move s) 0 moves = s.length ↔
        Runs.run (count (elements s).length) 0 moves = (elements s).length) := by
  intro s
  have hs : Normal s := normal_postprocess text
  obtain ⟨n, hlast, hbelow, heq⟩ := exists_marks hs .first (Nat.sub_le s.length 0)
  have hlen : (elements s).length = n := by
    rw [elements, heq, List.length_map, List.length_range]
  have hstep : ∀ pos k, k ≤ n ∧ pos = (next s)^[k] 0 → ∀ m, count n k m ≤ n ∧ move s pos m = (next s)^[count n k m] 0 := by
    rintro pos k ⟨hk, rfl⟩ m
    cases m with
    | forward =>
      refine ⟨Nat.min_le_right .., ?_⟩
      rcases Nat.lt_or_eq_of_le hk with hlt | rfl
      · rw [count, Nat.min_eq_left hlt, Function.iterate_succ_apply']
        rfl
      · rw [count, Nat.min_eq_right (Nat.le_succ _), hlast]
        exact next_length s
    | back =>
      refine ⟨Nat.le_trans (Nat.sub_le ..) hk, ?_⟩
      cases k with
      | zero => rfl
      | succ k =>
        obtain ⟨hmark, hlt⟩ := hbelow k hk
        rw [count, Nat.add_sub_cancel, Function.iterate_succ_apply']
        exact decrement_next hs hmark hlt
  obtain ⟨hk, hpos⟩ := Runs.run_rel hstep moves (show 0 ≤ n ∧ 0 = (next s)^[0] 0 from ⟨Nat.zero_le n, rfl⟩)
  rw [hlen, hpos]
  generalize Runs.run (count n) 0 moves = k at hk
  rcases Nat.lt_or_eq_of_le hk with hlt | rfl
  · obtain ⟨-, hnot⟩ := hbelow k hlt
    refine ⟨?_, iff_of_false (by omega) (by omega)⟩
    rw [elements, heq, List.getD_eq_getElem?_getD, List.getElem?_map, List.getElem?_range hlt]
    rfl
  · rw [hlast, current_length]
    refine ⟨?_, iff_of_true rfl rfl⟩
    rw [List.getD_eq_getElem?_getD, List.getElem?_eq_none (Nat.le_of_eq hlen)]
    rfl

end CcTools.Path
