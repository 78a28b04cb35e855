import CcTools.Path

/-!
# The separators of a path

`postprocess` leaves two separators side by side only at the beginning of the text, and there only if a
third one does not follow (`Normal`). A text of that kind is what it makes of itself.
-/

namespace CcTools.Path
variable {s : Str} {i j p : Nat}

/-! ### Separators -/

theorem IsSep.lt (h : IsSep s i) : i < s.length := (List.getElem?_eq_some_iff.1 h).1

@[simp] theorem isSep_nil : ¬ IsSep [] i := by simp [IsSep]

@[simp] theorem isSep_cons_zero {c : UInt8} : IsSep (c :: s) 0 ↔ c = preferredSeparator := by simp [IsSep]

@[simp] theorem isSep_cons_succ {c : UInt8} : IsSep (c :: s) (i + 1) ↔ IsSep s i := by simp [IsSep]

theorem isSep_drop : IsSep (s.drop i) j ↔ IsSep s (i + j) := by simp [IsSep]

theorem isSep_take : IsSep (s.take i) j ↔ j < i ∧ IsSep s j := by
  unfold IsSep
  rw [List.getElem?_take]
  by_cases h : j < i <;> simp [h]

theorem isSep_append_left {t : Str} (h : i < s.length) : IsSep (s ++ t) i ↔ IsSep s i := by
  unfold IsSep
  rw [List.getElem?_append_left h]

theorem isSep_append_right {t : Str} : IsSep (s ++ t) (s.length + i) ↔ IsSep t i := by
  unfold IsSep
  rw [List.getElem?_append_right (Nat.le_add_right ..), Nat.add_sub_cancel_left]

theorem isSep_last_iff : IsSep s (s.length - 1) ↔ s.getLast? = some preferredSeparator := by
  rw [List.getLast?_eq_getElem?]
  rfl

theorem findSep_bounds (h : p ≤ s.length) : p ≤ findSep s p ∧ findSep s p ≤ s.length := by
  have hle : (s.drop p).findIdx (· == preferredSeparator) ≤ (s.drop p).length := List.findIdx_le_length
  rw [List.length_drop] at hle
  unfold findSep
  omega

theorem not_isSep_of_lt_findSep (hpos : p ≤ i) (h : i < findSep s p) : ¬ IsSep s i := by
  have hlt : i - p < (s.drop p).findIdx (· == preferredSeparator) := by
    unfold findSep at h
    omega
  have hno := List.not_of_lt_findIdx hlt
  rw [List.getElem_drop] at hno
  intro hsep
  obtain ⟨hi, heq⟩ := List.getElem?_eq_some_iff.1 hsep
  simp only [show p + (i - p) = i by omega, heq, beq_self_eq_true, Bool.true_eq_false] at hno

theorem isSep_findSep (h : findSep s p < s.length) : IsSep s (findSep s p) := by
  have hlt : (s.drop p).findIdx (· == preferredSeparator) < (s.drop p).length := by
    rw [List.length_drop]
    unfold findSep at h
    omega
  have heq := List.findIdx_getElem (w := hlt)
  rw [List.getElem_drop] at heq
  exact List.getElem?_eq_some_iff.2 ⟨h, eq_of_beq heq⟩

theorem findSep_eq (hpos : p ≤ i) (hi : i ≤ s.length) (hno : ∀ j, p ≤ j → j < i → ¬ IsSep s j)
    (hsep : i < s.length → IsSep s i) : findSep s p = i := by
  obtain ⟨hle, hlen⟩ := findSep_bounds (Nat.le_trans hpos hi)
  rcases Nat.lt_trichotomy (findSep s p) i with hlt | heq | hgt
  · exact absurd (isSep_findSep (by omega)) (hno _ hle hlt)
  · exact heq
  · exact absurd (hsep (by omega)) (not_isSep_of_lt_findSep hpos hgt)

theorem behindSep_le : behindSep s i ≤ i := by
  induction i with
  | zero => exact Nat.le_refl _
  | succ i ih =>
    rw [behindSep]
    split
    · exact Nat.le_refl _
    · omega

theorem not_isSep_of_behindSep_le (h : behindSep s i ≤ j) (hj : j < i) : ¬ IsSep s j := by
  induction i with
  | zero => omega
  | succ i ih =>
    rw [behindSep] at h
    split at h
    · omega
    · rcases Nat.lt_succ_iff_lt_or_eq.1 hj with hlt | rfl
      · exact ih h hlt
      · assumption

theorem isSep_behindSep (h : 0 < behindSep s i) : IsSep s (behindSep s i - 1) := by
  induction i with
  | zero => exact absurd h (Nat.lt_irrefl 0)
  | succ i ih =>
    rw [behindSep] at h ⊢
    split at h
    · rw [if_pos (by assumption)]
      assumption
    · rw [if_neg (by assumption)]
      exact ih h

/-! ### Normal texts -/

def Normal (s : Str) : Prop := ∀ i, IsSep s i → IsSep s (i + 1) → i = 0 ∧ Doubled s

theorem nil_or_single (h : ∀ c d t, s = c :: d :: t → False) : s = [] ∨ ∃ c, s = [c] := by
  rcases s with _ | ⟨c, _ | ⟨d, t⟩⟩
  · exact .inl rfl
  · exact .inr ⟨c, rfl⟩
  · exact (h c d t rfl).elim

theorem unique_head (c : UInt8) (s : Str) : ∃ t, unique (c :: s) = c :: t := by
  induction s generalizing c with
  | nil => exact ⟨[], rfl⟩
  | cons d s ih =>
    rw [unique]
    split
    · next h =>
      rw [h.1]
      exact ih d
    · exact ⟨_, rfl⟩

theorem isSep_unique_zero : IsSep (unique s) 0 ↔ IsSep s 0 := by
  cases s with
  | nil => rfl
  | cons c s =>
    obtain ⟨t, ht⟩ := unique_head c s
    rw [ht, isSep_cons_zero, isSep_cons_zero]

theorem not_isSep_unique (h : IsSep (unique s) i) : ¬ IsSep (unique s) (i + 1) := by
  induction s using unique.induct generalizing i with
  | case1 c d s hcd ih =>
    rw [unique, if_pos hcd] at h ⊢
    exact ih h
  | case2 c d s hcd ih =>
    rw [unique, if_neg hcd] at h ⊢
    rw [isSep_cons_succ]
    cases i with
    | zero =>
      rw [isSep_unique_zero, isSep_cons_zero]
      rintro rfl
      exact hcd ⟨isSep_cons_zero.1 h, isSep_cons_zero.1 h⟩
    | succ i => exact ih (isSep_cons_succ.1 h)
  | case3 s hs =>
    obtain rfl | ⟨c, rfl⟩ := nil_or_single hs
    · exact isSep_nil
    · exact isSep_cons_succ.not.2 isSep_nil

theorem unique_eq_self (h : ∀ i, IsSep s i → ¬ IsSep s (i + 1)) : unique s = s := by
  induction s using unique.induct with
  | case1 c d s hcd => exact absurd (isSep_cons_succ.2 (isSep_cons_zero.2 (hcd.1 ▸ hcd.2))) (h 0 (isSep_cons_zero.2 hcd.2))
  | case2 c d s hcd ih =>
    rw [unique, if_neg hcd, ih]
    exact fun i hi hsucc => h (i + 1) (isSep_cons_succ.2 hi) (isSep_cons_succ.2 hsucc)
  | case3 s hs =>
    obtain rfl | ⟨c, rfl⟩ := nil_or_single hs
    · rfl
    · rfl

theorem unique_ne_nil (h : s ≠ []) : unique s ≠ [] := by
  cases s with
  | nil => exact absurd rfl h
  | cons c s =>
    obtain ⟨t, ht⟩ := unique_head c s
    rw [ht]
    exact List.cons_ne_nil c t

theorem Doubled.length_take (h : Doubled s) : (s.take 2).length = 2 := by
  have := h.1
  rw [List.length_take]
  omega

theorem Doubled.isSep_postprocess (h : Doubled s) : IsSep (postprocess s) (2 + i) ↔ IsSep (unique (s.drop 2)) i := by
  have happend := isSep_append_right (s := s.take 2) (t := unique (s.drop 2)) (i := i)
  rwa [h.length_take, ← show postprocess s = s.take 2 ++ unique (s.drop 2) from if_pos h] at happend

theorem Doubled.isSep_postprocess_lt (h : Doubled s) (hi : i < 2) : IsSep (postprocess s) i ↔ IsSep s i := by
  rw [postprocess, if_pos h, isSep_append_left (by rw [h.length_take]; exact hi), isSep_take, and_iff_right hi]

theorem Doubled.postprocess (h : Doubled s) : Doubled (postprocess s) := by
  obtain ⟨hlen, h0, h1, h2⟩ := h
  have hd : Doubled s := ⟨hlen, h0, h1, h2⟩
  have hne : s.drop 2 ≠ [] := by
    intro hnil
    have := congrArg List.length hnil
    rw [List.length_drop, List.length_nil] at this
    omega
  refine ⟨?_, (hd.isSep_postprocess_lt (by decide)).2 h0, (hd.isSep_postprocess_lt (by decide)).2 h1, ?_⟩
  · have hpos := List.length_pos_iff.2 (unique_ne_nil hne)
    rw [Path.postprocess, if_pos hd, List.length_append, hd.length_take]
    omega
  · rw [show 2 = 2 + 0 from rfl, hd.isSep_postprocess, isSep_unique_zero, isSep_drop]
    exact h2

theorem normal_postprocess (s : Str) : Normal (postprocess s) := by
  intro i hi hsucc
  by_cases h : Doubled s
  · refine ⟨?_, h.postprocess⟩
    match i with
    | 0 => rfl
    | 1 => exact absurd hsucc h.postprocess.2.2.2
    | i + 2 =>
      rw [Nat.add_comm i 2] at hi hsucc
      exact absurd (h.isSep_postprocess.1 hsucc) (not_isSep_unique (h.isSep_postprocess.1 hi))
  · rw [postprocess, if_neg h] at hi hsucc
    exact absurd hsucc (not_isSep_unique hi)

theorem Normal.postprocess_eq (h : Normal s) : postprocess s = s := by
  unfold postprocess
  split
  · rw [unique_eq_self, List.take_append_drop]
    intro i hi hsucc
    rw [isSep_drop] at hi hsucc
    have := (h _ hi hsucc).1
    omega
  · next hd => exact unique_eq_self fun i hi hsucc => hd (h i hi hsucc).2

theorem postprocess_idem (s : Str) : postprocess (postprocess s) = postprocess s := (normal_postprocess s).postprocess_eq

theorem normal_of_forall_not_isSep (h : ∀ i, ¬ IsSep s i) : Normal s := fun i hi => absurd hi (h i)

theorem Normal.not_isSep_succ (h : Normal s) (hi : 0 < i) (hsep : IsSep s i) : ¬ IsSep s (i + 1) := by
  intro hsucc
  have := (h i hsep hsucc).1
  omega

/-- Only at the beginning do two bytes of a normal text matter together. -/
theorem Normal.drop (h : Normal s) (hi : 0 < i) : Normal (s.drop i) := by
  intro j hj hsucc
  rw [isSep_drop] at hj hsucc
  exact absurd hsucc (h.not_isSep_succ (Nat.add_pos_left hi j) hj)

/-! ### Where the root ends -/

theorem rootNameLength_cases (s : Path) : rootNameLength s = 0 ∨
    Doubled s ∧ rootNameLength s = findSep s 3 ∧ 3 ≤ rootNameLength s ∧ rootNameLength s ≤ s.length := by
  unfold rootNameLength
  split
  · next h =>
    have := findSep_bounds (s := s) (p := 3) h.1.1
    exact .inr ⟨h.1, rfl, this⟩
  · exact .inl rfl

theorem rootNameLength_le (s : Path) : rootNameLength s ≤ s.length := by
  rcases rootNameLength_cases s with h | h <;> omega

/-- The root is a separator or the end. -/
theorem root_cases (s : Path) : root s = s.length ∨ root s < s.length ∧ root s = rootNameLength s ∧ IsSep s (root s) := by
  unfold root
  split
  · next h => exact .inr ⟨h.1, rfl, h.2⟩
  · exact .inl rfl

theorem root_le (s : Path) : root s ≤ s.length := by
  rcases root_cases s with h | h <;> omega

/-- A root that is not the first byte is behind a name of at least three. -/
theorem root_bounds (hs : root s ≠ s.length) : root s = 0 ∨ 3 ≤ root s := by
  rcases root_cases s with h | ⟨-, h, -⟩
  · exact absurd h hs
  · rcases rootNameLength_cases s with h' | h' <;> omega

end CcTools.Path
