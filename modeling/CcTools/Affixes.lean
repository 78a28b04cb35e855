import CcTools.Split

/-!
# Beginnings and ends of a string

`startsWith` and `endsWith` beside `split`. The first piece tells whether the string starts with the
delimiter; that the last one tells whether it ends with it takes a delimiter without borders
(`split_ends_with_iff`).
-/

namespace CcTools.StringUtils
open Search

variable {s t d str : Str}

theorem eq_of_zip (h : ∀ c ∈ s.zip t, c.1 = c.2) (hlen : s.length = t.length) : s = t := by
  induction s generalizing t with
  | nil => exact (List.eq_nil_of_length_eq_zero hlen.symm).symm
  | cons a s ih =>
    cases t with
    | nil => cases hlen
    | cons b t =>
      rw [List.zip_cons_cons, List.forall_mem_cons] at h
      rw [show a = b from h.1, ih h.2 (Nat.succ.inj hlen)]

theorem eq_of_mem_zip_self {c : UInt8 × UInt8} (h : c ∈ s.zip s) : c.1 = c.2 := by
  induction s with
  | nil => cases h
  | cons a s ih =>
    rcases List.mem_cons.1 h with rfl | h
    · rfl
    · exact ih h

theorem compare_eq_zero_iff : compare s t = 0 ↔ s = t := by
  unfold compare
  constructor
  · intro h
    split at h
    · split at h <;> cases h
    · rename_i hnone
      refine eq_of_zip (fun c hc => ?_) (by omega)
      simpa using List.find?_eq_none.1 hnone c hc
  · rintro rfl
    have hnone : (s.zip s).find? (fun c => c.1 != c.2) = none := by
      refine List.find?_eq_none.2 fun c hc => ?_
      simpa using eq_of_mem_zip_self hc
    rw [hnone]
    exact Int.sub_self _

theorem equal_iff : equal s t = true ↔ s = t := by
  rw [equal, beq_iff_eq, compare_eq_zero_iff]

theorem startsWith_iff : startsWith s d = true ↔ d <+: s := by
  rw [startsWith, Bool.and_eq_true, decide_eq_true_iff, beq_iff_eq, compare_eq_zero_iff, substr, List.drop_zero]
  constructor
  · rintro ⟨-, h⟩
    rw [← h]
    exact List.take_prefix ..
  · intro h
    exact ⟨h.length_le, (List.prefix_iff_eq_take.1 h).symm⟩

theorem endsWith_iff : endsWith s d = true ↔ d <:+ s := by
  rw [endsWith, Bool.and_eq_true, decide_eq_true_iff, beq_iff_eq, compare_eq_zero_iff, substr]
  have htake : d.length ≤ s.length → (s.drop (s.length - d.length)).take d.length = s.drop (s.length - d.length) := by
    intro hle
    refine List.take_of_length_le ?_
    rw [List.length_drop]
    omega
  constructor
  · rintro ⟨hle, h⟩
    rw [htake hle] at h
    rw [← h]
    exact List.drop_suffix ..
  · intro h
    rw [htake h.length_le]
    exact ⟨h.length_le, (List.suffix_iff_eq_drop.1 h).symm⟩

/-- What the pieces tell of the two ends of the string. -/
theorem split_ends_with_iff (hd : d ≠ []) :
    (∀ str fuel L, split fuel str d = some L → (startsWith str d = true ↔ 2 ≤ L.length ∧ L.head? = some [])) ∧
      ((∀ str fuel L, split fuel str d = some L → (endsWith str d = true ↔ 2 ≤ L.length ∧ L.getLast? = some [])) ↔
        Borderless d) := by
  refine ⟨fun str fuel L h => ?_, fun h => ?_, fun hb str fuel L h => ?_⟩
  · rw [startsWith_iff, (cut_of_split h).prefix_iff]
    constructor
    · rintro ⟨L', hL', rfl⟩
      exact ⟨Nat.succ_le_succ (List.length_pos_iff.2 hL'), rfl⟩
    · rintro ⟨hlen, hhead⟩
      obtain ⟨L', rfl⟩ := List.head?_eq_some_iff.1 hhead
      refine ⟨L', ?_, rfl⟩
      rintro rfl
      exact absurd hlen (by decide)
  · by_contra hb
    obtain ⟨s, x, hsuf, hx, hcut⟩ := exists_hidden_suffix hb
    have hsplit := (split_eq_iff hd (Nat.lt_succ_self s.length)).2 hcut
    have hlast := ((h s _ _ hsplit).1 (endsWith_iff.2 hsuf)).2
    exact hx (Option.some.inj hlast)
  · rw [endsWith_iff]
    exact hb.suffix_cut_iff hd (cut_of_split h)

/-- The string `aaa` ends with `aa`, but its last piece is `a`. -/
theorem split_ends_with_straddling : endsWith [97, 97, 97] [97, 97] = true ∧ startsWith [97, 97, 97] [97, 97] = true ∧
    split 4 [97, 97, 97] [97, 97] = some [[], [97]] := by
  have hsplit : split 4 [97, 97, 97] [97, 97] = some [[], [97]] := by decide
  exact ⟨by decide, ((split_ends_with_iff (d := [97, 97]) (by decide)).1 _ _ _ hsplit).2 (by decide), hsplit⟩

end CcTools.StringUtils
