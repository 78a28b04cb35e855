import CcTools.Affixes
import CcTools.PathNames

/-!
# Comparing paths

`compare` looks at the second root name only as far as the first one goes, so it takes a path for another
whose host begins with the same bytes (`compare_eq_iff`). Both ways round it tells any two paths apart.
-/

namespace CcTools.Path
variable {s p : Path}

theorem compareRest_eq_zero_iff {s t : Str} : compareRest s t = 0 ↔ s = t := by
  induction s generalizing t with
  | nil => cases t <;> simp [compareRest]
  | cons c s ih =>
    cases t with
    | nil => simp [compareRest]
    | cons d t =>
      rw [compareRest, List.cons.injEq]
      split
      · next h => rw [ih, and_iff_right h]
      · next h =>
        refine iff_of_false ?_ fun hc => h hc.1
        repeat' split
        all_goals decide

theorem hasRootDirectory_iff : HasRootDirectory s ↔ IsSep s (rootNameLength s) := and_iff_right_of_imp IsSep.lt

theorem drop_rootNameLength (s : Path) : s.drop (rootNameLength s) =
    (if HasRootDirectory s then sep else []) ++ s.drop (rootPathLen s) := by
  rw [rootPathLen]
  split
  · next h => exact drop_eq_sep_append h.2
  · rfl

theorem compare_eq_zero_iff_parts : compare s p = 0 ↔
    s.take (rootNameLength s) = p.take (min (rootNameLength s) (rootNameLength p)) ∧
      (HasRootDirectory s ↔ HasRootDirectory p) ∧ s.drop (rootPathLen s) = p.drop (rootPathLen p) := by
  rw [compare, ← StringUtils.compare_eq_zero_iff]
  split
  · next h => exact iff_of_false h fun hc => h hc.1
  · next h =>
    rw [and_iff_right (not_not.1 h)]
    split
    · next hdir => rw [compareRest_eq_zero_iff, and_iff_right hdir]
    · next hdir =>
      refine iff_of_false ?_ fun hc => hdir hc.1
      split <;> decide

theorem length_take_rootNameLength (s : Path) : (s.take (rootNameLength s)).length = rootNameLength s := by
  rw [List.length_take, Nat.min_eq_left (rootNameLength_le s)]

/-- The root directory and what is behind it are read off what stands behind the root name. -/
theorem drop_rootPathLen_congr (h : s.drop (rootNameLength s) = p.drop (rootNameLength p)) :
    (HasRootDirectory s ↔ HasRootDirectory p) ∧ s.drop (rootPathLen s) = p.drop (rootPathLen p) := by
  have hdir : HasRootDirectory s ↔ HasRootDirectory p := by
    rw [hasRootDirectory_iff, hasRootDirectory_iff, ← Nat.add_zero (rootNameLength s), ← Nat.add_zero (rootNameLength p),
      ← isSep_drop, h, isSep_drop]
  refine ⟨hdir, ?_⟩
  rw [rootPathLen, rootPathLen, ← List.drop_drop, h, List.drop_drop]
  simp only [hdir]

theorem drop_rootNameLength_congr (hdir : HasRootDirectory s ↔ HasRootDirectory p)
    (h : s.drop (rootPathLen s) = p.drop (rootPathLen p)) : s.drop (rootNameLength s) = p.drop (rootNameLength p) := by
  rw [drop_rootNameLength, drop_rootNameLength, h]
  simp only [hdir]

theorem exists_more (h : compare s p = 0) : ∃ more, rootNameLength p = rootNameLength s + more.length ∧
    p = s.take (rootNameLength s) ++ more ++ s.drop (rootNameLength s) := by
  obtain ⟨hname, hdir, hrest⟩ := compare_eq_zero_iff_parts.1 h
  have hle : rootNameLength s ≤ rootNameLength p := by
    have hlen := congrArg List.length hname
    rw [length_take_rootNameLength, List.length_take] at hlen
    omega
  rw [Nat.min_eq_left hle] at hname
  refine ⟨(p.take (rootNameLength p)).drop (rootNameLength s), ?_, ?_⟩
  · rw [List.length_drop, length_take_rootNameLength, Nat.add_sub_cancel' hle]
  · rw [hname, drop_rootNameLength_congr hdir hrest, ← Nat.min_eq_left hle, ← List.take_take, Nat.min_eq_left hle,
      List.take_append_drop, List.take_append_drop]

/-- `compare` finds no difference exactly where the second path is the first with something put in behind the
name of its host; if it finds none both ways round, the paths are the same. -/
theorem compare_eq_iff (s p : Path) :
    (compare s p = 0 ↔ ∃ more, rootNameLength p = rootNameLength s + more.length ∧
      p = s.take (rootNameLength s) ++ more ++ s.drop (rootNameLength s)) ∧
    (compare s p = 0 ∧ compare p s = 0 ↔ s = p) := by
  refine ⟨⟨exists_more, ?_⟩, ⟨?_, ?_⟩⟩
  · rintro ⟨more, hlen, heq⟩
    have hname := length_take_rootNameLength s
    refine compare_eq_zero_iff_parts.2 ⟨?_, drop_rootPathLen_congr ?_⟩
    · rw [Nat.min_eq_left (by omega)]
      conv_rhs => rw [heq, List.append_assoc, List.take_left' hname]
    · have hmore : (s.take (rootNameLength s) ++ more).length = rootNameLength s + more.length := by
        rw [List.length_append, hname]
      rw [hlen]
      conv_rhs => rw [heq, List.drop_left' hmore]
  · rintro ⟨h, h'⟩
    obtain ⟨more, hlen, heq⟩ := exists_more h
    obtain ⟨more', hlen', -⟩ := exists_more h'
    obtain rfl : more = [] := List.eq_nil_of_length_eq_zero (by omega)
    rw [heq, List.append_nil, List.take_append_drop]
  · rintro rfl
    have hself : compare s s = 0 := compare_eq_zero_iff_parts.2 ⟨by rw [Nat.min_self], Iff.rfl, rfl⟩
    exact ⟨hself, hself⟩

end CcTools.Path
