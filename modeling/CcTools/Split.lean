import CcTools.Lib.Cut
import CcTools.StringUtils

/-!
# `split` cuts at the leftmost delimiters

Each iteration shortens the working copy by what was found and the delimiter, so the loop ends unless the
delimiter is empty (`split_ends_iff`). What it returns are the pieces of `Search.Cut` (`split_eq_iff`).
-/

namespace CcTools.StringUtils
open Search

variable {str d x : Str} {s s' : SplitState} {L : List Str} {fuel : Nat}

theorem contain_eq_false_iff : contain x d = false ↔ ∀ p, ¬ Occurs x d p := by
  rw [contain, Option.isSome_eq_false_iff, Option.isNone_iff_eq_none, find_eq_none_iff]

theorem splitStep_eq_none_iff : splitStep d s = none ↔ ∀ p, ¬ Occurs s.tmpStr d p := by
  rw [splitStep, Option.map_eq_none_iff, find_eq_none_iff]

theorem splitStep_some {p : Nat} (h : First s.tmpStr d p) : splitStep d s =
    some { result := s.result ++ [s.tmpStr.take p], tmpStr := s.tmpStr.drop (p + d.length) } := by
  rw [splitStep, find_eq_some_iff.2 h]
  simp [substr, erase]

theorem splitStep_cases (h : splitStep d s = some s') : ∃ p, First s.tmpStr d p ∧
    s' = { result := s.result ++ [s.tmpStr.take p], tmpStr := s.tmpStr.drop (p + d.length) } := by
  cases hf : find s.tmpStr d with
  | none =>
    rw [splitStep, hf] at h
    cases h
  | some p =>
    have hp := find_eq_some_iff.1 hf
    rw [splitStep_some hp] at h
    exact ⟨p, hp, (Option.some.inj h).symm⟩

/-! ### The loop ends -/

theorem splitStep_shortens (hd : d ≠ []) (h : splitStep d s = some s') : s'.tmpStr.length < s.tmpStr.length := by
  obtain ⟨p, hp, rfl⟩ := splitStep_cases h
  have hle := hp.1.add_length_le
  have hpos := List.length_pos_iff.2 hd
  simp only [List.length_drop]
  omega

theorem splitStep_nil (s : SplitState) :
    splitStep [] s = some { result := s.result ++ [[]], tmpStr := s.tmpStr } :=
  splitStep_some (p := 0) ⟨occurs_zero.2 (List.nil_prefix ..), fun q hq => absurd hq (Nat.not_lt_zero q)⟩

theorem split_ends (str : Str) (hd : d ≠ []) (hfuel : str.length < fuel) : ∃ L, split fuel str d = some L := by
  have hrun : ∃ r, Loop.run (splitStep d) fuel { tmpStr := str } = some r :=
    Loop.exists_run (fun s => s.tmpStr.length) (fun _ _ => splitStep_shortens hd) hfuel
  obtain ⟨r, hr⟩ := hrun
  exact ⟨_, by rw [split, hr]; rfl⟩

theorem split_nil (fuel : Nat) (str : Str) : split fuel str [] = none := by
  cases hr : Loop.run (splitStep []) fuel { tmpStr := str } with
  | none => rw [split, hr]; rfl
  | some r =>
    have hends : ¬ Loop.Ends (splitStep []) { tmpStr := str } :=
      Loop.not_ends (P := fun _ => True) (fun s _ => ⟨_, splitStep_nil s, trivial⟩) trivial
    exact absurd ⟨fuel, r, hr⟩ hends

/-- The loop of `split` ends, and each of its iterations shortens the working copy, unless the delimiter is
empty. -/
theorem split_ends_iff (str d : Str) :
    ((∃ fuel L, split fuel str d = some L) ↔ d ≠ []) ∧
      ((∀ s s', splitStep d s = some s' → s'.tmpStr.length < s.tmpStr.length) ↔ d ≠ []) := by
  refine ⟨⟨?_, fun hd => ⟨_, split_ends str hd (Nat.lt_succ_self _)⟩⟩, ?_, fun hd _ _ => splitStep_shortens hd⟩
  · rintro ⟨fuel, L, h⟩ rfl
    rw [split_nil] at h
    cases h
  · rintro h rfl
    have hlt := h _ _ (splitStep_nil { tmpStr := str })
    exact Nat.lt_irrefl _ hlt

theorem split_empty_delimiter_runs_on : ¬ ∃ fuel L, split fuel [97] [] = some L := by
  rintro ⟨fuel, L, h⟩
  rw [split_nil] at h
  cases h

/-! ### What it returns -/

theorem cut_of_run {r : SplitState} (h : Loop.run (splitStep d) fuel s = some r) :
    ∃ L, Cut d s.tmpStr L ∧ r.result ++ [r.tmpStr] = s.result ++ L := by
  induction fuel generalizing s with
  | zero => cases h
  | succ fuel ih =>
    cases hs : splitStep d s with
    | none =>
      rw [Loop.run_exit hs] at h
      rw [← Option.some.inj h]
      exact ⟨[s.tmpStr], .last (splitStep_eq_none_iff.1 hs), rfl⟩
    | some s' =>
      rw [Loop.run_next hs] at h
      obtain ⟨L, hcut, hL⟩ := ih h
      obtain ⟨p, hp, rfl⟩ := splitStep_cases hs
      refine ⟨s.tmpStr.take p :: L, .next hp hcut, ?_⟩
      rw [hL, List.append_assoc, List.singleton_append]

theorem cut_of_split (h : split fuel str d = some L) : Cut d str L := by
  obtain ⟨r, hr, rfl⟩ := Option.map_eq_some_iff.1 h
  obtain ⟨L', hcut, heq⟩ := cut_of_run hr
  exact heq ▸ hcut

/-- With fuel for every byte of the string, `split` returns the pieces. -/
theorem split_eq_iff (hd : d ≠ []) (hfuel : str.length < fuel) : split fuel str d = some L ↔ Cut d str L := by
  constructor
  · exact cut_of_split
  · intro hcut
    obtain ⟨L', hL'⟩ := split_ends str hd hfuel
    rw [hL', hcut.unique (cut_of_split hL')]

/-- What the list that `split` returns is to the string. -/
structure PiecesOf (d str : Str) (L : List Str) : Prop where
  ne_nil : L ≠ []
  join : d.intercalate L = str
  apart : ∀ x ∈ L, contain x d = false
  count : ∀ n, FindsTimes d str n ↔ L.length = n + 1
  single : L.length = 1 ↔ contain str d = false

/-- Splitting loses nothing: the pieces joined again are the string. -/
theorem split_pieces (str : Str) (hd : d ≠ []) :
    ∃ L, (∀ fuel, str.length < fuel → split fuel str d = some L) ∧ PiecesOf d str L := by
  obtain ⟨L, hL⟩ := split_ends str hd (Nat.lt_succ_self _)
  have hcut := (split_eq_iff hd (Nat.lt_succ_self _)).1 hL
  refine ⟨L, fun fuel hfuel => (split_eq_iff hd hfuel).2 hcut, ?_⟩
  exact {
    ne_nil := hcut.ne_nil
    join := hcut.intercalate_eq
    apart := fun x hx => contain_eq_false_iff.2 (hcut.not_occurs hd x hx)
    count := fun n => hcut.finds_iff
    single := hcut.length_eq_one_iff.trans contain_eq_false_iff.symm }

/-- `aa` in `aaa,`: the second `a` is not searched again. -/
theorem split_pieces_overlapping : PiecesOf [97, 97] [97, 97, 97, 44] [[], [97, 44]] := by
  obtain ⟨L, hL, hpieces⟩ := split_pieces [97, 97, 97, 44] (d := [97, 97]) (by decide)
  have hsplit : split 5 [97, 97, 97, 44] [97, 97] = some [[], [97, 44]] := by decide
  obtain rfl := Option.some.inj ((hL 5 (by decide)).symm.trans hsplit)
  exact hpieces

/-- `split` undoes a join exactly when each delimiter joined is the first one from where its piece begins. -/
theorem split_intercalate_iff (hd : d ≠ []) (hL : L ≠ []) (hfuel : (d.intercalate L).length < fuel) :
    (split fuel (d.intercalate L) d = some L ↔
      (∀ x ∈ L.dropLast, find (x ++ d) d = some x.length) ∧ contain (L.getLast hL) d = false) ∧
    (Borderless d → (split fuel (d.intercalate L) d = some L ↔ ∀ x ∈ L, contain x d = false)) := by
  rw [split_eq_iff hd hfuel]
  constructor
  · rw [cut_intercalate_iff hL, contain_eq_false_iff]
    exact and_congr_left' (forall₂_congr fun x _ => find_eq_some_iff.symm)
  · intro hb
    rw [hb.cut_intercalate_iff hd hL]
    exact forall₂_congr fun x _ => contain_eq_false_iff.symm

/-- `aa` between `a` and nothing is found one byte too early. -/
theorem split_intercalate_iff_straddling :
    split 4 [97, 97, 97] [97, 97] ≠ some [[97], []] ∧ split 4 [97, 97, 97] [97, 97] = some [[], [97]] := by
  constructor
  · intro h
    have hfirst := ((split_intercalate_iff (L := [[97], []]) (d := [97, 97]) (by decide) (by decide)
      (by decide)).1.1 h).1
    exact absurd (hfirst [97] (by decide)) (by decide)
  · exact (split_intercalate_iff (L := [[], [97]]) (d := [97, 97]) (by decide) (by decide) (by decide)).1.2
      ⟨by decide, by decide⟩

end CcTools.StringUtils
