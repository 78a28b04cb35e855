import CcTools.PathNames

/-!
# `u8ToLocal` with the bundled filesystem

Where `fs` is `ghc::filesystem`, a path on POSIX holds the bytes it is given, so `u8ToLocal` only takes out
separators that follow another one. The names between the separators stay.
-/

namespace CcTools
namespace StringUtils
open CcTools.Path Search

def u8ToLocal (utf8str : Str) : Str := postprocess utf8str

end StringUtils

namespace Path
open Search
variable {s : Str}

/-- The texts have the same first piece, and the same pieces behind it but for empty ones. -/
def SameNames (s t : Str) : Prop := ∃ x L L', Cut sep s (x :: L) ∧ Cut sep t (x :: L') ∧ L.filter (· ≠ []) = L'.filter (· ≠ [])

theorem SameNames.cons {t : Str} (c : UInt8) (h : SameNames s t) : SameNames (c :: s) (c :: t) := by
  obtain ⟨x, L, L', hL, hL', heq⟩ := h
  by_cases hc : c = preferredSeparator
  · subst hc
    exact ⟨[], x :: L, x :: L', hL.cons_self, hL'.cons_self, by rw [List.filter_cons, List.filter_cons, heq]⟩
  · exact ⟨c :: x, L, L', hL.cons_of_ne hc, hL'.cons_of_ne hc, heq⟩

theorem SameNames.refl (s : Str) : SameNames s s := by
  obtain ⟨L, hL⟩ := StringUtils.split_ends s (d := sep) (List.cons_ne_nil _ _) (Nat.lt_succ_self _)
  have hcut := StringUtils.cut_of_split hL
  cases L with
  | nil => exact absurd rfl hcut.ne_nil
  | cons x L => exact ⟨x, L, L, hcut, hcut, rfl⟩

theorem sameNames_unique (s : Str) : SameNames s (unique s) := by
  induction s using unique.induct with
  | case1 c d s hcd ih =>
    obtain ⟨rfl, rfl⟩ := hcd
    obtain ⟨x, L, L', hL, hL', heq⟩ := ih
    -- the first of two separators cuts off an empty piece
    obtain ⟨_, -, hx⟩ := hL.prefix_iff.1 ⟨s, rfl⟩
    obtain rfl := (List.cons.inj hx).1
    rw [unique, if_pos ⟨rfl, rfl⟩]
    exact ⟨[], [] :: L, L', hL.cons_self, hL', by rw [List.filter_cons, if_neg (by decide), heq]⟩
  | case2 c d s hcd ih =>
    rw [unique, if_neg hcd]
    exact ih.cons c
  | case3 s hs =>
    obtain rfl | ⟨c, rfl⟩ := nil_or_single hs
    · exact .refl []
    · exact .refl [c]

theorem sameNames_postprocess (s : Str) : SameNames s (postprocess s) := by
  unfold postprocess
  split
  · next h =>
    have htwo : s.take 2 = sep ++ sep := by
      refine eq_sep_sep h.length_take ?_ ?_
      · exact isSep_take.2 ⟨by decide, h.2.1⟩
      · exact isSep_take.2 ⟨by decide, h.2.2.1⟩
    nth_rewrite 1 [← List.take_append_drop 2 s]
    rw [htwo]
    exact ((sameNames_unique (s.drop 2)).cons _).cons _
  · exact sameNames_unique s

end Path

namespace StringUtils
open CcTools.Path

/-- `u8ToLocal` keeps the names between the separators. It changes a text exactly if a separator follows another
one, two at the beginning with something other than a separator behind them apart, and changes it once only. -/
theorem u8ToLocal_spec (utf8str : Str) :
    (u8ToLocal utf8str = utf8str ↔ ∀ i, IsSep utf8str i → IsSep utf8str (i + 1) →
      i = 0 ∧ utf8str.length > 2 ∧ ¬ IsSep utf8str 2) ∧
    u8ToLocal (u8ToLocal utf8str) = u8ToLocal utf8str ∧
    (split ((u8ToLocal utf8str).length + 1) (u8ToLocal utf8str) sep).map (List.filter (· ≠ [])) =
      (split (utf8str.length + 1) utf8str sep).map (List.filter (· ≠ [])) := by
  refine ⟨⟨fun heq i h h' => ?_, fun h => Normal.postprocess_eq fun i hi hsucc => ?_⟩, postprocess_idem utf8str, ?_⟩
  · have hs := normal_postprocess utf8str
    rw [show postprocess utf8str = utf8str from heq] at hs
    obtain ⟨h0, hd⟩ := hs i h h'
    exact ⟨h0, hd.1, hd.2.2.2⟩
  · obtain ⟨rfl, hlen, h2⟩ := h i hi hsucc
    exact ⟨rfl, hlen, hi, hsucc, h2⟩
  · obtain ⟨x, L, L', hL, hL', heq⟩ := sameNames_postprocess utf8str
    rw [u8ToLocal, (split_eq_iff (List.cons_ne_nil _ _) (Nat.lt_succ_self _)).2 hL,
      (split_eq_iff (List.cons_ne_nil _ _) (Nat.lt_succ_self _)).2 hL', Option.map_some, Option.map_some, List.filter_cons,
      List.filter_cons, heq]

end StringUtils
end CcTools
