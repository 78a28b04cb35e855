import Mathlib.Data.List.DropRight

/-!
# Stripping both ends of a list

`strip p xs` is `xs` without the elements that satisfy `p` at its two ends. It is the only list `t` with
`xs = a ++ t ++ b`, where `p` holds on `a` and `b` and at neither end of `t` (`Stripped.eq_strip`), which
gives all its algebra.
-/

section
variable {α : Type*} {p : α → Bool} {xs t : List α}

def strip (p : α → Bool) (xs : List α) : List α := (xs.dropWhile p).rdropWhile p

structure Stripped (p : α → Bool) (xs t : List α) : Prop where
  cut : ∃ a b, (∀ c ∈ a, p c) ∧ (∀ c ∈ b, p c) ∧ xs = a ++ t ++ b
  head : ∀ c ∈ t.head?, ¬ p c
  last : ∀ c ∈ t.getLast?, ¬ p c

theorem rdropWhile_append_of_pos {ys : List α} (h : ∀ c ∈ ys, p c) :
    (xs ++ ys).rdropWhile p = xs.rdropWhile p := by
  unfold List.rdropWhile
  rw [List.reverse_append, List.dropWhile_append_of_pos fun c hc => h c (List.mem_reverse.1 hc)]

theorem dropWhile_eq_self (h : ∀ c ∈ xs.head?, ¬ p c) : xs.dropWhile p = xs := by
  cases xs with
  | nil => rfl
  | cons c xs => exact List.dropWhile_cons_of_neg (h c rfl)

theorem rdropWhile_eq_self (h : ∀ c ∈ xs.getLast?, ¬ p c) : xs.rdropWhile p = xs :=
  List.rdropWhile_eq_self_iff.2 fun hne => h _ (List.getLast_mem_getLast? hne)

namespace Stripped

theorem eq_strip (h : Stripped p xs t) : strip p xs = t := by
  obtain ⟨a, b, ha, hb, rfl⟩ := h.cut
  rw [strip, List.append_assoc, List.dropWhile_append_of_pos ha]
  cases t with
  | nil =>
    have hnil : b.dropWhile p = [] := List.dropWhile_eq_nil_iff.2 hb
    rw [List.nil_append, hnil]
    rfl
  | cons c t =>
    rw [dropWhile_eq_self (by simpa using h.head), rdropWhile_append_of_pos hb, rdropWhile_eq_self h.last]

theorem pad {a b : List α} (h : Stripped p xs t) (ha : ∀ c ∈ a, p c) (hb : ∀ c ∈ b, p c) :
    Stripped p (a ++ xs ++ b) t := by
  obtain ⟨a', b', ha', hb', rfl⟩ := h.cut
  refine ⟨⟨a ++ a', b' ++ b, ?_, ?_, by simp only [List.append_assoc]⟩, h.head, h.last⟩
  · intro c hc
    rcases List.mem_append.1 hc with hc | hc
    exacts [ha c hc, ha' c hc]
  · intro c hc
    rcases List.mem_append.1 hc with hc | hc
    exacts [hb' c hc, hb c hc]

theorem self (h : Stripped p xs t) : Stripped p t t :=
  ⟨⟨[], [], by simp, by simp, by simp⟩, h.head, h.last⟩

end Stripped

theorem stripped_strip (p : α → Bool) (xs : List α) : Stripped p xs (strip p xs) where
  cut := by
    refine ⟨xs.takeWhile p, (xs.dropWhile p).rtakeWhile p, ?_, ?_, ?_⟩
    · exact fun c hc => List.mem_takeWhile_imp hc
    · exact fun c hc => List.mem_rtakeWhile_imp hc
    · rw [List.append_assoc, strip, List.rdropWhile_append_rtakeWhile, List.takeWhile_append_dropWhile]
  head c hc := by
    have hpre : strip p xs <+: xs.dropWhile p := List.rdropWhile_prefix ..
    have hne : strip p xs ≠ [] := by
      intro hnil
      rw [hnil] at hc
      cases hc
    have hhead : (xs.dropWhile p).head? = some c := by
      obtain ⟨r, hr⟩ := hpre
      rw [← hr, List.head?_append_of_ne_nil _ hne]
      exact hc
    rw [Bool.not_eq_true]
    simpa [hhead] using List.head?_dropWhile_not p xs
  last c hc := by
    have hne : strip p xs ≠ [] := by
      intro hnil
      rw [hnil] at hc
      cases hc
    have hlast := List.rdropWhile_last_not p (xs.dropWhile p) hne
    rw [List.getLast?_eq_getLast_of_ne_nil hne] at hc
    cases hc
    exact hlast

end
