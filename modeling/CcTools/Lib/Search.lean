import Mathlib.Data.List.Basic

/-!
# The first occurrence of a word

`find s d` is the least position at which `d` occurs in `s`; the empty word occurs everywhere. An
occurrence at the end of `x` is the first one in `x ++ d` whatever follows (`first_append_iff`), and this
says that `x` has none if no end of `d` is a beginning of `d` (`Borderless.first`).
-/

namespace Search

section
variable {α : Type*}

def Occurs (s d : List α) (p : Nat) : Prop := p ≤ s.length ∧ d <+: s.drop p

def First (s d : List α) (p : Nat) : Prop := Occurs s d p ∧ ∀ q < p, ¬ Occurs s d q

/-- No end of `d`, other than all of it, is a beginning of `d`. -/
def Borderless (d : List α) : Prop := ∀ b, b ≠ [] → b ≠ d → b <+: d → ¬ b <:+ d

variable {s d x y : List α} {a : α} {p : Nat}

theorem occurs_zero : Occurs s d 0 ↔ d <+: s := by
  unfold Occurs
  rw [List.drop_zero]
  exact ⟨fun h => h.2, fun h => ⟨Nat.zero_le _, h⟩⟩

theorem occurs_cons_succ : Occurs (a :: s) d (p + 1) ↔ Occurs s d p := by
  unfold Occurs
  rw [List.length_cons, List.drop_succ_cons, Nat.add_le_add_iff_right]

theorem Occurs.add_length_le (h : Occurs s d p) : p + d.length ≤ s.length := by
  have hle := h.2.length_le
  have hp := h.1
  rw [List.length_drop] at hle
  omega

/-- What stands before, at and behind an occurrence. -/
theorem Occurs.append_eq (h : Occurs s d p) : s.take p ++ d ++ s.drop (p + d.length) = s := by
  obtain ⟨t, ht⟩ := h.2
  have hdrop : s.drop (p + d.length) = t := by
    rw [← List.drop_drop, ← ht, List.drop_left]
  rw [hdrop, List.append_assoc, ht, List.take_append_drop]

/-- Occurrences that end within `x` are those of `x`. -/
theorem occurs_append_left (h : p + d.length ≤ x.length) : Occurs (x ++ y) d p ↔ Occurs x d p := by
  unfold Occurs
  have hp : p ≤ x.length := by omega
  have hlen : d.length ≤ (x.drop p).length := by rw [List.length_drop]; omega
  rw [List.drop_append_of_le_length hp]
  constructor
  · rintro ⟨-, hpre⟩
    exact ⟨hp, List.prefix_of_prefix_length_le hpre (List.prefix_append _ _) hlen⟩
  · rintro ⟨-, hpre⟩
    exact ⟨by rw [List.length_append]; omega, List.prefix_append_of_prefix hpre⟩

theorem occurs_append_self : Occurs (x ++ d ++ y) d x.length := by
  refine ⟨by simp only [List.length_append]; omega, ?_⟩
  rw [List.append_assoc, List.drop_left]
  exact List.prefix_append d y

/-- An occurrence of `d` in `x ++ d` that begins within `x` and is not one of `x` leaves a border. -/
theorem Borderless.not_occurs (hb : Borderless d) (hp : p < x.length) (hlt : x.length < p + d.length) :
    ¬ Occurs (x ++ d) d p := by
  rintro ⟨-, hpre⟩
  rw [List.drop_append_of_le_length (Nat.le_of_lt hp)] at hpre
  have hlen : (x.drop p).length = x.length - p := List.length_drop
  obtain ⟨b, hd⟩ : x.drop p <+: d :=
    List.prefix_of_prefix_length_le (List.prefix_append _ _) hpre (by omega)
  have hlend : d.length = (x.length - p) + b.length := by rw [← hd, List.length_append, hlen]
  have hpre' : x.drop p ++ b <+: x.drop p ++ d := by rwa [hd]
  refine hb b ?_ ?_ ((List.prefix_append_right_inj _).1 hpre') ⟨x.drop p, hd⟩
  · rintro rfl
    simp only [List.length_nil] at hlend
    omega
  · rintro rfl
    omega

namespace First

theorem unique {q : Nat} (h : First s d p) (h' : First s d q) : p = q := by
  rcases Nat.lt_trichotomy p q with hlt | heq | hgt
  · exact absurd h.1 (h'.2 p hlt)
  · exact heq
  · exact absurd h'.1 (h.2 q hgt)

/-- Nothing is found in what stands before the first occurrence. -/
theorem not_occurs_take {q : Nat} (hd : d ≠ []) (h : First s d p) : ¬ Occurs (s.take p) d q := by
  intro hq
  have hpos := List.length_pos_iff.2 hd
  have hle := hq.add_length_le
  refine h.2 q ?_ ?_
  · rw [List.length_take] at hle
    omega
  · rw [← List.take_append_drop p s]
    exact (occurs_append_left hle).2 hq

end First

/-- What follows `x ++ d` does not matter for a first occurrence at the end of `x`. -/
theorem first_append_iff : First (x ++ d ++ y) d x.length ↔ First (x ++ d) d x.length := by
  have h : ∀ q ≤ x.length, (Occurs (x ++ d ++ y) d q ↔ Occurs (x ++ d) d q) := fun q hq =>
    occurs_append_left (by rw [List.length_append]; omega)
  exact and_congr (h _ (Nat.le_refl _)) (forall₂_congr fun q hq => not_congr (h q (Nat.le_of_lt hq)))

theorem Borderless.first (hb : Borderless d) (hno : ∀ q, ¬ Occurs x d q) : First (x ++ d) d x.length := by
  have hself := occurs_append_self (x := x) (d := d) (y := [])
  rw [List.append_nil] at hself
  refine ⟨hself, fun q hq hocc => ?_⟩
  by_cases hle : q + d.length ≤ x.length
  · exact hno q ((occurs_append_left hle).1 hocc)
  · exact hb.not_occurs hq (Nat.not_le.1 hle) hocc

end

section
variable {α : Type*} [DecidableEq α]

def find (s d : List α) : Option Nat :=
  if d <+: s then some 0
  else
    match s with
    | [] => none
    | _ :: s => (find s d).map (· + 1)

variable {s d x y : List α} {p : Nat}

theorem find_of_start (h : d <+: s) : find s d = some 0 := by
  unfold find
  rw [if_pos h]

theorem find_cons_of_not {a : α} (h : ¬ d <+: a :: s) : find (a :: s) d = (find s d).map (· + 1) := by
  rw [find, if_neg h]

theorem find_eq_some_iff_of_start (h : d <+: s) : find s d = some p ↔ First s d p := by
  rw [find_of_start h]
  constructor
  · intro hp
    cases hp
    exact ⟨occurs_zero.2 h, fun q hq => absurd hq (Nat.not_lt_zero q)⟩
  · rintro ⟨-, hmin⟩
    rcases Nat.eq_zero_or_pos p with rfl | hpos
    · rfl
    · exact absurd (occurs_zero.2 h) (hmin 0 hpos)

theorem find_eq_some_iff : find s d = some p ↔ First s d p := by
  induction s generalizing p with
  | nil =>
    by_cases h : d <+: []
    · exact find_eq_some_iff_of_start h
    · rw [find, if_neg h]
      constructor
      · intro hp
        cases hp
      · rintro ⟨hocc, -⟩
        obtain rfl : p = 0 := Nat.le_zero.1 hocc.1
        exact absurd (occurs_zero.1 hocc) h
  | cons a s ih =>
    by_cases h : d <+: a :: s
    · exact find_eq_some_iff_of_start h
    · rw [find_cons_of_not h]
      cases p with
      | zero => exact ⟨fun hp => by simp at hp, fun hp => absurd (occurs_zero.1 hp.1) h⟩
      | succ p =>
        have hsucc : (find s d).map (· + 1) = some (p + 1) ↔ find s d = some p := by simp
        rw [hsucc, ih, First, First, occurs_cons_succ]
        refine and_congr_right fun _ => ⟨fun hmin q hq => ?_, fun hmin q hq => ?_⟩
        · cases q with
          | zero => exact fun hocc => h (occurs_zero.1 hocc)
          | succ q => exact fun hocc => hmin q (Nat.lt_of_succ_lt_succ hq) (occurs_cons_succ.1 hocc)
        · exact fun hocc => hmin (q + 1) (Nat.succ_lt_succ hq) (occurs_cons_succ.2 hocc)

theorem find_eq_none_iff : find s d = none ↔ ∀ p, ¬ Occurs s d p := by
  constructor
  · intro h p hp
    -- the least position of an occurrence would be found
    induction p using Nat.strongRecOn with
    | ind p ih =>
      have hfind := find_eq_some_iff.2 ⟨hp, fun q hq => ih q hq⟩
      rw [h] at hfind
      cases hfind
  · intro h
    cases hf : find s d with
    | none => rfl
    | some p => exact absurd (find_eq_some_iff.1 hf).1 (h p)

end
end Search
