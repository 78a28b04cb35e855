import CcTools.Lib.Search

/-!
# A word cut at the leftmost occurrences of another

`Cut d s L`: the leftmost occurrence of `d` is sought in `s`, then in what is behind it, and so on, and
`L` are the pieces that remain. Joining the pieces gives `s` back; which lists are the pieces of their own
join is told by `cut_intercalate_iff`.
-/

namespace Search
variable {α : Type*}

inductive Cut (d : List α) : List α → List (List α) → Prop
  | last {s : List α} (h : ∀ p, ¬ Occurs s d p) : Cut d s [s]
  | next {s : List α} {p : Nat} {L : List (List α)} (h : First s d p) (rest : Cut d (s.drop (p + d.length)) L) :
    Cut d s (s.take p :: L)

/-- The search that starts again behind each occurrence finds `n` of them. -/
inductive FindsTimes (d : List α) : List α → Nat → Prop
  | none {s : List α} (h : ∀ p, ¬ Occurs s d p) : FindsTimes d s 0
  | again {s : List α} {p n : Nat} (h : First s d p) (rest : FindsTimes d (s.drop (p + d.length)) n) :
    FindsTimes d s (n + 1)

variable {d s x : List α} {L L' : List (List α)} {n : Nat}

namespace Cut

theorem ne_nil (h : Cut d s L) : L ≠ [] := by
  cases h <;> exact List.cons_ne_nil _ _

theorem intercalate_eq (h : Cut d s L) : d.intercalate L = s := by
  induction h with
  | last => exact List.intercalate_singleton
  | next hp rest ih =>
    rw [List.intercalate_cons_of_ne_nil rest.ne_nil, ih]
    exact hp.1.append_eq

theorem not_occurs (hd : d ≠ []) (h : Cut d s L) : ∀ x ∈ L, ∀ p, ¬ Occurs x d p := by
  induction h with
  | last hno =>
    intro x hx
    rw [List.mem_singleton.1 hx]
    exact hno
  | next hp _ ih =>
    intro x hx
    rcases List.mem_cons.1 hx with rfl | hx
    · exact fun _ => hp.not_occurs_take hd
    · exact ih x hx

theorem unique (h : Cut d s L) (h' : Cut d s L') : L = L' := by
  induction h generalizing L' with
  | last hno =>
    cases h' with
    | last => rfl
    | next hp => exact absurd hp.1 (hno _)
  | next hp _ ih =>
    cases h' with
    | last hno => exact absurd hp.1 (hno _)
    | next hq rest' =>
      obtain rfl := hp.unique hq
      rw [ih rest']

theorem finds_iff (h : Cut d s L) : FindsTimes d s n ↔ L.length = n + 1 := by
  induction h generalizing n with
  | last hno =>
    constructor
    · intro hn
      cases hn with
      | none => rfl
      | again hp => exact absurd hp.1 (hno _)
    · intro hn
      obtain rfl : n = 0 := (Nat.succ.inj hn).symm
      exact .none hno
  | next hp rest ih =>
    rw [List.length_cons, Nat.add_right_cancel_iff]
    constructor
    · intro hn
      cases hn with
      | none hno => exact absurd hp.1 (hno _)
      | again hq rest' =>
        obtain rfl := hp.unique hq
        exact ih.1 rest'
    · intro hn
      cases n with
      | zero => exact absurd (List.eq_nil_of_length_eq_zero hn) rest.ne_nil
      | succ n => exact .again hp (ih.2 hn)

theorem length_eq_one_iff (h : Cut d s L) : L.length = 1 ↔ ∀ p, ¬ Occurs s d p := by
  cases h with
  | last hno => exact ⟨fun _ => hno, fun _ => rfl⟩
  | next hp rest =>
    have hpos := List.length_pos_iff.2 rest.ne_nil
    constructor
    · intro hlen
      rw [List.length_cons] at hlen
      omega
    · exact fun hno => absurd hp.1 (hno _)

end Cut

theorem cut_singleton_iff : Cut d s [x] ↔ s = x ∧ ∀ p, ¬ Occurs x d p := by
  constructor
  · intro h
    cases h with
    | last hno => exact ⟨rfl, hno⟩
    | next _ rest => exact absurd rfl rest.ne_nil
  · rintro ⟨rfl, hno⟩
    exact .last hno

theorem cut_cons_iff (hL : L ≠ []) :
    Cut d s (x :: L) ↔ ∃ p, First s d p ∧ s.take p = x ∧ Cut d (s.drop (p + d.length)) L := by
  constructor
  · intro h
    cases h with
    | last => exact absurd rfl hL
    | next hp rest => exact ⟨_, hp, rfl, rest⟩
  · rintro ⟨p, hp, rfl, rest⟩
    exact .next hp rest

theorem cut_append_iff (hL : L ≠ []) : Cut d (x ++ d ++ s) (x :: L) ↔ First (x ++ d) d x.length ∧ Cut d s L := by
  have hdrop : (x ++ d ++ s).drop (x.length + d.length) = s := by
    rw [← List.length_append, List.drop_left]
  rw [cut_cons_iff hL]
  constructor
  · rintro ⟨p, hp, hx, rest⟩
    obtain rfl : p = x.length := by
      have hlen := congrArg List.length hx
      rw [List.length_take, Nat.min_eq_left hp.1.1] at hlen
      exact hlen
    rw [hdrop] at rest
    exact ⟨first_append_iff.1 hp, rest⟩
  · rintro ⟨hp, rest⟩
    refine ⟨x.length, first_append_iff.2 hp, ?_, by rwa [hdrop]⟩
    rw [List.append_assoc, List.take_left]

/-- The lists that are the pieces of their own join. -/
theorem cut_intercalate_iff (hL : L ≠ []) : Cut d (d.intercalate L) L ↔
    (∀ x ∈ L.dropLast, First (x ++ d) d x.length) ∧ ∀ p, ¬ Occurs (L.getLast hL) d p := by
  induction L with
  | nil => exact absurd rfl hL
  | cons x L ih =>
    cases L with
    | nil =>
      rw [List.intercalate_singleton, cut_singleton_iff]
      simp
    | cons y L =>
      have hne : y :: L ≠ [] := List.cons_ne_nil y L
      rw [List.intercalate_cons_of_ne_nil hne, cut_append_iff hne, ih hne, List.dropLast_cons_of_ne_nil hne,
        List.getLast_cons hne, List.forall_mem_cons, and_assoc]

/-- Without borders it is enough that no piece contains `d`. -/
theorem Borderless.cut_intercalate_iff (hb : Borderless d) (hd : d ≠ []) (hL : L ≠ []) :
    Cut d (d.intercalate L) L ↔ ∀ x ∈ L, ∀ p, ¬ Occurs x d p := by
  constructor
  · exact fun h => h.not_occurs hd
  · intro hno
    refine (Search.cut_intercalate_iff hL).2 ⟨fun x hx => ?_, hno _ (List.getLast_mem hL)⟩
    exact hb.first (hno x ((List.dropLast_sublist L).mem hx))

/-! ### The ends of the word -/

/-- The first piece is empty where the word starts with `d`. -/
theorem Cut.prefix_iff (h : Cut d s L) : d <+: s ↔ ∃ L', L' ≠ [] ∧ L = [] :: L' := by
  cases h with
  | last hno =>
    refine ⟨fun hpre => absurd (occurs_zero.2 hpre) (hno 0), ?_⟩
    rintro ⟨L', hL', heq⟩
    exact absurd (List.cons.inj heq).2.symm hL'
  | @next _ p L hp rest =>
    constructor
    · intro hpre
      obtain rfl : p = 0 := by
        rcases Nat.eq_zero_or_pos p with h0 | hpos
        · exact h0
        · exact absurd (occurs_zero.2 hpre) (hp.2 0 hpos)
      exact ⟨L, rest.ne_nil, by rw [List.take_zero]⟩
    · rintro ⟨L', -, heq⟩
      have hnil : s.take p = [] := (List.cons.inj heq).1
      have happend := hp.1.append_eq
      rw [hnil, List.nil_append] at happend
      exact ⟨_, happend⟩

theorem suffix_iff_occurs : d <:+ s ↔ d.length ≤ s.length ∧ Occurs s d (s.length - d.length) := by
  constructor
  · intro h
    have hle := h.length_le
    exact ⟨hle, Nat.sub_le .., [], (List.append_nil d).trans (List.suffix_iff_eq_drop.1 h)⟩
  · rintro ⟨hle, hp, hpre⟩
    have hlen : (s.drop (s.length - d.length)).length = d.length := by
      rw [List.length_drop]
      omega
    rw [hpre.eq_of_length hlen.symm]
    exact List.drop_suffix ..

/-- Two occurrences of a word without borders do not overlap. -/
theorem Borderless.apart (hb : Borderless d) {p q : Nat} (hp : Occurs s d p) (hq : Occurs s d q) (hlt : p < q) :
    p + d.length ≤ q := by
  by_contra hover
  have hlen : (d.drop (q - p)).length = d.length - (q - p) := List.length_drop
  have hpre : d.drop (q - p) <+: s.drop q := by
    obtain ⟨t, ht⟩ := hp.2
    have hdrop : s.drop q = d.drop (q - p) ++ t := by
      rw [← List.drop_append_of_le_length (by omega), ht, List.drop_drop, show p + (q - p) = q by omega]
    exact ⟨t, hdrop.symm⟩
  have hborder : d.drop (q - p) <+: d := List.prefix_of_prefix_length_le hpre hq.2 (by omega)
  refine hb _ ?_ ?_ hborder (List.drop_suffix ..)
  · intro hnil
    rw [hnil, List.length_nil] at hlen
    omega
  · intro heq
    rw [heq] at hlen
    omega

theorem Borderless.suffix_cut_iff (hb : Borderless d) (hd : d ≠ []) (h : Cut d s L) :
    d <:+ s ↔ 2 ≤ L.length ∧ L.getLast? = some [] := by
  have hpos := List.length_pos_iff.2 hd
  induction h with
  | last hno =>
    constructor
    · exact fun hsuf => absurd (suffix_iff_occurs.1 hsuf).2 (hno _)
    · rintro ⟨hlen, -⟩
      simp at hlen
  | @next s p L hp rest ih =>
    have hle := hp.1.add_length_le
    have hlast : (s.take p :: L).getLast? = L.getLast? := List.getLast?_cons_of_ne_nil rest.ne_nil
    have hlen : 2 ≤ (s.take p :: L).length := Nat.succ_le_succ (List.length_pos_iff.2 rest.ne_nil)
    rw [hlast, and_iff_right hlen]
    constructor
    · intro hsuf
      obtain ⟨-, hocc⟩ := suffix_iff_occurs.1 hsuf
      rcases Nat.lt_trichotomy p (s.length - d.length) with hlt | heq | hgt
      · have hafter := hb.apart hp.1 hocc hlt
        refine (ih.1 (suffix_iff_occurs.2 ?_)).2
        rw [List.length_drop]
        refine ⟨by omega, by rw [List.length_drop]; omega, ?_⟩
        rw [List.drop_drop, show p + d.length + (s.length - (p + d.length) - d.length) = s.length - d.length by omega]
        exact hocc.2
      · have hnil : s.drop (p + d.length) = [] := List.drop_eq_nil_of_le (by omega)
        rw [hnil] at rest
        have hone := rest.length_eq_one_iff.2 fun q hq => by
          have := hq.add_length_le
          simp only [List.length_nil] at this
          omega
        obtain ⟨x, rfl⟩ := List.length_eq_one_iff.1 hone
        obtain ⟨hx, -⟩ := cut_singleton_iff.1 rest
        rw [← hx]
        rfl
      · exact absurd hocc (hp.2 _ hgt)
    · intro hnil
      have hrest : d <:+ s.drop (p + d.length) ∨ s.drop (p + d.length) = [] := by
        by_cases hone : L.length = 1
        · obtain ⟨x, rfl⟩ := List.length_eq_one_iff.1 hone
          obtain ⟨hx, -⟩ := cut_singleton_iff.1 rest
          exact .inr (hx.trans (Option.some.inj hnil))
        · have := List.length_pos_iff.2 rest.ne_nil
          exact .inl (ih.2 ⟨by omega, hnil⟩)
      have happend := hp.1.append_eq
      rcases hrest with hsuf | hempty
      · rw [← happend]
        exact hsuf.trans (List.suffix_append ..)
      · rw [hempty, List.append_nil] at happend
        exact ⟨_, happend⟩

/-- A border of `d` hides the `d` at the end of a word. -/
theorem exists_hidden_suffix (hb : ¬ Borderless d) : ∃ s x, d <:+ s ∧ x ≠ [] ∧ Cut d s [[], x] := by
  unfold Borderless at hb
  push Not at hb
  obtain ⟨b, hne, hproper, ⟨x, hx⟩, y, hy⟩ := hb
  have hx0 : x ≠ [] := by
    rintro rfl
    exact hproper (by rw [← hx, List.append_nil])
  have hlen : x.length < d.length := by
    rw [← hx, List.length_append]
    have := List.length_pos_iff.2 hne
    omega
  refine ⟨d ++ x, x, ⟨y, ?_⟩, hx0, ?_⟩
  · rw [← hx, ← List.append_assoc, hy, hx]
  · have hfirst : First (d ++ x) d 0 :=
      ⟨occurs_zero.2 (List.prefix_append ..), fun q hq => absurd hq (Nat.not_lt_zero q)⟩
    have hrest : Cut d ((d ++ x).drop (0 + d.length)) [x] := by
      rw [Nat.zero_add, List.drop_left]
      refine .last fun p hp => ?_
      have := hp.add_length_le
      omega
    exact .next hfirst hrest

/-! ### At one letter -/

section
variable {a c : α}

theorem Cut.cons_self (h : Cut [a] s L) : Cut [a] (a :: s) ([] :: L) := by
  have hfirst : First (a :: s) [a] 0 := ⟨occurs_zero.2 ⟨s, rfl⟩, fun q hq => absurd hq (Nat.not_lt_zero q)⟩
  exact .next hfirst h

theorem Cut.cons_of_ne (hc : c ≠ a) (h : Cut [a] s (x :: L)) : Cut [a] (c :: s) ((c :: x) :: L) := by
  have hno : ¬ Occurs (c :: s) [a] 0 := by
    rw [occurs_zero, List.cons_prefix_cons]
    exact fun h => hc h.1.symm
  generalize hL : x :: L = L' at h
  cases h with
  | last hlast =>
    obtain ⟨rfl, rfl⟩ := List.cons.inj hL
    refine .last fun p hp => ?_
    cases p with
    | zero => exact hno hp
    | succ p => exact hlast p (occurs_cons_succ.1 hp)
  | @next _ p _ hp rest =>
    obtain ⟨rfl, rfl⟩ := List.cons.inj hL
    refine .next (p := p + 1) ⟨occurs_cons_succ.2 hp.1, fun q hq hocc => ?_⟩ rest
    cases q with
    | zero => exact hno hocc
    | succ q => exact hp.2 q (Nat.lt_of_succ_lt_succ hq) (occurs_cons_succ.1 hocc)

end

/-! ### Letter by letter -/

section
variable {f : α → α}

theorem prefix_map_iff {t : List α} (hf : ∀ c ∈ d, ∀ a, f a = c ↔ a = c) : d <+: t.map f ↔ d <+: t := by
  induction d generalizing t with
  | nil => simp
  | cons c d ih =>
    cases t with
    | nil => simp
    | cons a t =>
      rw [List.map_cons, List.cons_prefix_cons, List.cons_prefix_cons, ih fun c' hc' => hf c' (List.mem_cons_of_mem c hc'),
        eq_comm, hf c (List.mem_cons_self ..), eq_comm]

/-- A map that neither moves a letter of `d` nor makes one leaves the occurrences where they are. -/
theorem occurs_map_iff {p : Nat} (hf : ∀ c ∈ d, ∀ a, f a = c ↔ a = c) : Occurs (s.map f) d p ↔ Occurs s d p := by
  unfold Occurs
  rw [List.length_map, ← List.map_drop, prefix_map_iff hf]

theorem Cut.map (hf : ∀ c ∈ d, ∀ a, f a = c ↔ a = c) (h : Cut d s L) : Cut d (s.map f) (L.map (List.map f)) := by
  induction h with
  | last hno => exact .last fun p hp => hno p ((occurs_map_iff hf).1 hp)
  | next hp _ ih =>
    rw [List.map_drop] at ih
    rw [List.map_cons, List.map_take]
    exact .next ⟨(occurs_map_iff hf).2 hp.1, fun q hq hocc => hp.2 q hq ((occurs_map_iff hf).1 hocc)⟩ ih

/-- A word of the same length has two pieces if it is `d`, else one. -/
theorem Cut.length_eq_two_iff (hlen : s.length = d.length) (hd : d ≠ []) (h : Cut d s L) : L.length = 2 ↔ s = d := by
  have hpos := List.length_pos_iff.2 hd
  constructor
  · intro htwo
    by_contra hne
    have hone := h.length_eq_one_iff.2 fun p hp => by
      have hle := hp.add_length_le
      obtain rfl : p = 0 := by omega
      exact hne ((occurs_zero.1 hp).eq_of_length hlen.symm).symm
    omega
  · rintro rfl
    have hfirst : First s s 0 := ⟨occurs_zero.2 (List.prefix_refl s), fun q hq => absurd hq (Nat.not_lt_zero q)⟩
    have hrest : Cut s (s.drop (0 + s.length)) [[]] := by
      rw [Nat.zero_add, List.drop_length]
      refine .last fun p hp => ?_
      have hle := hp.add_length_le
      simp only [List.length_nil] at hle
      omega
    rw [h.unique (.next hfirst hrest)]
    rfl

end

end Search
