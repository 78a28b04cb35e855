import CcTools.PathWalk
import CcTools.Split

/-!
# The elements of a path

Behind the root, the elements of a path are the pieces `split` makes of it at the separators
(`elementsFrom_names`), if there is anything behind the root (`elements_eq_parts_iff`).
-/

namespace CcTools.Path
open Search StringUtils
variable {s c : Path} {L : List Path} {i j k fuel : Nat}

abbrev sep : Str := [preferredSeparator]

theorem occurs_sep_iff : Occurs s sep i ↔ IsSep s i := by
  constructor
  · rintro ⟨-, t, ht⟩
    rw [← Nat.add_zero i, ← isSep_drop, ← ht]
    rfl
  · intro h
    refine ⟨Nat.le_of_lt h.lt, s.drop (i + 1), ?_⟩
    rw [List.singleton_append, List.drop_eq_getElem_cons h.lt, (List.getElem?_eq_some_iff.1 h).2]

theorem first_sep_iff : First s sep i ↔ IsSep s i ∧ ∀ j < i, ¬ IsSep s j := by
  unfold First
  simp only [occurs_sep_iff]

/-! ### What may stand behind the root -/

/-- No separator at the beginning, and no two side by side. -/
def Plain (c : Path) : Prop := Normal c ∧ ¬ IsSep c 0

theorem Plain.not_doubled (h : Plain c) : ¬ Doubled c := fun hd => h.2 hd.2.1

theorem Normal.plain_drop (hs : Normal s) (hsucc : ¬ IsSep s (i + 1)) : Plain (s.drop (i + 1)) := by
  refine ⟨hs.drop (Nat.succ_pos i), ?_⟩
  rw [isSep_drop]
  exact hsucc

theorem plain_of_forall_not_isSep (h : ∀ i, ¬ IsSep c i) : Plain c := ⟨normal_of_forall_not_isSep h, h 0⟩

theorem Plain.pos (h : Plain c) (hi : IsSep c i) : 0 < i := by
  rcases Nat.eq_zero_or_pos i with rfl | hpos
  · exact absurd hi h.2
  · exact hpos

theorem Plain.drop (h : Plain c) (hi : IsSep c i) : Plain (c.drop (i + sep.length)) :=
  h.1.plain_drop (h.1.not_isSep_succ (h.pos hi) hi)

/-- A text of names with a separator between each two; only the last of them may be empty. -/
inductive Names : Path → List Path → Prop
  | last {x : Path} (hx : ∀ i, ¬ IsSep x i) : Names x [x]
  | next {x c : Path} {L : List Path} (hx : ∀ i, ¬ IsSep x i) (hne : x ≠ []) (rest : Names c L) :
    Names (x ++ preferredSeparator :: c) (x :: L)

theorem Plain.names (h : Plain c) (hcut : Cut sep c L) : Names c L := by
  induction hcut with
  | last hno => exact .last fun i => occurs_sep_iff.not.1 (hno i)
  | @next c p L hp rest ih =>
    obtain ⟨hsep, hbefore⟩ := first_sep_iff.1 hp
    have hnames : Names (c.take p ++ preferredSeparator :: c.drop (p + sep.length)) (c.take p :: L) := by
      refine .next (fun i hi => ?_) ?_ (ih (h.drop hsep))
      · rw [isSep_take] at hi
        exact hbefore i hi.1 hi.2
      · have hlt := hsep.lt
        have hpos := h.pos hsep
        intro hnil
        have hlen := congrArg List.length hnil
        rw [List.length_take, List.length_nil] at hlen
        omega
    have happend := hp.1.append_eq
    rw [List.append_assoc, List.singleton_append] at happend
    rwa [happend] at hnames

theorem Plain.exists_names (h : Plain c) : ∃ L, split (c.length + 1) c sep = some L ∧ Names c L := by
  obtain ⟨L, hL⟩ := split_ends c (d := sep) (List.cons_ne_nil _ _) (Nat.lt_succ_self _)
  exact ⟨L, hL, h.names (cut_of_split hL)⟩

namespace Names

theorem ne_nil (h : Names c L) : L ≠ [] := by
  cases h <;> exact List.cons_ne_nil _ _

theorem eq_of_nil (h : Names [] L) : L = [[]] := by
  generalize hc : ([] : Path) = c at h
  cases h with
  | last => rfl
  | next => exact absurd hc.symm (List.append_ne_nil_of_right_ne_nil _ (List.cons_ne_nil _ _))

end Names

/-! ### The names in a path -/

theorem slice_append (a x b : Str) : ((a ++ (x ++ b)).drop a.length).take (a.length + x.length - a.length) = x := by
  rw [List.drop_left, Nat.add_sub_cancel_left, List.take_left]

theorem elementsFrom_length (s : Path) (fuel : Nat) : elementsFrom s fuel s.length = [] := by
  cases fuel with
  | zero => rfl
  | succ fuel => rw [elementsFrom, if_pos rfl]

theorem elementsFrom_of_lt (hi : i < s.length) : elementsFrom s (fuel + 1) i = current s i :: elementsFrom s fuel (next s i) := by
  rw [elementsFrom, if_neg (Nat.ne_of_lt hi)]

/-- What an iterator shows at `a.length`, where `increment` goes over `x`. -/
theorem current_eq {a x b : Str} (hinc : increment (a ++ (x ++ b)) a.length = a.length + x.length) (hx : x ≠ [])
    (hnormal : Normal x) (hshow : ¬ IsSep (a ++ (x ++ b)) a.length ∨ a.length = 0 ∨ a.length = root (a ++ (x ++ b))) :
    current (a ++ (x ++ b)) a.length = x := by
  have hpos := List.length_pos_iff.2 hx
  rw [current, if_neg, hinc, slice_append, hnormal.postprocess_eq]
  rintro (hlen | ⟨h0, -, ⟨hsep, hroot⟩, -⟩)
  · simp only [List.length_append] at hlen
    omega
  · exact hshow.elim (fun h => h hsep) (fun h => h.elim h0 hroot)

section
variable {a x b : Str}

theorem isSep_name (hx : ∀ i, ¬ IsSep x i) (hi : i < x.length) : ¬ IsSep (a ++ (x ++ b)) (a.length + i) := by
  rw [isSep_append_right, isSep_append_left hi]
  exact hx i

theorem findSep_name (hx : ∀ i, ¬ IsSep x i) (hb : b = [] ∨ IsSep b 0) (hi : i ≤ x.length) :
    findSep (a ++ (x ++ b)) (a.length + i) = a.length + x.length := by
  refine findSep_eq (Nat.add_le_add_left hi _) ?_ (fun j hij hj => ?_) fun hlt => ?_
  · simp only [List.length_append]
    omega
  · obtain ⟨m, rfl⟩ := Nat.exists_eq_add_of_le (Nat.le_trans (Nat.le_add_right ..) hij)
    exact isSep_name hx (by omega)
  · rcases hb with rfl | hsep
    · simp only [List.length_append, List.length_nil] at hlt
      omega
    · rw [isSep_append_right, ← Nat.add_zero x.length, isSep_append_right]
      exact hsep

theorem increment_name (hx : ∀ i, ¬ IsSep x i) (hne : x ≠ []) (hb : b = [] ∨ IsSep b 0) :
    increment (a ++ (x ++ b)) a.length = a.length + x.length := by
  have hpos := List.length_pos_iff.2 hne
  rw [increment, if_neg, if_neg, findSep_name hx hb hpos]
  · exact isSep_name (i := 0) hx hpos
  · simp only [List.length_append]
    omega

theorem current_name (hx : ∀ i, ¬ IsSep x i) (hne : x ≠ []) (hb : b = [] ∨ IsSep b 0) : current (a ++ (x ++ b)) a.length = x :=
  current_eq (increment_name hx hne hb) hne (normal_of_forall_not_isSep hx)
    (.inl (isSep_name (i := 0) hx (List.length_pos_iff.2 hne)))

end

/-- A separator at the end that is not the root shows as an empty name. -/
theorem elementsFrom_trailing (hsep : IsSep s i) (hlast : i + 1 = s.length) (hpos : 0 < i) (hroot : i ≠ root s) :
    elementsFrom s (fuel + 1) i = [[]] := by
  have hend : next s i = s.length := by
    rw [next_of_isSep hsep fun h => Nat.lt_irrefl _ (hlast ▸ h.lt), hlast]
  rw [elementsFrom_of_lt hsep.lt, hend, elementsFrom_length, current, if_pos]
  exact .inr ⟨by omega, by omega, ⟨hsep, hroot⟩, hlast⟩

/-- Behind the root, the elements are the pieces between the separators. -/
theorem elementsFrom_names {a : Str} (h : Names c L) (hs : Normal (a ++ c)) (hc : c ≠ [])
    (hroot : root (a ++ c) < a.length ∨ root (a ++ c) = (a ++ c).length) (hfuel : c.length ≤ fuel) :
    elementsFrom (a ++ c) fuel a.length = L := by
  induction h generalizing a fuel with
  | @last x hx =>
    have hpos := List.length_pos_iff.2 hc
    obtain ⟨fuel, rfl⟩ := Nat.exists_eq_add_one.2 (Nat.lt_of_lt_of_le hpos hfuel)
    have hlt : a.length < (a ++ x).length := by
      rw [List.length_append]
      omega
    have hcur := current_name (a := a) (b := []) hx hc (.inl rfl)
    have hinc := increment_name (a := a) (b := []) hx hc (.inl rfl)
    rw [List.append_nil, ← List.length_append] at hinc
    rw [List.append_nil] at hcur
    rw [elementsFrom_of_lt hlt, hcur, next, hinc, skipSeps_of_not_isSep _ fun h => Nat.lt_irrefl _ h.lt,
      elementsFrom_length]
  | @next x c L hx hne hnames ih =>
    have hpos := List.length_pos_iff.2 hne
    have hb : preferredSeparator :: c = [] ∨ IsSep (preferredSeparator :: c) 0 := .inr (isSep_cons_zero.2 rfl)
    have hcur := current_name (a := a) hx hne hb
    have hinc := increment_name (a := a) hx hne hb
    have hlen : (a ++ (x ++ preferredSeparator :: c)).length = a.length + x.length + 1 + c.length := by
      simp only [List.length_append, List.length_cons]
      omega
    have hsep : IsSep (a ++ (x ++ preferredSeparator :: c)) (a.length + x.length) := by
      rw [isSep_append_right, ← Nat.add_zero x.length, isSep_append_right]
      exact isSep_cons_zero.2 rfl
    rw [List.length_append, List.length_cons] at hfuel
    obtain ⟨fuel, rfl⟩ : ∃ m, fuel = m + 1 := Nat.exists_eq_add_one.2 (by omega)
    rw [elementsFrom_of_lt (by omega), hcur, next, hinc, skipSeps_eq hs (by omega) (.inr hsep)]
    by_cases hnil : c = []
    · -- the text ends with a separator, behind which there is an empty name
      subst hnil
      rw [List.length_nil] at hlen hfuel
      obtain ⟨fuel, rfl⟩ : ∃ m, fuel = m + 1 := Nat.exists_eq_add_one.2 (by omega)
      rw [if_pos (by omega), hnames.eq_of_nil]
      exact congrArg _ (elementsFrom_trailing hsep (by omega) (by omega) (by omega))
    · have hclen := List.length_pos_iff.2 hnil
      rw [if_neg (by omega)]
      have happend : a ++ (x ++ preferredSeparator :: c) = (a ++ x ++ sep) ++ c := by
        simp only [List.append_assoc, List.singleton_append]
      have hlen' : a.length + x.length + 1 = (a ++ x ++ sep).length := by
        simp only [List.length_append, List.length_cons, List.length_nil]
      rw [happend] at hs hroot ⊢
      rw [hlen', ih hs hnil (by omega) (by omega)]

/-! ### How a text begins -/

/-- A text with a root of any kind, or without one. -/
inductive Layout : Path → Prop
  | relative {c : Path} (hc : Plain c) : Layout c
  | rooted {c : Path} (hc : Plain c) : Layout (sep ++ c)
  | host {x : Path} (hne : x ≠ []) (hx : ∀ i, ¬ IsSep x i) : Layout (sep ++ sep ++ x)
  | network {x c : Path} (hne : x ≠ []) (hx : ∀ i, ¬ IsSep x i) (hc : Plain c) : Layout (sep ++ sep ++ x ++ (sep ++ c))

theorem drop_eq_sep_append (h : IsSep s i) : s.drop i = sep ++ s.drop (i + 1) := by
  rw [List.drop_eq_getElem_cons h.lt, (List.getElem?_eq_some_iff.1 h).2]
  rfl

theorem eq_sep_sep (hlen : s.length = 2) (h0 : IsSep s 0) (h1 : IsSep s 1) : s = sep ++ sep := by
  have hhead := drop_eq_sep_append h0
  rwa [drop_eq_sep_append h1, List.drop_eq_nil_of_le (Nat.le_of_eq hlen), List.append_nil] at hhead

theorem Normal.layout (hs : Normal s) : Layout s := by
  by_cases h0 : IsSep s 0
  · have hhead := drop_eq_sep_append h0
    rw [List.drop_zero] at hhead
    by_cases h1 : IsSep s 1
    · have hd := (hs 0 h0 h1).2
      have hbounds := findSep_bounds (s := s) (p := 2) (Nat.le_of_lt hd.1)
      obtain ⟨n, hn⟩ := Nat.exists_eq_add_of_le hbounds.1
      have htail : s = sep ++ sep ++ s.drop 2 := by
        rw [List.append_assoc, ← drop_eq_sep_append h1, ← hhead]
      have hx : ∀ i, ¬ IsSep ((s.drop 2).take n) i := by
        intro i hi
        rw [isSep_take, isSep_drop] at hi
        exact not_isSep_of_lt_findSep (Nat.le_add_right ..) (by omega) hi.2
      have hpos : 0 < n := by
        refine Nat.pos_of_ne_zero ?_
        rintro rfl
        have h2 := isSep_findSep (s := s) (p := 2) (by rw [hn]; exact hd.1)
        rw [hn] at h2
        exact hd.2.2.2 h2
      have hne : (s.drop 2).take n ≠ [] := by
        have := hd.1
        rw [← List.length_pos_iff, List.length_take, List.length_drop]
        omega
      rw [htail, ← List.take_append_drop n (s.drop 2), List.drop_drop, ← hn, ← List.append_assoc]
      rcases Nat.lt_or_eq_of_le hbounds.2 with hlt | heq
      · have hsep := isSep_findSep hlt
        rw [drop_eq_sep_append hsep]
        exact .network hne hx (hs.plain_drop (hs.not_isSep_succ (by omega) hsep))
      · rw [heq, List.drop_length, List.append_nil]
        exact .host hne hx
    · rw [hhead]
      exact .rooted (hs.plain_drop h1)
  · exact .relative ⟨hs, h0⟩

/-! ### What is read off the beginning -/

theorem Plain.rootNameLength_eq (h : Plain c) : rootNameLength c = 0 := by
  rcases rootNameLength_cases c with h0 | ⟨hd, -⟩
  · exact h0
  · exact absurd hd h.not_doubled

theorem Plain.not_hasRootDirectory (h : Plain c) : ¬ HasRootDirectory c := by
  rintro ⟨-, hsep⟩
  rw [h.rootNameLength_eq] at hsep
  exact h.2 hsep

theorem not_hasRootDirectory_nil : ¬ HasRootDirectory [] := fun h => Nat.not_lt_zero _ h.1

theorem not_hasRelativePath_nil : ¬ HasRelativePath [] := Nat.not_lt_zero _

theorem isSep_sep_append (c : Path) : IsSep (sep ++ c) 0 := isSep_cons_zero.2 rfl

theorem Plain.not_doubled_sep_append (h : Plain c) : ¬ Doubled (sep ++ c) := fun hd => h.2 (isSep_cons_succ.1 hd.2.2.1)

theorem Plain.rootNameLength_sep_append (h : Plain c) : rootNameLength (sep ++ c) = 0 := by
  rcases rootNameLength_cases (sep ++ c) with h0 | ⟨hd, -⟩
  · exact h0
  · exact absurd hd h.not_doubled_sep_append

theorem Plain.hasRootDirectory_sep_append (h : Plain c) : HasRootDirectory (sep ++ c) := by
  rw [HasRootDirectory, h.rootNameLength_sep_append]
  exact ⟨Nat.succ_pos _, isSep_sep_append c⟩

section
variable {x b : Path}

theorem doubled_host (hne : x ≠ []) (hx : ∀ i, ¬ IsSep x i) (b : Path) : Doubled (sep ++ sep ++ x ++ b) := by
  have hpos := List.length_pos_iff.2 hne
  refine ⟨?_, isSep_cons_zero.2 rfl, isSep_cons_succ.2 (isSep_cons_zero.2 rfl), ?_⟩
  · simp only [List.length_append, List.length_cons, List.length_nil]
    omega
  · rw [List.append_assoc]
    exact isSep_name (a := sep ++ sep) (i := 0) hx hpos

theorem findSep_host (hne : x ≠ []) (hx : ∀ i, ¬ IsSep x i) (hb : b = [] ∨ IsSep b 0) (hi : 2 ≤ i) (h3 : i ≤ 3) :
    findSep (sep ++ sep ++ x ++ b) i = 2 + x.length := by
  have hpos := List.length_pos_iff.2 hne
  obtain ⟨m, rfl⟩ := Nat.exists_eq_add_of_le hi
  rw [List.append_assoc]
  exact findSep_name (a := sep ++ sep) hx hb (by omega)

theorem getD_host (hne : x ≠ []) (b : Path) : (sep ++ sep ++ x ++ b).getD 2 0 = x.head hne := by
  cases x with
  | nil => exact absurd rfl hne
  | cons c x => rfl

theorem rootNameLength_host (hne : x ≠ []) (hx : ∀ i, ¬ IsSep x i) (hb : b = [] ∨ IsSep b 0) :
    rootNameLength (sep ++ sep ++ x ++ b) = if isPrint (x.head hne) then 2 + x.length else 0 := by
  have hiff : Doubled (sep ++ sep ++ x ++ b) ∧ isPrint (x.head hne) ↔ isPrint (x.head hne) :=
    and_iff_right (doubled_host hne hx b)
  rw [rootNameLength, getD_host hne, findSep_host hne hx hb (by decide) (by decide)]
  simp only [hiff]

theorem length_host (x : Path) : (sep ++ sep ++ x).length = 2 + x.length := by
  simp only [List.length_append, List.length_cons, List.length_nil]

theorem hasRootDirectory_network (hne : x ≠ []) (hx : ∀ i, ¬ IsSep x i) (c : Path) :
    HasRootDirectory (sep ++ sep ++ x ++ (sep ++ c)) := by
  rw [HasRootDirectory, rootNameLength_host hne hx (.inr (isSep_sep_append c))]
  split
  · rw [← length_host, ← Nat.add_zero (sep ++ sep ++ x).length, isSep_append_right, List.length_append]
    exact ⟨Nat.lt_add_of_pos_right (Nat.succ_pos _), isSep_sep_append c⟩
  · exact ⟨Nat.succ_pos _, isSep_cons_zero.2 rfl⟩

theorem hasRootDirectory_host_iff (hne : x ≠ []) (hx : ∀ i, ¬ IsSep x i) :
    HasRootDirectory (sep ++ sep ++ x) ↔ ¬ isPrint (x.head hne) := by
  have hlen := rootNameLength_host hne hx (.inl rfl)
  rw [List.append_nil] at hlen
  rw [HasRootDirectory, hlen]
  split
  · next h =>
    rw [length_host]
    exact iff_of_false (fun hc => Nat.lt_irrefl _ hc.1) (not_not_intro h)
  · next h => exact iff_of_true ⟨Nat.succ_pos _, isSep_cons_zero.2 rfl⟩ h

end

/-! ### All elements -/

theorem elementsFrom_behind {a : Str} (h : Names c L) (hs : Normal (a ++ c))
    (hroot : root (a ++ c) < a.length ∨ root (a ++ c) = (a ++ c).length) (hfuel : c.length ≤ fuel) :
    elementsFrom (a ++ c) fuel a.length = if c = [] then [] else L := by
  split
  · next hc =>
    subst hc
    simp only [List.append_nil]
    exact elementsFrom_length a fuel
  · next hc => exact elementsFrom_names h hs hc hroot hfuel

theorem Names.elements (h : Names c L) (hc : Plain c) : elements c = if c = [] then [] else L := by
  have hroot : root c = c.length := if_neg hc.not_hasRootDirectory
  exact elementsFrom_behind (a := []) h hc.1 (.inr hroot) (Nat.le_refl _)

theorem Names.elements_rooted (h : Names c L) (hc : Plain c) (hs : Normal (sep ++ c)) :
    Path.elements (sep ++ c) = sep :: if c = [] then [] else L := by
  have hsep := isSep_sep_append c
  have hno : ¬ IsSep (sep ++ c) (0 + 1) := fun h => hc.2 (isSep_cons_succ.1 h)
  have hinc : increment ([] ++ (sep ++ c)) 0 = 0 + sep.length := by
    rw [List.nil_append, increment, if_neg (Nat.ne_of_lt hsep.lt), if_pos hsep]
    dsimp only
    rw [if_neg fun hc => hno hc.2]
    rfl
  have hcur := current_eq (a := []) hinc (List.cons_ne_nil _ _) (fun i _ hi => absurd hi (by simp)) (.inr (.inl rfl))
  have hroot : root (sep ++ c) = 0 := by rw [root, if_pos hc.hasRootDirectory_sep_append, hc.rootNameLength_sep_append]
  rw [List.nil_append] at hcur
  rw [Path.elements, show (sep ++ c).length = c.length + 1 from rfl, elementsFrom_of_lt hsep.lt, next_of_isSep hsep hno]
  exact congrArg₂ List.cons hcur (elementsFrom_behind (a := sep) h hs (.inl (hroot ▸ Nat.succ_pos _)) (Nat.le_refl _))

section
variable {x b : Path}

theorem current_host (hne : x ≠ []) (hx : ∀ i, ¬ IsSep x i) (hb : b = [] ∨ IsSep b 0) (hx' : Normal (sep ++ sep ++ x)) :
    current (sep ++ sep ++ x ++ b) 0 = sep ++ sep ++ x := by
  have hd := doubled_host hne hx b
  have hinc : increment ([] ++ (sep ++ sep ++ x ++ b)) 0 = 0 + (sep ++ sep ++ x).length := by
    obtain ⟨hlen, h0, h1, h2⟩ := hd
    rw [List.nil_append, increment, if_neg (by omega), if_pos h0]
    dsimp only
    rw [if_pos ⟨by omega, h1⟩, if_pos ⟨rfl, fun hc => h2 hc.2⟩, findSep_host hne hx hb (by decide) (by decide),
      length_host, Nat.zero_add]
  exact current_eq (a := []) hinc (by simp) hx' (.inr (.inl rfl))

theorem next_host (hne : x ≠ []) (hx : ∀ i, ¬ IsSep x i) (hb : b = [] ∨ IsSep b 0) :
    next (sep ++ sep ++ x ++ b) 0 = skipSeps (sep ++ sep ++ x ++ b) (sep ++ sep ++ x ++ b).length (2 + x.length) := by
  rw [next_of_doubled (doubled_host hne hx b), findSep_host hne hx hb (by decide) (by decide)]

theorem normal_host (hne : x ≠ []) (hx : ∀ i, ¬ IsSep x i) : Normal (sep ++ sep ++ x) := by
  have hd := doubled_host hne hx []
  rw [List.append_nil] at hd
  intro i _ hsucc
  refine ⟨?_, hd⟩
  match i with
  | 0 => rfl
  | i + 1 =>
    rw [show i + 1 + 1 = (sep ++ sep).length + i from Nat.add_comm i 2, isSep_append_right] at hsucc
    exact absurd hsucc (hx i)

theorem elements_host (hne : x ≠ []) (hx : ∀ i, ¬ IsSep x i) : elements (sep ++ sep ++ x) = [sep ++ sep ++ x] := by
  have hcur := current_host hne hx (.inl rfl) (normal_host hne hx)
  have hnext := next_host hne hx (.inl rfl)
  rw [List.append_nil] at hcur hnext
  rw [skipSeps_of_not_isSep _ fun h => by have := h.lt; rw [length_host] at this; omega] at hnext
  rw [elements, show (sep ++ sep ++ x).length = x.length + 1 + 1 from rfl, elementsFrom_of_lt (Nat.succ_pos _), hcur, hnext,
    ← length_host, elementsFrom_length]

theorem elements_network (hne : x ≠ []) (hx : ∀ i, ¬ IsSep x i) (h : Names c L) (hc : Plain c)
    (hs : Normal (sep ++ sep ++ x ++ (sep ++ c))) : elements (sep ++ sep ++ x ++ (sep ++ c)) =
      (sep ++ sep ++ x) :: if isPrint (x.head hne) then sep :: (if c = [] then [] else L) else L := by
  have hb : sep ++ c = [] ∨ IsSep (sep ++ c) 0 := .inr (isSep_sep_append c)
  have hcur := current_host hne hx hb (normal_host hne hx)
  have hlen : (sep ++ sep ++ x ++ (sep ++ c)).length = x.length + c.length + 3 := by
    simp only [List.length_append, List.length_cons, List.length_nil]
    omega
  have hroot : root (sep ++ sep ++ x ++ (sep ++ c)) = if isPrint (x.head hne) then 2 + x.length else 0 := by
    rw [root, if_pos (hasRootDirectory_network hne hx c), rootNameLength_host hne hx hb]
  have hsep : IsSep (sep ++ sep ++ x ++ (sep ++ c)) (2 + x.length) := by
    rw [← length_host, ← Nat.add_zero (sep ++ sep ++ x).length, isSep_append_right]
    exact isSep_sep_append c
  have hno := hs.not_isSep_succ (by omega) hsep
  have happend : sep ++ sep ++ x ++ (sep ++ c) = (sep ++ sep ++ x ++ sep) ++ c := (List.append_assoc ..).symm
  have hlen' : (sep ++ sep ++ x ++ sep).length = 2 + x.length + 1 := by
    rw [List.length_append, length_host]
    rfl
  rw [elements, hlen, elementsFrom_of_lt (by omega), hcur, next_host hne hx hb, skipSeps_eq hs (by omega) (.inr hsep)]
  congr 1
  by_cases hp : isPrint (x.head hne)
  · -- the separator behind the host is the root
    rw [if_pos hp] at hroot ⊢
    have hinc : increment (sep ++ sep ++ x ++ (sep ++ c)) (sep ++ sep ++ x).length = (sep ++ sep ++ x).length + sep.length := by
      rw [length_host, increment, if_neg (Nat.ne_of_lt hsep.lt), if_pos hsep]
      dsimp only
      rw [if_neg fun hc => hno hc.2]
      rfl
    have hcur' := current_eq hinc (List.cons_ne_nil _ _) (fun i _ hi => absurd hi (by simp)) (.inr (.inr (by rw [length_host, hroot])))
    rw [length_host] at hcur'
    rw [hroot, if_pos (.inr (.inl rfl)), elementsFrom_of_lt hsep.lt, hcur', next_of_isSep hsep hno, happend, ← hlen']
    exact congrArg _ (elementsFrom_behind h (happend ▸ hs) (.inl (by rw [← happend, hroot, hlen']; omega)) (by omega))
  · rw [if_neg hp] at hroot ⊢
    rw [hroot, hlen]
    by_cases hnil : c = []
    · subst hnil
      rw [List.length_nil] at hlen ⊢
      rw [if_pos (.inr (.inr (by omega))), h.eq_of_nil]
      exact elementsFrom_trailing hsep (by omega) (by omega) (by omega)
    · have := List.length_pos_iff.2 hnil
      rw [if_neg (by omega), happend, ← hlen']
      exact elementsFrom_names h (happend ▸ hs) hnil (.inl (by rw [← happend, hroot, hlen']; omega)) (by omega)

end

/-- The parts of the root that there are, and the pieces `split` makes of the relative path; an empty one gives no
piece, where `split` returns an empty string. -/
def parts (s : Path) : List Path :=
  [rootName s, rootDirectory s].filter (· ≠ []) ++
    if relativePath s = [] then [] else (split ((relativePath s).length + 1) (relativePath s) sep).getD []

theorem rootDirectory_eq (s : Path) : rootDirectory s = if HasRootDirectory s then sep else [] := rfl

theorem Plain.parts (hc : Plain c) (h : split (c.length + 1) c sep = some L) : parts c = if c = [] then [] else L := by
  have hname : rootName c = [] := by
    rw [rootName, hc.rootNameLength_eq]
    rfl
  have hrel : relativePath c = c := by
    rw [relativePath, rootPathLen, hc.rootNameLength_eq, if_neg hc.not_hasRootDirectory, Nat.zero_add, Nat.zero_min,
      List.drop_zero, hc.1.postprocess_eq]
  rw [Path.parts, hname, rootDirectory_eq, if_neg hc.not_hasRootDirectory, hrel, h]
  rfl

theorem Plain.rootName_sep_append (hc : Plain c) : rootName (sep ++ c) = [] := by
  rw [rootName, hc.rootNameLength_sep_append]
  rfl

theorem Plain.relativePath_sep_append (hc : Plain c) : relativePath (sep ++ c) = c := by
  rw [relativePath, rootPathLen, hc.rootNameLength_sep_append, if_pos hc.hasRootDirectory_sep_append, Nat.zero_add,
    Nat.min_eq_left (show 1 ≤ (sep ++ c).length from Nat.succ_pos _)]
  exact hc.1.postprocess_eq

theorem Plain.parts_sep_append (hc : Plain c) (h : split (c.length + 1) c sep = some L) :
    Path.parts (sep ++ c) = sep :: if c = [] then [] else L := by
  rw [Path.parts, hc.rootName_sep_append, rootDirectory_eq, if_pos hc.hasRootDirectory_sep_append, hc.relativePath_sep_append, h]
  rfl


section
variable {x b : Path}

theorem rootName_host (hne : x ≠ []) (hx : ∀ i, ¬ IsSep x i) (hb : b = [] ∨ IsSep b 0) (hp : isPrint (x.head hne)) :
    rootName (sep ++ sep ++ x ++ b) = sep ++ sep ++ x := by
  rw [rootName, rootNameLength_host hne hx hb, if_pos hp, ← length_host, List.take_left, (normal_host hne hx).postprocess_eq]

/-- Nothing but the name of a host that is printed. -/
theorem only_host (hne : x ≠ []) (hx : ∀ i, ¬ IsSep x i) (hp : isPrint (x.head hne)) :
    rootNameLength (sep ++ sep ++ x) = (sep ++ sep ++ x).length ∧ rootName (sep ++ sep ++ x) = sep ++ sep ++ x ∧
      ¬ HasRootDirectory (sep ++ sep ++ x) ∧ relativePath (sep ++ sep ++ x) = [] := by
  have hname := rootName_host hne hx (.inl rfl) hp
  have hlen := rootNameLength_host hne hx (.inl rfl)
  rw [List.append_nil] at hname hlen
  rw [if_pos hp, ← length_host] at hlen
  have hroot : ¬ HasRootDirectory (sep ++ sep ++ x) := (hasRootDirectory_host_iff hne hx).not.2 (not_not_intro hp)
  refine ⟨hlen, hname, hroot, ?_⟩
  rw [relativePath, rootPathLen, hlen, if_neg hroot, Nat.add_zero, Nat.min_self, List.drop_length]
  rfl

theorem parts_host (hne : x ≠ []) (hx : ∀ i, ¬ IsSep x i) (hp : isPrint (x.head hne)) :
    parts (sep ++ sep ++ x) = [sep ++ sep ++ x] := by
  obtain ⟨-, hname, hroot, hrel⟩ := only_host hne hx hp
  rw [parts, hname, rootDirectory_eq, if_neg hroot, hrel]
  rfl

theorem parts_network (hne : x ≠ []) (hx : ∀ i, ¬ IsSep x i) (hc : Plain c) (h : split (c.length + 1) c sep = some L)
    (hp : isPrint (x.head hne)) :
    parts (sep ++ sep ++ x ++ (sep ++ c)) = (sep ++ sep ++ x) :: sep :: if c = [] then [] else L := by
  have hb : sep ++ c = [] ∨ IsSep (sep ++ c) 0 := .inr (isSep_sep_append c)
  have hroot := hasRootDirectory_network hne hx c
  have happend : sep ++ sep ++ x ++ (sep ++ c) = (sep ++ sep ++ x ++ sep) ++ c := (List.append_assoc ..).symm
  have hlen : 2 + x.length + 1 = (sep ++ sep ++ x ++ sep).length := by
    rw [List.length_append, length_host]
    rfl
  have hrel : relativePath (sep ++ sep ++ x ++ (sep ++ c)) = c := by
    rw [relativePath, rootPathLen, rootNameLength_host hne hx hb, if_pos hp, if_pos hroot, Nat.min_eq_left, happend, hlen,
      List.drop_left, hc.1.postprocess_eq]
    rw [happend, hlen]
    exact (List.prefix_append ..).length_le
  rw [parts, rootName_host hne hx hb hp, rootDirectory_eq, if_pos hroot, hrel, h]
  rfl

/-- Where the host is no name, its first separator counts as the root. -/
theorem parts_head_of_not_isPrint (hne : x ≠ []) (hx : ∀ i, ¬ IsSep x i) (hb : b = [] ∨ IsSep b 0)
    (hp : ¬ isPrint (x.head hne)) : (parts (sep ++ sep ++ x ++ b)).head? = some sep := by
  have hlen := rootNameLength_host hne hx hb
  rw [if_neg hp] at hlen
  have hname : rootName (sep ++ sep ++ x ++ b) = [] := by
    rw [rootName, hlen]
    rfl
  have hroot : HasRootDirectory (sep ++ sep ++ x ++ b) := by
    rw [HasRootDirectory, hlen]
    exact ⟨Nat.succ_pos _, isSep_cons_zero.2 rfl⟩
  rw [parts, hname, rootDirectory_eq, if_pos hroot]
  rfl

end

/-- The elements are the parts, unless a byte that cannot be printed stands behind two separators. -/
theorem elements_eq_parts_iff (text : Str) :
    let s := postprocess text
    elements s = parts s ↔ ¬ (Doubled s ∧ ¬ isPrint (s.getD 2 0)) := by
  intro s
  have hs : Normal s := normal_postprocess text
  generalize s = s at hs ⊢
  cases hs.layout with
  | relative hc =>
    obtain ⟨L, hsplit, hL⟩ := hc.exists_names
    rw [hL.elements hc, hc.parts hsplit]
    exact iff_of_true rfl fun h => hc.not_doubled h.1
  | rooted hc =>
    obtain ⟨L, hsplit, hL⟩ := hc.exists_names
    rw [hL.elements_rooted hc hs, hc.parts_sep_append hsplit]
    exact iff_of_true rfl fun h => hc.not_doubled_sep_append h.1
  | @host x hne hx =>
    have hget := getD_host hne []
    have hdoubled := doubled_host hne hx []
    have hhead := parts_head_of_not_isPrint hne hx (.inl rfl)
    rw [List.append_nil] at hget hdoubled hhead
    rw [elements_host hne hx, hget]
    by_cases hp : isPrint (x.head hne)
    · rw [parts_host hne hx hp]
      exact iff_of_true rfl fun h => h.2 hp
    · refine iff_of_false (fun heq => ?_) (fun h => h ⟨hdoubled, hp⟩)
      have := hhead hp
      rw [← heq] at this
      simp at this
  | @network x c hne hx hc =>
    obtain ⟨L, hsplit, hL⟩ := hc.exists_names
    rw [elements_network hne hx hL hc hs, getD_host hne]
    by_cases hp : isPrint (x.head hne)
    · rw [parts_network hne hx hc hsplit hp, if_pos hp]
      exact iff_of_true rfl fun h => h.2 hp
    · refine iff_of_false (fun heq => ?_) (fun h => h ⟨doubled_host hne hx _, hp⟩)
      have := parts_head_of_not_isPrint hne hx (.inr (isSep_sep_append c)) hp
      rw [← heq] at this
      simp at this

end CcTools.Path
