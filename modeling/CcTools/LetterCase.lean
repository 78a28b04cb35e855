import CcTools.IsNumber
import CcTools.Split
import CcTools.Trim

/-!
# `upperCase` beside the other functions

Small letters do not matter to `trim` and to `isNumber` (`isNumber_trim_upperCase`), and to `split` they
matter exactly if its delimiter has letters (`split_upperCase_iff`).
-/

namespace CcTools.StringUtils
open Search Munch

def IsLetter (c : UInt8) : Prop := 0x41 ≤ c ∧ c ≤ 0x5A ∨ 0x61 ≤ c ∧ c ≤ 0x7A

instance (c : UInt8) : Decidable (IsLetter c) := inferInstanceAs (Decidable (_ ∨ _))

section
variable {str d s : Str} {c : UInt8}

/-! ### Splitting -/

theorem toUpper_cases (c : UInt8) : toUpper c = c ∨ IsLetter c ∧ IsLetter (toUpper c) := by
  have htable : ∀ n < 256, toUpper (UInt8.ofNat n) = UInt8.ofNat n ∨
      IsLetter (UInt8.ofNat n) ∧ IsLetter (toUpper (UInt8.ofNat n)) := by
    decide +kernel
  have hc := htable c.toNat c.toNat_lt
  rwa [UInt8.ofNat_toNat] at hc

theorem toUpper_eq_iff (h : ¬ IsLetter c) (a : UInt8) : toUpper a = c ↔ a = c := by
  rcases toUpper_cases a with ha | ⟨ha, hup⟩
  · rw [ha]
  · constructor
    · rintro rfl
      exact absurd hup h
    · rintro rfl
      exact absurd ha h

/-- A letter is not what `toUpper` makes of it, or it is made of another one. -/
theorem exists_toUpper_eq (h : IsLetter c) : toUpper c ≠ c ∨ ∃ a, a ≠ c ∧ toUpper a = c := by
  have htable : ∀ n < 256, IsLetter (UInt8.ofNat n) → toUpper (UInt8.ofNat n) ≠ UInt8.ofNat n ∨
      UInt8.ofNat n + 0x20 ≠ UInt8.ofNat n ∧ toUpper (UInt8.ofNat n + 0x20) = UInt8.ofNat n := by
    decide +kernel
  have hc := htable c.toNat c.toNat_lt
  rw [UInt8.ofNat_toNat] at hc
  exact (hc h).imp_right fun h => ⟨_, h⟩

theorem split_upperCase (hd : d ≠ []) (h : ∀ c ∈ d, ¬ IsLetter c) {fuel : Nat} (hfuel : str.length < fuel) :
    split fuel (upperCase str) d = (split fuel str d).map (List.map upperCase) := by
  obtain ⟨L, hL⟩ := split_ends str hd hfuel
  have hcut := (cut_of_split hL).map (f := toUpper) fun c hc a => toUpper_eq_iff (h c hc) a
  rw [hL, Option.map_some]
  exact (split_eq_iff hd (by rwa [upperCase, List.length_map])).2 hcut

/-- If the pieces keep to small letters, a string as long as the delimiter is one exactly if it is one in
capitals. -/
theorem upperCase_eq_iff (hd : d ≠ []) (hlen : s.length = d.length)
    (h : split (s.length + 1) (upperCase s) d = (split (s.length + 1) s d).map (List.map upperCase)) :
    upperCase s = d ↔ s = d := by
  obtain ⟨L, hL⟩ := split_ends s hd (Nat.lt_succ_self _)
  rw [hL, Option.map_some] at h
  have hcut := cut_of_split h
  have htwo := (cut_of_split hL).length_eq_two_iff hlen hd
  rw [← hcut.length_eq_two_iff (by rw [upperCase, List.length_map, hlen]) hd, List.length_map, htwo]

/-- Splitting and `upperCase` can be exchanged exactly if the delimiter has no letter. -/
theorem split_upperCase_iff (hd : d ≠ []) :
    (∀ str fuel, str.length < fuel →
      split fuel (upperCase str) d = (split fuel str d).map (List.map upperCase)) ↔ ∀ c ∈ d, ¬ IsLetter c := by
  refine ⟨fun h c hc hletter => ?_, fun h str fuel hfuel => split_upperCase hd h hfuel⟩
  have hiff : ∀ s : Str, s.length = d.length → (upperCase s = d ↔ s = d) := fun s hlen =>
    upperCase_eq_iff hd hlen (h s _ (Nat.lt_succ_self _))
  have hup : upperCase d = d := (hiff d rfl).2 rfl
  have hfix : ∀ a ∈ d, toUpper a = a := List.map_inj_left.1 (hup.trans (List.map_id d).symm)
  rcases exists_toUpper_eq hletter with hne | ⟨a, hne, ha⟩
  · exact hne (hfix c hc)
  · -- the delimiter with one letter made small
    obtain ⟨x, y, rfl⟩ := List.append_of_mem hc
    have hsmall : upperCase (x ++ a :: y) = x ++ c :: y := by
      rw [upperCase, List.map_append, List.map_cons] at hup ⊢
      rw [ha]
      rw [hfix c hc] at hup
      exact hup
    have heq := (hiff (x ++ a :: y) (by simp)).1 hsmall
    exact hne (List.cons.inj (List.append_cancel_left heq)).1

/-- At a comma, with letters around it. -/
theorem split_upperCase_comma : split 4 (upperCase [0x61, 0x2C, 0x62]) [0x2C] =
    (split 4 [0x61, 0x2C, 0x62] [0x2C]).map (List.map upperCase) :=
  (split_upperCase_iff (d := [0x2C]) (by decide)).2 (List.forall_mem_singleton.2 (by decide)) _ _ (by decide)

end

/-! ### Numerals -/

theorem kind_toUpper (c : UInt8) : kind (toUpper c) = kind c := by
  have htable : ∀ n < 256, kind (toUpper (UInt8.ofNat n)) = kind (UInt8.ofNat n) := by decide +kernel
  have hc := htable c.toNat c.toNat_lt
  rwa [UInt8.ofNat_toNat] at hc

theorem kind_space_iff (c : UInt8) : kind c = .space ↔ c ∈ blanks := by
  have htable : ∀ n < 256, kind (UInt8.ofNat n) = .space ↔ UInt8.ofNat n ∈ blanks := by decide +kernel
  have hc := htable c.toNat c.toNat_lt
  rwa [UInt8.ofNat_toNat] at hc

/-- Only the mark of an exponent is a letter that numerals have. -/
theorem toUpper_eq_self {c : UInt8} (h : kind c ≠ .mark) (h' : kind c ≠ .other) : toUpper c = c := by
  have htable : ∀ n < 256, kind (UInt8.ofNat n) ≠ .mark → kind (UInt8.ofNat n) ≠ .other →
      toUpper (UInt8.ofNat n) = UInt8.ofNat n := by
    decide +kernel
  have hc := htable c.toNat c.toNat_lt
  rw [UInt8.ofNat_toNat] at hc
  exact hc h h'

/-- The numeral with a capital `E`. -/
def capital (n : Numeral) : Numeral :=
  { n with exponent := n.exponent.map fun e => { e with mark := toUpper e.mark } }

theorem overflows_capital (n : Numeral) : (capital n).Overflows ↔ n.Overflows := by
  obtain ⟨sign, whole, frac, exponent⟩ := n
  cases exponent <;> rfl

section
variable (s : Str)

theorem takeSign_upperCase : takeSign (upperCase s) = ((takeSign s).1, upperCase (takeSign s).2) := by
  cases s with
  | nil => rfl
  | cons c s =>
    rw [upperCase, List.map_cons, takeSign, takeSign, kind_toUpper]
    split
    · rename_i hc
      rw [toUpper_eq_self (by rw [hc]; decide) (by rw [hc]; decide)]
      rfl
    · rfl

theorem takeDigits_upperCase : takeDigits (upperCase s) = ((takeDigits s).1, upperCase (takeDigits s).2) := by
  have hkind : (fun c => decide (kind c = .digit)) ∘ toUpper = fun c => decide (kind c = .digit) := by
    funext c
    rw [Function.comp_apply, kind_toUpper]
  have hdigits : (s.takeWhile (kind · = .digit)).map toUpper = s.takeWhile (kind · = .digit) := by
    refine (List.map_congr_left fun c hc => ?_).trans (List.map_id _)
    have hc' : kind c = .digit := by simpa using List.mem_takeWhile_imp hc
    exact toUpper_eq_self (by rw [hc']; decide) (by rw [hc']; decide)
  rw [takeDigits, upperCase, List.takeWhile_map, List.dropWhile_map, hkind, hdigits]
  rfl

theorem takeFrac_upperCase : takeFrac (upperCase s) = ((takeFrac s).1, upperCase (takeFrac s).2) := by
  cases s with
  | nil => rfl
  | cons c s =>
    have hdigits := takeDigits_upperCase s
    rw [upperCase] at hdigits
    rw [upperCase, List.map_cons, takeFrac, takeFrac, kind_toUpper, hdigits]
    split <;> rfl

theorem takeExponent_upperCase : takeExponent (upperCase s) =
    ((takeExponent s).1.map fun e => { e with mark := toUpper e.mark }, upperCase (takeExponent s).2) := by
  cases s with
  | nil => rfl
  | cons c s =>
    have hsign := takeSign_upperCase s
    have hdigits := takeDigits_upperCase (takeSign s).2
    rw [upperCase] at hsign
    rw [upperCase, List.map_cons, takeExponent, takeExponent, kind_toUpper, hsign]
    simp only [hdigits]
    split <;> rfl

theorem strtod_upperCase : strtod (upperCase s) = (strtod s).map fun r => (capital r.1, upperCase r.2) := by
  simp only [strtod, takeSign_upperCase, takeDigits_upperCase, takeFrac_upperCase, takeExponent_upperCase]
  split <;> rfl

theorem converts_upperCase : converts (upperCase s) = converts s := by
  rw [converts, converts, strtod_upperCase]
  cases strtod s with
  | none => rfl
  | some r =>
    obtain ⟨n, rest⟩ := r
    cases rest with
    | nil =>
      show (!decide (capital n).Overflows) = !decide n.Overflows
      simp only [overflows_capital]
    | cons c rest => rfl

end

/-! ### `trim`, `upperCase` and `isNumber` -/

theorem isNumber_congr {s t : Str} (hconv : converts (munch Accum.step {} (s.dropWhile (kind · = .space))).1 =
      converts (munch Accum.step {} (t.dropWhile (kind · = .space))).1)
    (hrest : (∀ c ∈ (munch Accum.step {} (s.dropWhile (kind · = .space))).2, kind c = .space) ↔
      ∀ c ∈ (munch Accum.step {} (t.dropWhile (kind · = .space))).2, kind c = .space) : isNumber s = isNumber t := by
  rw [Bool.eq_iff_iff, isNumber_eq, isNumber_eq]
  dsimp only
  rw [hconv, hrest]

theorem isNumber_upperCase (s : Str) : isNumber (upperCase s) = isNumber s := by
  have hkind : (fun c => decide (kind c = .space)) ∘ toUpper = fun c => decide (kind c = .space) := by
    funext c
    rw [Function.comp_apply, kind_toUpper]
  have hstep : ∀ a c, Accum.step a (toUpper c) = Accum.step a c := by
    intro a c
    rw [Accum.step, Accum.step, kind_toUpper]
  have hread : munch Accum.step {} ((upperCase s).dropWhile (kind · = .space)) =
      (upperCase (munch Accum.step {} (s.dropWhile (kind · = .space))).1,
        upperCase (munch Accum.step {} (s.dropWhile (kind · = .space))).2) := by
    rw [upperCase, List.dropWhile_map, hkind, munch_map hstep]
    rfl
  refine isNumber_congr ?_ ?_
  · rw [hread]
    exact converts_upperCase _
  · rw [hread]
    dsimp only [upperCase]
    rw [List.forall_mem_map]
    simp only [kind_toUpper]

theorem isNumber_stripped {s t : Str} (h : Stripped (· ∈ blanks) s t) : isNumber t = isNumber s := by
  obtain ⟨a, b, ha, hb, rfl⟩ := h.cut
  have hspace : (fun c => decide (kind c = .space)) = fun c => decide (c ∈ blanks) := by
    funext c
    rw [decide_eq_decide, kind_space_iff]
  have hrefused : ∀ q, ∀ c ∈ b.head?, Accum.step q c = none := by
    intro q c hc
    refine Accum.step_space ((kind_space_iff c).2 ?_) q
    exact of_decide_eq_true (hb c (List.mem_of_mem_head? hc))
  have ht : t.dropWhile (kind · = .space) = t := by
    rw [hspace]
    exact dropWhile_eq_self h.head
  have hstr : munch Accum.step {} ((a ++ t ++ b).dropWhile (kind · = .space)) =
      ((munch Accum.step {} t).1, (munch Accum.step {} t).2 ++ b) ∨
      t = [] ∧ (a ++ t ++ b).dropWhile (kind · = .space) = [] := by
    cases t with
    | nil =>
      refine .inr ⟨rfl, ?_⟩
      rw [hspace, List.append_nil, List.dropWhile_eq_nil_iff]
      intro c hc
      rcases List.mem_append.1 hc with hc | hc
      exacts [ha c hc, hb c hc]
    | cons c t =>
      refine .inl ?_
      have hdrop : (a ++ (c :: t ++ b)).dropWhile (kind · = .space) = c :: t ++ b := by
        rw [hspace]
        exact dropWhile_run ha h.head
      rw [List.append_assoc, hdrop, munch_append_refused hrefused]
  rcases hstr with hstr | ⟨rfl, hnil⟩
  · refine isNumber_congr ?_ ?_
    · rw [hstr, ht]
    · rw [hstr, ht]
      dsimp only
      rw [List.forall_mem_append]
      refine (and_iff_left fun c hc => ?_).symm
      exact (kind_space_iff c).2 (of_decide_eq_true (hb c hc))
  · refine isNumber_congr ?_ ?_ <;> rw [hnil, ht]

theorem stripped_upperCase {s t : Str} (h : Stripped (· ∈ blanks) s t) :
    Stripped (· ∈ blanks) (upperCase s) (upperCase t) := by
  have hblank : ∀ c, toUpper c ∈ blanks ↔ c ∈ blanks := by
    intro c
    rw [← kind_space_iff, ← kind_space_iff, kind_toUpper]
  obtain ⟨a, b, ha, hb, rfl⟩ := h.cut
  refine ⟨⟨upperCase a, upperCase b, ?_, ?_, ?_⟩, ?_, ?_⟩
  · simpa [upperCase, hblank] using ha
  · simpa [upperCase, hblank] using hb
  · simp [upperCase]
  · simpa [upperCase, hblank] using h.head
  · simpa [upperCase, hblank] using h.last

/-- Blanks around a string and the size of its letters do not matter to `isNumber`, nor the latter to `trim`. -/
theorem isNumber_trim_upperCase (str : Str) (hs : str.length < 2 ^ 64) : ∃ t, trim str = .ok t ∧
    trim (upperCase str) = .ok (upperCase t) ∧ isNumber t = isNumber str ∧ isNumber (upperCase t) = isNumber str := by
  have hstrip := stripped_strip (· ∈ blanks) str
  have hup : (upperCase str).length < 2 ^ 64 := by rwa [upperCase, List.length_map]
  refine ⟨_, trim_eq hs, ?_, isNumber_stripped hstrip, ?_⟩
  · rw [trim_eq hup, (stripped_upperCase hstrip).eq_strip]
  · rw [isNumber_upperCase, isNumber_stripped hstrip]

theorem isNumber_trim_upperCase_exponent :
    isNumber [0x31, 0x45, 0x32] = isNumber [0x20, 0x31, 0x65, 0x32, 0x0A] := by
  obtain ⟨t, ht, -, -, hnumber⟩ := isNumber_trim_upperCase [0x20, 0x31, 0x65, 0x32, 0x0A] (by decide)
  have heval : trim [0x20, 0x31, 0x65, 0x32, 0x0A] = .ok [0x31, 0x65, 0x32] := by rfl
  obtain rfl : [0x31, 0x65, 0x32] = t := Except.ok.inj (heval.symm.trans ht)
  exact hnumber

end CcTools.StringUtils
