import CcTools.Stream

/-!
# `isNumber` accepts the decimal numerals

The accumulation takes a whole numeral and stops at the white space after it (`Numeral.accumulates`); what
it takes of any other text is not converted, or something is left for the second read.
-/

namespace CcTools

/-! ### The accumulation -/

namespace Accum
variable {a : Accum}

theorem step_space {c : UInt8} (h : kind c = .space) (a : Accum) : a.step c = none := by
  rw [step, h]

theorem run_sign {sign : Option UInt8} (h : ∀ c ∈ sign, kind c = .sign) (ha : a.signNext = true) :
    sign.toList.foldlM step a = some { a with signNext := sign.isNone } := by
  cases sign with
  | none =>
    show some a = _
    rw [Option.isNone_none, ← ha]
  | some c =>
    have hstep : a.step c = some { a with signNext := false } := by
      rw [step, h c rfl]
      exact if_pos ha
    simp [hstep]

theorem run_digits {digits : Str} (h : Digits digits) : digits.foldlM step a =
    some { a with
      signNext := a.signNext && digits.isEmpty
      foundMantissa := a.foundMantissa || !digits.isEmpty } := by
  induction digits generalizing a with
  | nil => simp
  | cons c digits ih =>
    have hstep : a.step c = some { a with signNext := false, foundMantissa := true } := by
      rw [step, h c (List.mem_cons_self ..)]
    have htail : Digits digits := fun d hd => h d (List.mem_cons_of_mem c hd)
    rw [Munch.run_cons hstep, ih htail]
    simp

theorem run_frac {frac : Option Str} (h : Digits (frac.getD [])) (hdec : a.foundDec = false) (hsci : a.foundSci = false) :
    (fracText frac).foldlM step a = some { a with
      signNext := a.signNext && frac.isNone
      foundMantissa := a.foundMantissa || !(frac.getD []).isEmpty
      foundDec := frac.isSome } := by
  cases frac with
  | none =>
    obtain ⟨next, mantissa, dec, sci⟩ := a
    obtain rfl : dec = false := hdec
    simp [fracText]
  | some digits =>
    have hdigits : Digits digits := h
    have hpoint : kind 0x2E = .point := by decide
    have hstep : a.step 0x2E = some { a with signNext := false, foundDec := true } := by
      rw [step, hpoint, hdec, hsci]
      rfl
    rw [fracText, Munch.run_cons hstep, run_digits hdigits]
    simp

theorem run_exponent {exponent : Option Exponent} (h : ∀ e ∈ exponent, e.WellFormed) (hmantissa : a.foundMantissa = true)
    (hsci : a.foundSci = false) : ∃ a', (exponentText exponent).foldlM step a = some a' := by
  cases exponent with
  | none => exact ⟨a, rfl⟩
  | some e =>
    obtain ⟨hmark, hsign, hdigits, -⟩ := h e rfl
    have hstep : a.step e.mark = some { a with signNext := true, foundSci := true } := by
      rw [step, hmark, hmantissa, hsci]
      rfl
    rw [exponentText, Munch.run_cons hstep, Munch.run_append (run_sign hsign rfl)]
    exact ⟨_, run_digits hdigits⟩

end Accum

namespace Numeral
variable {n : Numeral}

theorem accepted (h : n.WellFormed) : ∃ a, n.text.foldlM Accum.step {} = some a := by
  rw [text, Munch.run_append (Accum.run_sign h.sign rfl), Munch.run_append (Accum.run_digits h.whole),
    Munch.run_append (Accum.run_frac h.frac rfl rfl)]
  refine Accum.run_exponent h.exponent ?_ rfl
  rcases h.mantissa with hne | hne
  · simp [hne]
  · simp [hne]

/-- The white space after a numeral is left. -/
theorem accumulates (h : n.WellFormed) {after : Str} (hafter : ∀ c ∈ after, kind c = .space) :
    Munch.munch Accum.step {} (n.text ++ after) = (n.text, after) := by
  obtain ⟨a, hrun⟩ := accepted h
  refine Munch.munch_run hrun fun c hc => Accum.step_space ?_ a
  exact hafter c (List.mem_of_mem_head? hc)

/-- A numeral does not start with white space. -/
theorem head?_text (h : n.WellFormed) : ∃ c, n.text.head? = some c ∧ kind c ≠ .space := by
  cases hsign : n.sign with
  | some c =>
    have hkind : kind c = .sign := h.sign c hsign
    refine ⟨c, by simp [text, hsign], ?_⟩
    rw [hkind]
    decide
  | none =>
    obtain ⟨c, hc, hkind⟩ := kind_head?_body h
    refine ⟨c, by simpa [text, hsign] using hc, ?_⟩
    rcases hkind with hkind | hkind <;> rw [hkind] <;> decide

end Numeral

theorem converts_iff {text : Str} : converts text = true ↔ ∃ n : Numeral, n.WellFormed ∧ ¬ n.Overflows ∧ n.text = text := by
  constructor
  · intro h
    unfold converts at h
    split at h
    · rename_i n hn
      obtain ⟨htext, hwf⟩ := strtod_spec hn
      rw [List.append_nil] at htext
      exact ⟨n, hwf, by simpa using h, htext⟩
    · cases h
  · rintro ⟨n, hwf, hover, rfl⟩
    rw [converts, Numeral.strtod_text hwf]
    simpa using hover

/-! ### The two reads -/

namespace Stream

variable {s : Stream} {c : UInt8} {rest : Str}

theorem sentry_end (hgood : (s.eof || s.fail) = false) (h : s.rest.dropWhile (kind · = .space) = []) :
    s.sentry = (false, { rest := [], eof := true, fail := true }) := by
  rw [sentry, hgood, h]
  rfl

theorem sentry_ready (hgood : (s.eof || s.fail) = false) (h : s.rest.dropWhile (kind · = .space) = c :: rest) :
    s.sentry = (true, { s with rest := c :: rest }) := by
  rw [sentry, hgood, h]
  rfl

/-- The read of a character fails where nothing but white space is left. -/
theorem getChar_fail (hfail : s.fail = false) (heof : s.eof = s.rest.isEmpty) :
    s.getChar.fail = true ↔ ∀ c ∈ s.rest, kind c = .space := by
  cases hrest : s.rest with
  | nil => simp [getChar, sentry, heof, hrest]
  | cons c rest =>
    have hgood : (s.eof || s.fail) = false := by simp [heof, hrest, hfail]
    have hspaces : s.rest.dropWhile (kind · = .space) = [] ↔ ∀ d ∈ c :: rest, kind d = .space := by
      simp [hrest, List.dropWhile_eq_nil_iff]
    rw [← hspaces]
    cases hdrop : s.rest.dropWhile (kind · = .space) with
    | nil => simp [getChar, sentry_end hgood hdrop]
    | cons d rest' => simp [getChar, sentry_ready hgood hdrop, hfail]

theorem getDouble_eq {str : Str} (h : str.dropWhile (kind · = .space) = c :: rest) :
    getDouble { rest := str } = {
      rest := (Munch.munch Accum.step {} (c :: rest)).2
      eof := (Munch.munch Accum.step {} (c :: rest)).2.isEmpty
      fail := !converts (Munch.munch Accum.step {} (c :: rest)).1 } := by
  rw [getDouble, sentry_ready rfl h]

end Stream

namespace StringUtils
open Munch (munch)

/-- Nothing is left of the white space before the numeral, then it is accumulated. -/
theorem isNumber_eq (str : Str) : isNumber str = true ↔
    let read := munch Accum.step {} (str.dropWhile (kind · = .space))
    converts read.1 = true ∧ ∀ c ∈ read.2, kind c = .space := by
  cases hdrop : str.dropWhile (kind · = .space) with
  | nil =>
    have hempty : converts [] = false := rfl
    simp [isNumber, Stream.getDouble, Stream.sentry, hdrop, munch, hempty]
  | cons c rest =>
    simp only [isNumber, Stream.getDouble_eq hdrop]
    generalize munch Accum.step {} (c :: rest) = read
    cases converts read.1 with
    | false => simp
    | true =>
      have hchar := Stream.getChar_fail (s := { rest := read.2, eof := read.2.isEmpty }) rfl rfl
      rw [← hchar]
      simp

/-- What is accumulated of a numeral with white space around it is the numeral. -/
theorem read_numeral {before after : Str} {n : Numeral} (hwf : n.WellFormed) (hbefore : ∀ c ∈ before, kind c = .space)
    (hafter : ∀ c ∈ after, kind c = .space) :
    munch Accum.step {} ((before ++ n.text ++ after).dropWhile (kind · = .space)) = (n.text, after) := by
  have hstop : ∀ c ∈ (n.text ++ after).head?, ¬ decide (kind c = .space) = true := by
    obtain ⟨d, hd, hkind⟩ := n.head?_text hwf
    intro c hc
    rw [List.head?_append, hd] at hc
    cases hc
    simpa using hkind
  have hskip : (before ++ (n.text ++ after)).dropWhile (kind · = .space) = n.text ++ after :=
    Munch.dropWhile_run (fun c hc => decide_eq_true (hbefore c hc)) hstop
  rw [List.append_assoc, hskip, n.accumulates hwf hafter]

/-- White space, a numeral whose value a `double` can hold, white space. -/
def IsNumeral (str : Str) : Prop :=
  ∃ before after : Str, ∃ n : Numeral, n.WellFormed ∧ ¬ n.Overflows ∧
    (∀ c ∈ before, kind c = .space) ∧ (∀ c ∈ after, kind c = .space) ∧ str = before ++ n.text ++ after

theorem isNumber_iff (str : Str) : isNumber str = true ↔ IsNumeral str := by
  rw [isNumber_eq]
  constructor
  · rintro ⟨hconv, hafter⟩
    obtain ⟨n, hwf, hover, htext⟩ := converts_iff.1 hconv
    refine ⟨str.takeWhile (kind · = .space), _, n, hwf, hover, fun c hc => ?_, hafter, ?_⟩
    · simpa using List.mem_takeWhile_imp (p := (kind · = .space)) hc
    · rw [htext, List.append_assoc, Munch.munch_append, List.takeWhile_append_dropWhile]
  · rintro ⟨before, after, n, hwf, hover, hbefore, hafter, rfl⟩
    rw [read_numeral hwf hbefore hafter]
    exact ⟨converts_iff.2 ⟨n, hwf, hover, rfl⟩, hafter⟩

/-- The same where the point, if there is one, has digits after it. -/
def IsStrictNumeral (str : Str) : Prop :=
  ∃ before after : Str, ∃ n : Numeral, n.WellFormed ∧ n.frac ≠ some [] ∧ ¬ n.Overflows ∧
    (∀ c ∈ before, kind c = .space) ∧ (∀ c ∈ after, kind c = .space) ∧ str = before ++ n.text ++ after

/-- The text is `5.`. -/
theorem isNumber_final_point : isNumber [0x35, 0x2E] = true ∧ ¬ IsStrictNumeral [0x35, 0x2E] := by
  constructor
  · have hvalue : Numeral.value ⟨none, [0x35], some [], none⟩ = 5 := by
      simp [Numeral.value, digitsValue, signed, exponentValue]
    have hfloat : Rounding.IsFloat 53 5 := ⟨5, 0, by norm_num, by norm_num⟩
    have hconv : converts [0x35, 0x2E] = true := by
      refine converts_iff.2 ⟨⟨none, [0x35], some [], none⟩, ⟨?_, ?_, ?_, ?_, ?_⟩, ?_, rfl⟩
      · simp
      · simp [Digits]
        decide
      · simp [Digits]
      · simp
      · simp
      · have hpow : (2 : ℚ) ^ 3 ≤ 2 ^ 1024 := pow_le_pow_right₀ one_le_two (by decide)
        rw [Numeral.Overflows, hvalue, hfloat.roundTo_eq, abs_of_pos (by norm_num)]
        exact not_le.2 (lt_of_lt_of_le (by norm_num) hpow)
    have hread : munch Accum.step {} (List.dropWhile (kind · = .space) [0x35, 0x2E]) = ([0x35, 0x2E], []) := rfl
    refine (isNumber_eq _).2 ?_
    rw [hread]
    exact ⟨hconv, by simp⟩
  · rintro ⟨before, after, n, hwf, hfrac, -, hbefore, hafter, hstr⟩
    have hread := read_numeral hwf hbefore hafter
    rw [← hstr] at hread
    have htext : [0x35, 0x2E] = n.text := congrArg Prod.fst hread
    have hnumeral := Numeral.strtod_text hwf
    rw [← htext] at hnumeral
    have heq : some (⟨none, [0x35], some [], none⟩, []) = some (n, []) := hnumeral
    cases heq
    exact hfrac rfl

end StringUtils

end CcTools
