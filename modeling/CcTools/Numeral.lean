import CcTools.Lib.Munch
import CcTools.Lib.Rounding
import CcTools.StringUtils
import Mathlib.Data.List.TakeWhile

/-!
# Decimal numerals

An optional sign, digits and a point, an optional exponent: the texts that `std::strtod` converts in the
classic locale, where they are made of such characters only. It converts the longest numeral at the start
of its input, all of it if the input is a numeral (`strtod_text`).
-/

namespace CcTools

inductive Kind where
  | space | digit | sign | point | mark | other
deriving DecidableEq, Repr

def kind (c : UInt8) : Kind :=
  if c = 0x20 ∨ 0x09 ≤ c ∧ c ≤ 0x0D then .space
  else if 0x30 ≤ c ∧ c ≤ 0x39 then .digit
  else if c = 0x2B ∨ c = 0x2D then .sign
  else if c = 0x2E then .point
  else if c = 0x45 ∨ c = 0x65 then .mark
  else .other

/-- The `e` or `E`, and what follows it. -/
structure Exponent where
  mark : UInt8
  sign : Option UInt8
  digits : Str
deriving DecidableEq, Repr

/-- `frac` is `none` where there is no point. -/
structure Numeral where
  sign : Option UInt8
  whole : Str
  frac : Option Str
  exponent : Option Exponent
deriving DecidableEq, Repr

def fracText : Option Str → Str
  | none => []
  | some digits => 0x2E :: digits

def exponentText : Option Exponent → Str
  | none => []
  | some e => e.mark :: (e.sign.toList ++ e.digits)

def digitsValue (digits : Str) : Nat := digits.foldl (fun v c => 10 * v + (c.toNat - 0x30)) 0

def signed (sign : Option UInt8) (v : ℤ) : ℤ := if sign = some 0x2D then -v else v

def exponentValue : Option Exponent → ℤ
  | none => 0
  | some e => signed e.sign (digitsValue e.digits)

namespace Numeral

def text (n : Numeral) : Str := n.sign.toList ++ (n.whole ++ (fracText n.frac ++ exponentText n.exponent))

def value (n : Numeral) : ℚ :=
  signed n.sign (digitsValue (n.whole ++ n.frac.getD [])) *
    10 ^ (exponentValue n.exponent - (n.frac.getD []).length)

/-- The value, rounded to 53 bits, is beyond the `double` values. -/
def Overflows (n : Numeral) : Prop := 2 ^ 1024 ≤ |Rounding.roundTo 53 n.value|

instance (n : Numeral) : Decidable n.Overflows := inferInstanceAs (Decidable (_ ≤ _))

end Numeral

def Digits (digits : Str) : Prop := ∀ c ∈ digits, kind c = .digit

structure Exponent.WellFormed (e : Exponent) : Prop where
  mark : kind e.mark = .mark
  sign : ∀ c ∈ e.sign, kind c = .sign
  digits : Digits e.digits
  nonempty : e.digits ≠ []

structure Numeral.WellFormed (n : Numeral) : Prop where
  sign : ∀ c ∈ n.sign, kind c = .sign
  whole : Digits n.whole
  frac : Digits (n.frac.getD [])
  mantissa : n.whole ≠ [] ∨ n.frac.getD [] ≠ []
  exponent : ∀ e ∈ n.exponent, e.WellFormed

/-! ### The conversion -/

def takeSign : Str → Option UInt8 × Str
  | [] => (none, [])
  | c :: s => if kind c = .sign then (some c, s) else (none, c :: s)

def takeDigits (s : Str) : Str × Str := (s.takeWhile (kind · = .digit), s.dropWhile (kind · = .digit))

def takeFrac : Str → Option Str × Str
  | [] => (none, [])
  | c :: s => if kind c = .point then (some (takeDigits s).1, (takeDigits s).2) else (none, c :: s)

/-- Without a digit after it, the `e` is not part of the numeral. -/
def takeExponent : Str → Option Exponent × Str
  | [] => (none, [])
  | c :: s =>
    let (sign, s₁) := takeSign s
    let (digits, s₂) := takeDigits s₁
    if kind c = .mark ∧ digits ≠ [] then
      (some { mark := c, sign, digits }, s₂)
    else
      (none, c :: s)

/-- The numeral that is converted, and what is left; `none` if nothing is. -/
def strtod (s : Str) : Option (Numeral × Str) :=
  let (sign, s₁) := takeSign s
  let (whole, s₂) := takeDigits s₁
  let (frac, s₃) := takeFrac s₂
  let (exponent, s₄) := takeExponent s₃
  if whole ≠ [] ∨ frac.getD [] ≠ [] then
    some ({ sign, whole, frac, exponent }, s₄)
  else
    none

/-! ### What is converted is a numeral -/

theorem eq_of_kind_point {c : UInt8} (h : kind c = .point) : c = 0x2E := by
  unfold kind at h
  split_ifs at h with _ _ _ hc
  exact hc

theorem takeSign_spec (s : Str) :
    (takeSign s).1.toList ++ (takeSign s).2 = s ∧ ∀ c ∈ (takeSign s).1, kind c = .sign := by
  cases s with
  | nil => exact ⟨rfl, by simp [takeSign]⟩
  | cons c s =>
    by_cases hc : kind c = .sign
    · simp [takeSign, hc]
    · simp [takeSign, hc]

theorem takeDigits_spec (s : Str) : (takeDigits s).1 ++ (takeDigits s).2 = s ∧ Digits (takeDigits s).1 := by
  refine ⟨List.takeWhile_append_dropWhile, fun c hc => ?_⟩
  have hdigit := List.mem_takeWhile_imp (p := (kind · = .digit)) hc
  simpa using hdigit

theorem takeFrac_spec (s : Str) :
    fracText (takeFrac s).1 ++ (takeFrac s).2 = s ∧ Digits ((takeFrac s).1.getD []) := by
  cases s with
  | nil => exact ⟨rfl, by simp [takeFrac, Digits]⟩
  | cons c s =>
    by_cases hc : kind c = .point
    · obtain ⟨happ, hdigits⟩ := takeDigits_spec s
      obtain rfl := eq_of_kind_point hc
      simp only [takeFrac, hc, ↓reduceIte, fracText, List.cons_append, happ, true_and]
      exact hdigits
    · simp [takeFrac, hc, fracText, Digits]

theorem takeExponent_spec (s : Str) :
    exponentText (takeExponent s).1 ++ (takeExponent s).2 = s ∧ ∀ e ∈ (takeExponent s).1, e.WellFormed := by
  cases s with
  | nil => exact ⟨rfl, by simp [takeExponent]⟩
  | cons c s =>
    obtain ⟨hsign, hsigns⟩ := takeSign_spec s
    obtain ⟨hdigits, halldigits⟩ := takeDigits_spec (takeSign s).2
    by_cases hc : kind c = .mark ∧ (takeDigits (takeSign s).2).1 ≠ []
    · simp only [takeExponent, if_pos hc]
      refine ⟨?_, ?_⟩
      · rw [exponentText, List.cons_append, List.append_assoc, hdigits, hsign]
      · rintro e ⟨⟩
        exact ⟨hc.1, hsigns, halldigits, hc.2⟩
    · simp only [takeExponent, if_neg hc]
      exact ⟨rfl, by simp⟩

theorem strtod_spec {s r : Str} {n : Numeral} (h : strtod s = some (n, r)) : n.text ++ r = s ∧ n.WellFormed := by
  obtain ⟨hsign, hsigns⟩ := takeSign_spec s
  obtain ⟨hwhole, hwholes⟩ := takeDigits_spec (takeSign s).2
  obtain ⟨hfrac, hfracs⟩ := takeFrac_spec (takeDigits (takeSign s).2).2
  obtain ⟨hexp, hexps⟩ := takeExponent_spec (takeFrac (takeDigits (takeSign s).2).2).2
  simp only [strtod] at h
  split_ifs at h with hmantissa
  cases h
  refine ⟨?_, hsigns, hwholes, hfracs, hmantissa, hexps⟩
  simp only [Numeral.text, List.append_assoc, hexp, hfrac, hwhole, hsign]

/-! ### A numeral is converted -/

section
variable {s : Str}

theorem takeSign_run {sign : Option UInt8} (h : ∀ c ∈ sign, kind c = .sign) (hs : ∀ c ∈ s.head?, kind c ≠ .sign) :
    takeSign (sign.toList ++ s) = (sign, s) := by
  cases sign with
  | some c => exact if_pos (h c rfl)
  | none =>
    cases s with
    | nil => rfl
    | cons c s => exact if_neg (hs c rfl)

theorem takeDigits_run {digits : Str} (h : Digits digits) (hs : ∀ c ∈ s.head?, kind c ≠ .digit) :
    takeDigits (digits ++ s) = (digits, s) := by
  have hdigits : ∀ c ∈ digits, decide (kind c = .digit) = true := fun c hc => decide_eq_true (h c hc)
  have hstop : ∀ c ∈ s.head?, ¬ decide (kind c = .digit) = true := fun c hc => by simpa using hs c hc
  rw [takeDigits, Munch.takeWhile_run hdigits hstop, Munch.dropWhile_run hdigits hstop]

theorem takeFrac_run {frac : Option Str} (h : Digits (frac.getD []))
    (hs : ∀ c ∈ s.head?, kind c ≠ .point ∧ kind c ≠ .digit) : takeFrac (fracText frac ++ s) = (frac, s) := by
  cases frac with
  | none =>
    cases s with
    | nil => rfl
    | cons c s => exact if_neg (hs c rfl).1
  | some digits =>
    have hpoint : kind 0x2E = .point := by decide
    have hread : takeDigits (digits ++ s) = (digits, s) := takeDigits_run h fun c hc => (hs c hc).2
    rw [fracText, List.cons_append, takeFrac, if_pos hpoint, hread]

theorem head?_digits {digits : Str} (h : Digits digits) (hne : digits ≠ []) :
    ∃ c, (digits ++ s).head? = some c ∧ kind c = .digit := by
  cases digits with
  | nil => exact absurd rfl hne
  | cons c digits => exact ⟨c, rfl, h c (List.mem_cons_self ..)⟩

theorem takeExponent_run {exponent : Option Exponent} (h : ∀ e ∈ exponent, e.WellFormed) :
    takeExponent (exponentText exponent) = (exponent, []) := by
  cases exponent with
  | none => rfl
  | some e =>
    obtain ⟨hmark, hsign, hdigits, hne⟩ := h e rfl
    have hfirst : ∀ c ∈ e.digits.head?, kind c ≠ .sign := by
      obtain ⟨d, hd, hkind⟩ := head?_digits (s := []) hdigits hne
      rw [List.append_nil] at hd
      rw [hd]
      rintro c ⟨⟩
      rw [hkind]
      decide
    have hread := takeDigits_run (s := []) hdigits (by simp)
    rw [List.append_nil] at hread
    simp only [exponentText, takeExponent, takeSign_run hsign hfirst, hread]
    exact if_pos ⟨hmark, hne⟩

theorem kind_head?_exponentText {exponent : Option Exponent} (h : ∀ e ∈ exponent, e.WellFormed) :
    ∀ c ∈ (exponentText exponent).head?, kind c = .mark := by
  cases exponent with
  | none => simp [exponentText]
  | some e =>
    rintro c ⟨⟩
    exact (h e rfl).mark

end

namespace Numeral
variable {n : Numeral}

theorem kind_head?_tail (h : n.WellFormed) :
    ∀ c ∈ (fracText n.frac ++ exponentText n.exponent).head?, kind c = .point ∨ kind c = .mark := by
  cases hfrac : n.frac with
  | none => exact fun c hc => .inr (kind_head?_exponentText h.exponent c hc)
  | some digits =>
    rintro c ⟨⟩
    exact .inl (by decide)

/-- Without its sign a numeral starts with a digit or the point. -/
theorem kind_head?_body (h : n.WellFormed) :
    ∃ c, (n.whole ++ (fracText n.frac ++ exponentText n.exponent)).head? = some c ∧
      (kind c = .digit ∨ kind c = .point) := by
  by_cases hwhole : n.whole = []
  · obtain ⟨digits, hfrac⟩ : ∃ digits, n.frac = some digits := by
      rcases h.mantissa with hne | hne
      · exact absurd hwhole hne
      · cases hfrac : n.frac with
        | none => simp [hfrac] at hne
        | some digits => exact ⟨digits, rfl⟩
    rw [hwhole, hfrac]
    exact ⟨0x2E, rfl, .inr (by decide)⟩
  · obtain ⟨c, hc, hkind⟩ := head?_digits h.whole hwhole
    exact ⟨c, hc, .inl hkind⟩

theorem strtod_text (h : n.WellFormed) : strtod n.text = some (n, []) := by
  have hexp := kind_head?_exponentText h.exponent
  have htail := kind_head?_tail h
  have hsign := takeSign_run h.sign (s := n.whole ++ (fracText n.frac ++ exponentText n.exponent)) fun c hc => by
    obtain ⟨d, hd, hkind⟩ := kind_head?_body h
    obtain rfl : d = c := Option.some.inj (hd.symm.trans hc)
    rcases hkind with hkind | hkind <;> rw [hkind] <;> decide
  have hwhole := takeDigits_run h.whole fun c hc => by
    rcases htail c hc with hkind | hkind <;> rw [hkind] <;> decide
  have hfrac := takeFrac_run h.frac fun c hc => by
    rw [hexp c hc]
    decide
  simp only [strtod, text, hsign, hwhole, hfrac, takeExponent_run h.exponent]
  exact if_pos h.mantissa

end Numeral

end CcTools
