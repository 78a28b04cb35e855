import Mathlib.Algebra.Order.BigOperators.Group.List
import Mathlib.Data.Int.Log
import Mathlib.Data.Rat.Floor
import Mathlib.Tactic.FieldSimp
import Mathlib.Tactic.Linarith
import Mathlib.Tactic.Positivity
import Mathlib.Tactic.Ring

/-!
# Rounding to `p` significant bits

`roundTo p x` is the rational `x` rounded to the nearest number with `p` significant bits, ties to even,
with no bound on the exponent; `IsFloat p` are the numbers it yields and fixes. The proofs need no more
than this: rounding is monotone, odd, nearest, and its error is at most half the unit in the last place.
-/

namespace Rounding

/-- The nearest integer; of two that are equally near, the even one. -/
def roundEven (x : ℚ) : ℤ :=
  let up := ⌊x + 1 / 2⌋
  if up = x + 1 / 2 ∧ up % 2 = 1 then up - 1 else up

section
variable {x y : ℚ} {k : ℤ}

theorem roundEven_midpoint (k : ℤ) : roundEven (k + 1 / 2) = k + k % 2 := by
  have hsum : (k : ℚ) + 1 / 2 + 1 / 2 = ((k + 1 : ℤ) : ℚ) := by
    push_cast
    ring
  simp only [roundEven, hsum, Int.floor_intCast, true_and]
  split_ifs <;> omega

/-- A number lies half way between two integers, or its rounding is nearer than that. -/
theorem midpoint_or_near (x : ℚ) : (∃ k : ℤ, x = k + 1 / 2) ∨ |x - roundEven x| < 1 / 2 := by
  by_cases htie : (⌊x + 1 / 2⌋ : ℚ) = x + 1 / 2
  · refine .inl ⟨⌊x + 1 / 2⌋ - 1, ?_⟩
    push_cast
    linarith
  · have hlo : (⌊x + 1 / 2⌋ : ℚ) < x + 1 / 2 := lt_of_le_of_ne (Int.floor_le _) htie
    have hhi := Int.lt_floor_add_one (x + 1 / 2)
    have heq : roundEven x = ⌊x + 1 / 2⌋ := if_neg fun h => htie h.1
    rw [heq, abs_lt]
    exact .inr ⟨by linarith, by linarith⟩

theorem abs_roundEven_sub_le (x : ℚ) : |(roundEven x : ℚ) - x| ≤ 1 / 2 := by
  rcases midpoint_or_near x with ⟨k, rfl⟩ | h
  · rw [roundEven_midpoint, abs_le]
    rcases Int.emod_two_eq_zero_or_one k with hk | hk <;> rw [hk] <;> push_cast <;> constructor <;> linarith
  · rw [abs_sub_comm]
    exact h.le

theorem le_roundEven_add (x : ℚ) : x ≤ roundEven x + 1 / 2 := by
  have := (abs_le.1 (abs_roundEven_sub_le x)).1
  linarith

theorem roundEven_le_add (x : ℚ) : roundEven x ≤ x + 1 / 2 := by
  have := (abs_le.1 (abs_roundEven_sub_le x)).2
  linarith

theorem roundEven_mono (h : x ≤ y) : roundEven x ≤ roundEven y := by
  by_contra hlt
  have hstep : (roundEven y : ℚ) + 1 ≤ roundEven x := by exact_mod_cast Int.not_le.1 hlt
  have hx := roundEven_le_add x
  have hy := le_roundEven_add y
  obtain rfl : x = y := by linarith
  exact hlt le_rfl

theorem roundEven_eq_of_abs_lt (h : |x - k| < 1 / 2) : roundEven x = k := by
  obtain ⟨hlo, hhi⟩ := abs_lt.1 h
  have hx := roundEven_le_add x
  have hx' := le_roundEven_add x
  have h1 : (roundEven x : ℚ) < k + 1 := by linarith
  have h2 : (k : ℚ) < roundEven x + 1 := by linarith
  have h1' : roundEven x < k + 1 := by exact_mod_cast h1
  have h2' : k < roundEven x + 1 := by exact_mod_cast h2
  omega

@[simp] theorem roundEven_intCast (k : ℤ) : roundEven k = k := roundEven_eq_of_abs_lt (by simp)

@[simp] theorem roundEven_zero : roundEven 0 = 0 := by simpa using roundEven_intCast 0

theorem roundEven_neg (x : ℚ) : roundEven (-x) = -roundEven x := by
  rcases midpoint_or_near x with ⟨k, rfl⟩ | h
  · have hneg : -((k : ℚ) + 1 / 2) = ((-k - 1 : ℤ) : ℚ) + 1 / 2 := by
      push_cast
      ring
    rw [hneg, roundEven_midpoint, roundEven_midpoint]
    omega
  · apply roundEven_eq_of_abs_lt
    rw [← abs_neg]
    convert h using 2
    push_cast
    ring

/-- No integer is nearer. -/
theorem abs_roundEven_sub_le_abs (x : ℚ) (k : ℤ) : |(roundEven x : ℚ) - x| ≤ |(k : ℚ) - x| := by
  rcases lt_or_ge |(k : ℚ) - x| (1 / 2) with h | h
  · rw [roundEven_eq_of_abs_lt (by rwa [abs_sub_comm] at h)]
  · exact (abs_roundEven_sub_le x).trans h

end

/-- The unit in the last of the `p` places of `x`. -/
def ulp (p : ℕ) (x : ℚ) : ℚ := 2 ^ (Int.log 2 |x| + 1 - p)

def roundTo (p : ℕ) (x : ℚ) : ℚ := roundEven (x / ulp p x) * ulp p x

def IsFloat (p : ℕ) (x : ℚ) : Prop := ∃ m e : ℤ, |m| ≤ 2 ^ p ∧ x = m * 2 ^ e

section
variable {p : ℕ} {x y f : ℚ} {k : ℤ}

theorem ulp_pos (p : ℕ) (x : ℚ) : 0 < ulp p x := by
  exact zpow_pos two_pos _

@[simp] theorem ulp_neg (p : ℕ) (x : ℚ) : ulp p (-x) = ulp p x := by
  rw [ulp, ulp, abs_neg]

theorem zpow_log_le (hx : x ≠ 0) : (2 : ℚ) ^ Int.log 2 |x| ≤ |x| := by
  exact_mod_cast Int.zpow_log_le_self (by decide) (abs_pos.2 hx)

theorem lt_zpow_log_succ (x : ℚ) : |x| < (2 : ℚ) ^ (Int.log 2 |x| + 1) := by
  exact_mod_cast Int.lt_zpow_succ_log_self (by decide) |x|

theorem ulp_mul (p : ℕ) (x : ℚ) : 2 ^ p * ulp p x = 2 ^ (Int.log 2 |x| + 1) := by
  rw [ulp, ← zpow_natCast, ← zpow_add₀ two_ne_zero]
  congr 1
  omega

theorem abs_div_ulp_lt (p : ℕ) (x : ℚ) : |x / ulp p x| < 2 ^ p := by
  rw [abs_div, abs_of_pos (ulp_pos p x), div_lt_iff₀ (ulp_pos p x), ulp_mul]
  exact lt_zpow_log_succ x

@[simp] theorem roundTo_zero (p : ℕ) : roundTo p 0 = 0 := by simp [roundTo]

theorem roundTo_neg (p : ℕ) (x : ℚ) : roundTo p (-x) = -roundTo p x := by
  rw [roundTo, ulp_neg, neg_div, roundEven_neg, roundTo]
  push_cast
  ring

theorem abs_mul_ulp_sub (p : ℕ) (x : ℚ) (k : ℤ) : |k * ulp p x - x| = |(k : ℚ) - x / ulp p x| * ulp p x := by
  have hpos := ulp_pos p x
  rw [← abs_of_pos hpos, ← abs_mul, abs_of_pos hpos]
  congr 1
  field_simp

theorem abs_roundTo_sub_le (p : ℕ) (x : ℚ) : |roundTo p x - x| ≤ ulp p x / 2 := by
  have h := mul_le_mul_of_nonneg_right (abs_roundEven_sub_le (x / ulp p x)) (ulp_pos p x).le
  rw [roundTo, abs_mul_ulp_sub]
  linarith

theorem roundTo_nonneg (h : 0 ≤ x) : 0 ≤ roundTo p x := by
  have hpos := ulp_pos p x
  have hround : roundEven 0 ≤ roundEven (x / ulp p x) := roundEven_mono (div_nonneg h hpos.le)
  rw [roundEven_zero] at hround
  exact mul_nonneg (by exact_mod_cast hround) hpos.le

theorem roundTo_nonpos (h : x ≤ 0) : roundTo p x ≤ 0 := by
  have hneg : 0 ≤ roundTo p (-x) := roundTo_nonneg (neg_nonneg.2 h)
  rw [roundTo_neg] at hneg
  linarith

/-! ### The numbers with `p` bits -/

theorem isFloat_intCast {n : ℤ} (h : |n| ≤ 2 ^ p) : IsFloat p n := ⟨n, 0, h, by simp⟩

theorem isFloat_natCast {n : ℕ} (h : n ≤ 2 ^ p) : IsFloat p n := by
  have hn : IsFloat p (n : ℤ) := isFloat_intCast (by rw [Nat.abs_cast]; exact_mod_cast h)
  exact_mod_cast hn

theorem isFloat_zero : IsFloat p 0 := ⟨0, 0, by simp, by simp⟩

theorem isFloat_zpow (p : ℕ) (k : ℤ) : IsFloat p (2 ^ k) := ⟨1, k, by simpa using one_le_pow₀ one_le_two, by simp⟩

theorem IsFloat.neg (h : IsFloat p x) : IsFloat p (-x) := by
  obtain ⟨m, e, hm, rfl⟩ := h
  exact ⟨-m, e, by rwa [abs_neg], by push_cast; ring⟩

theorem isFloat_roundTo (p : ℕ) (x : ℚ) : IsFloat p (roundTo p x) := by
  refine ⟨roundEven (x / ulp p x), _, ?_, rfl⟩
  have hlt := abs_lt.1 (abs_div_ulp_lt p x)
  have hlo : roundEven ((-2 ^ p : ℤ) : ℚ) ≤ roundEven (x / ulp p x) :=
    roundEven_mono (by push_cast; exact hlt.1.le)
  have hhi : roundEven (x / ulp p x) ≤ roundEven ((2 ^ p : ℤ) : ℚ) :=
    roundEven_mono (by push_cast; exact hlt.2.le)
  rw [roundEven_intCast] at hlo hhi
  exact abs_le.2 ⟨hlo, hhi⟩

theorem zpow_eq_mul (i j : ℤ) (h : j ≤ i) : (2 : ℚ) ^ i = ((2 ^ (i - j).toNat : ℤ) : ℚ) * 2 ^ j := by
  push_cast
  rw [← zpow_natCast, Int.toNat_of_nonneg (by omega), ← zpow_add₀ two_ne_zero]
  congr 1
  omega

theorem zpow_log_eq_mul_ulp [NeZero p] (x : ℚ) :
    (2 : ℚ) ^ Int.log 2 |x| = ((2 ^ (p - 1) : ℤ) : ℚ) * ulp p x := by
  have hp : 0 < p := Nat.pos_of_ne_zero (NeZero.ne p)
  rw [ulp, zpow_eq_mul (Int.log 2 |x|) (Int.log 2 |x| + 1 - p) (by omega)]
  congr 4
  omega

/-- From `2 ^ k` on, numbers with `p` bits are multiples of `2 ^ (k + 1 - p)`. -/
theorem IsFloat.exists_mul [NeZero p] (hf : IsFloat p f) (hk : (2 : ℚ) ^ k ≤ |f|) :
    ∃ n : ℤ, f = n * 2 ^ (k + 1 - p) := by
  obtain ⟨m, e, hm, rfl⟩ := hf
  have hp : 0 < p := Nat.pos_of_ne_zero (NeZero.ne p)
  rcases le_or_gt (k + 1 - p) e with he | he
  · exact ⟨m * 2 ^ (e - (k + 1 - p)).toNat, by rw [zpow_eq_mul e _ he]; push_cast; ring⟩
  · -- the exponent is so small that only `|m| = 2 ^ p` reaches `2 ^ k`
    have hpos : (0 : ℚ) < 2 ^ e := zpow_pos two_pos e
    have hmq : |(m : ℚ)| ≤ 2 ^ p := by exact_mod_cast hm
    have hle : (2 : ℚ) ^ k ≤ 2 ^ ((p : ℤ) + e) := by
      rw [zpow_add₀ two_ne_zero, zpow_natCast]
      calc
        (2 : ℚ) ^ k ≤ |(m : ℚ) * 2 ^ e| := hk
        _ = |(m : ℚ)| * 2 ^ e := by rw [abs_mul, abs_of_pos hpos]
        _ ≤ 2 ^ p * 2 ^ e := mul_le_mul_of_nonneg_right hmq hpos.le
    have hke : k = p + e := le_antisymm ((zpow_le_zpow_iff_right₀ one_lt_two).1 hle) (by omega)
    have habs : |m| = 2 ^ p := by
      refine le_antisymm hm ?_
      rw [hke, abs_mul, abs_of_pos hpos, zpow_add₀ two_ne_zero, zpow_natCast] at hk
      exact_mod_cast le_of_mul_le_mul_right hk hpos
    have hsplit : (2 : ℚ) ^ p = 2 ^ (p - 1) * 2 := by rw [← pow_succ]; congr 1; omega
    have hnext : (2 : ℚ) ^ (k + 1 - p) = 2 * 2 ^ e := by
      rw [hke, show (p : ℤ) + e + 1 - p = 1 + e by ring, zpow_add₀ two_ne_zero, zpow_one]
    rcases abs_eq (by positivity) |>.1 habs with rfl | rfl
    · exact ⟨2 ^ (p - 1), by rw [hnext]; push_cast; rw [hsplit]; ring⟩
    · exact ⟨-2 ^ (p - 1), by rw [hnext]; push_cast; rw [hsplit]; ring⟩

theorem IsFloat.roundTo_eq [NeZero p] (hf : IsFloat p f) : roundTo p f = f := by
  by_cases h0 : f = 0
  · rw [h0, roundTo_zero]
  · obtain ⟨n, hn⟩ := hf.exists_mul (zpow_log_le h0)
    have hdiv : f / ulp p f = n := by
      rw [div_eq_iff (ulp_pos p f).ne']
      exact hn
    rw [roundTo, hdiv, roundEven_intCast, ← hdiv, div_mul_cancel₀ _ (ulp_pos p f).ne']

/-! ### Monotonicity -/

theorem zpow_log_le_roundTo [NeZero p] (h : 0 < x) : (2 : ℚ) ^ Int.log 2 |x| ≤ roundTo p x := by
  have hpos := ulp_pos p x
  have hle : ((2 ^ (p - 1) : ℤ) : ℚ) ≤ x / ulp p x := by
    rw [le_div_iff₀ hpos, ← zpow_log_eq_mul_ulp (p := p)]
    exact (zpow_log_le h.ne').trans_eq (abs_of_pos h)
  have hround := roundEven_mono hle
  rw [roundEven_intCast] at hround
  rw [zpow_log_eq_mul_ulp (p := p), roundTo]
  exact mul_le_mul_of_nonneg_right (by exact_mod_cast hround) hpos.le

theorem roundTo_le_zpow_log (p : ℕ) (x : ℚ) : roundTo p x ≤ 2 ^ (Int.log 2 |x| + 1) := by
  have hle : x / ulp p x ≤ ((2 ^ p : ℤ) : ℚ) := by
    push_cast
    exact (abs_lt.1 (abs_div_ulp_lt p x)).2.le
  have hround := roundEven_mono hle
  rw [roundEven_intCast] at hround
  have hroundq : (roundEven (x / ulp p x) : ℚ) ≤ 2 ^ p := by exact_mod_cast hround
  rw [← ulp_mul p x, roundTo]
  exact mul_le_mul_of_nonneg_right hroundq (ulp_pos p x).le

theorem roundTo_le_of_pos [NeZero p] (hx : 0 < x) (h : x ≤ y) : roundTo p x ≤ roundTo p y := by
  have hy : 0 < y := hx.trans_le h
  have hlog : Int.log 2 |x| ≤ Int.log 2 |y| := by
    rw [abs_of_pos hx, abs_of_pos hy]
    exact Int.log_mono_right hx h
  rcases hlog.lt_or_eq with hlt | heq
  · -- a power of two lies between them
    calc
      roundTo p x ≤ 2 ^ (Int.log 2 |x| + 1) := roundTo_le_zpow_log p x
      _ ≤ 2 ^ Int.log 2 |y| := zpow_le_zpow_right₀ one_le_two (by omega)
      _ ≤ roundTo p y := zpow_log_le_roundTo hy
  · have hulp : ulp p x = ulp p y := by rw [ulp, ulp, heq]
    have hpos := ulp_pos p y
    rw [roundTo, roundTo, hulp]
    refine mul_le_mul_of_nonneg_right ?_ hpos.le
    exact_mod_cast roundEven_mono (div_le_div_of_nonneg_right h hpos.le)

theorem roundTo_mono (p : ℕ) [NeZero p] : Monotone (roundTo p) := by
  intro x y h
  rcases lt_or_ge 0 x with hx | hx
  · exact roundTo_le_of_pos hx h
  · rcases lt_or_ge y 0 with hy | hy
    · have hneg : roundTo p (-y) ≤ roundTo p (-x) := roundTo_le_of_pos (by linarith) (by linarith)
      rw [roundTo_neg, roundTo_neg] at hneg
      linarith
    · exact (roundTo_nonpos hx).trans (roundTo_nonneg hy)

/-- Rounding does not cross a number that has `p` bits. -/
theorem IsFloat.roundTo_le [NeZero p] (hf : IsFloat p f) (h : x ≤ f) : roundTo p x ≤ f :=
  (roundTo_mono p h).trans_eq hf.roundTo_eq

theorem IsFloat.le_roundTo [NeZero p] (hf : IsFloat p f) (h : f ≤ x) : f ≤ roundTo p x :=
  hf.roundTo_eq.symm.trans_le (roundTo_mono p h)

theorem roundTo_pos [NeZero p] (h : 0 < x) : 0 < roundTo p x :=
  lt_of_lt_of_le (zpow_pos two_pos _) (zpow_log_le_roundTo h)

theorem roundTo_eq_zero [NeZero p] : roundTo p x = 0 ↔ x = 0 := by
  constructor
  · intro h
    by_contra hne
    rcases lt_or_gt_of_ne hne with hlt | hgt
    · have hneg := roundTo_pos (p := p) (neg_pos.2 hlt)
      rw [roundTo_neg, h, neg_zero] at hneg
      exact lt_irrefl _ hneg
    · exact (roundTo_pos hgt).ne' h
  · rintro rfl
    exact roundTo_zero p

/-! ### The error -/

theorem log_zpow_mul (k : ℤ) {r : ℚ} (hr : 0 < r) : Int.log 2 (2 ^ k * r) = k + Int.log 2 r := by
  have hk : (0 : ℚ) < 2 ^ k := zpow_pos two_pos k
  refine eq_of_forall_le_iff fun z => ?_
  rw [← Int.zpow_le_iff_le_log one_lt_two (mul_pos hk hr), ← sub_le_iff_le_add',
    ← Int.zpow_le_iff_le_log one_lt_two hr]
  push_cast
  rw [zpow_sub₀ two_ne_zero, div_le_iff₀ hk, mul_comm]

/-- Without a bound on the exponent, rounding commutes with the powers of two. -/
theorem roundTo_zpow_mul (p : ℕ) (k : ℤ) (x : ℚ) : roundTo p (2 ^ k * x) = 2 ^ k * roundTo p x := by
  have hk : (0 : ℚ) < 2 ^ k := zpow_pos two_pos k
  rcases eq_or_ne x 0 with rfl | hx
  · rw [mul_zero, roundTo_zero, mul_zero]
  have hulp : ulp p (2 ^ k * x) = 2 ^ k * ulp p x := by
    rw [ulp, ulp, abs_mul, abs_of_pos hk, log_zpow_mul k (abs_pos.2 hx), ← zpow_add₀ two_ne_zero]
    congr 1
    ring
  rw [roundTo, roundTo, hulp, mul_div_mul_left _ _ hk.ne']
  ring

theorem abs_roundTo_sub_le_of_lt (h : |x| < 2 ^ (k + 1)) : |roundTo p x - x| ≤ 2 ^ (k - p) := by
  by_cases h0 : x = 0
  · rw [h0, roundTo_zero, sub_zero, abs_zero]
    exact (zpow_pos two_pos _).le
  · have hlog : Int.log 2 |x| < k + 1 :=
      (Int.lt_zpow_iff_log_lt (by decide) (abs_pos.2 h0)).1 (by exact_mod_cast h)
    have hhalf : ulp p x / 2 = 2 ^ (Int.log 2 |x| - p) := by
      rw [ulp, show Int.log 2 |x| + 1 - (p : ℤ) = Int.log 2 |x| - p + 1 by ring, zpow_add_one₀ two_ne_zero]
      ring
    refine (abs_roundTo_sub_le p x).trans ?_
    rw [hhalf]
    exact zpow_le_zpow_right₀ one_le_two (by omega)

theorem abs_roundTo_sub_le_mul (p : ℕ) (x : ℚ) : |roundTo p x - x| ≤ |x| * 2 ^ (-p : ℤ) := by
  by_cases h0 : x = 0
  · simp [h0]
  · have h : |roundTo p x - x| ≤ 2 ^ (Int.log 2 |x| - p : ℤ) := abs_roundTo_sub_le_of_lt (lt_zpow_log_succ x)
    have hsplit : (2 : ℚ) ^ (Int.log 2 |x| - p : ℤ) = 2 ^ Int.log 2 |x| * 2 ^ (-p : ℤ) := by
      rw [← zpow_add₀ two_ne_zero, sub_eq_add_neg]
    rw [hsplit] at h
    exact h.trans (mul_le_mul_of_nonneg_right (zpow_log_le h0) (zpow_pos two_pos _).le)

theorem one_sub_mul_le_roundTo (h : 0 ≤ x) : (1 - 2 ^ (-p : ℤ)) * x ≤ roundTo p x := by
  have herr := (abs_le.1 (abs_roundTo_sub_le_mul p x)).1
  rw [abs_of_nonneg h] at herr
  linarith

theorem roundTo_le_one_add_mul (h : 0 ≤ x) : roundTo p x ≤ (1 + 2 ^ (-p : ℤ)) * x := by
  have herr := (abs_le.1 (abs_roundTo_sub_le_mul p x)).2
  rw [abs_of_nonneg h] at herr
  linarith

theorem abs_roundTo_sub_le_abs_mul (x : ℚ) (n : ℤ) : |roundTo p x - x| ≤ |n * ulp p x - x| := by
  rw [roundTo, abs_mul_ulp_sub, abs_mul_ulp_sub]
  exact mul_le_mul_of_nonneg_right (abs_roundEven_sub_le_abs _ n) (ulp_pos p x).le

/-- No number with `p` bits is nearer. -/
theorem abs_roundTo_sub_le_abs [NeZero p] (hf : IsFloat p f) (x : ℚ) : |roundTo p x - x| ≤ |f - x| := by
  have hpos : ∀ {x f : ℚ}, IsFloat p f → 0 < x → |roundTo p x - x| ≤ |f - x| := by
    intro x f hf hx
    rcases le_or_gt ((2 : ℚ) ^ Int.log 2 |x|) |f| with hk | hk
    · obtain ⟨n, hn⟩ := hf.exists_mul hk
      rw [hn]
      exact abs_roundTo_sub_le_abs_mul x n
    · have hlog : (2 : ℚ) ^ Int.log 2 |x| ≤ x := (zpow_log_le hx.ne').trans_eq (abs_of_pos hx)
      have hfx : f < 2 ^ Int.log 2 |x| := (le_abs_self f).trans_lt hk
      have hnear := abs_roundTo_sub_le_abs_mul (p := p) x (2 ^ (p - 1))
      rw [← zpow_log_eq_mul_ulp, abs_of_nonpos (sub_nonpos.2 hlog)] at hnear
      rw [abs_of_neg (by linarith : f - x < 0)]
      linarith
  rcases lt_trichotomy x 0 with hx | rfl | hx
  · have h := hpos hf.neg (neg_pos.2 hx)
    have hround : roundTo p (-x) - -x = -(roundTo p x - x) := by
      rw [roundTo_neg]
      ring
    have hf' : -f - -x = -(f - x) := by ring
    rwa [hround, hf', abs_neg, abs_neg] at h
  · rw [roundTo_zero, sub_zero, abs_zero]
    exact abs_nonneg _
  · exact hpos hf hx

/-- From `2 ^ k` on, two numbers with `p` bits are at least `2 ^ (k + 1 - p)` apart. -/
theorem IsFloat.add_le_of_lt [NeZero p] {g : ℚ} (hf : IsFloat p f) (hg : IsFloat p g) (hkf : (2 : ℚ) ^ k ≤ |f|)
    (hkg : (2 : ℚ) ^ k ≤ |g|) (hlt : f < g) : f + 2 ^ (k + 1 - p) ≤ g := by
  obtain ⟨m, hm⟩ := hf.exists_mul hkf
  obtain ⟨n, hn⟩ := hg.exists_mul hkg
  have hpos : (0 : ℚ) < 2 ^ (k + 1 - p : ℤ) := zpow_pos two_pos _
  have hmn : (m : ℚ) < n := by
    rw [hm, hn] at hlt
    exact lt_of_mul_lt_mul_right hlt hpos.le
  have hstep : (m : ℚ) + 1 ≤ n := by exact_mod_cast hmn
  have hmul := mul_le_mul_of_nonneg_right hstep hpos.le
  rw [hm, hn]
  linarith

/-! ### Natural numbers -/

theorem roundEven_le_iff {t : ℚ} (k : ℤ) (h0 : 0 ≤ t) (h1 : t < 1) :
    (roundEven (k + t) : ℚ) ≤ k + t ↔ t < 1 / 2 ∨ t = 1 / 2 ∧ k % 2 = 0 := by
  rcases lt_trichotomy t (1 / 2) with ht | rfl | ht
  · have hround : roundEven (k + t) = k := by
      apply roundEven_eq_of_abs_lt
      rw [add_sub_cancel_left, abs_of_nonneg h0]
      exact ht
    rw [hround]
    exact iff_of_true (by linarith) (.inl ht)
  · rw [roundEven_midpoint]
    rcases Int.emod_two_eq_zero_or_one k with hk | hk
    · refine iff_of_true ?_ (.inr ⟨rfl, hk⟩)
      rw [hk]
      push_cast
      linarith
    · refine iff_of_false ?_ ?_
      · rw [hk]
        push_cast
        linarith
      · rintro (h | ⟨-, h⟩)
        · exact lt_irrefl _ h
        · omega
  · have hround : roundEven (k + t) = k + 1 := by
      apply roundEven_eq_of_abs_lt
      push_cast
      rw [abs_of_neg (by linarith)]
      linarith
    rw [hround]
    push_cast
    refine iff_of_false (by linarith) ?_
    rintro (h | ⟨h, -⟩) <;> linarith

/-- What `roundTo p` cuts off `n`, in units of the last place: less than half of one, or half after an
even number. -/
def RoundsDown (p n : ℕ) : Prop :=
  let q := 2 ^ (Nat.log 2 n + 1 - p)
  2 * (n % q) < q ∨ 2 * (n % q) = q ∧ n / q % 2 = 0

instance (p n : ℕ) : Decidable (RoundsDown p n) := inferInstanceAs (Decidable (_ ∨ _))

theorem roundTo_natCast [NeZero p] (n : ℕ) (h : Nat.log 2 n + 1 ≤ p) : roundTo p n = n := by
  have hlt : n < 2 ^ (Nat.log 2 n + 1) := Nat.lt_pow_succ_log_self (by decide) n
  exact (isFloat_natCast (hlt.le.trans (Nat.pow_le_pow_right (by decide) h))).roundTo_eq

theorem ulp_natCast {n : ℕ} (h : p < Nat.log 2 n + 1) : ulp p n = ((2 ^ (Nat.log 2 n + 1 - p) : ℕ) : ℚ) := by
  rw [ulp, Nat.abs_cast, Int.log_natCast, Nat.cast_pow, ← zpow_natCast]
  congr 1
  omega

/-- The natural number `n` as a multiple of its unit in the last place. -/
theorem div_ulp_natCast {n : ℕ} (h : p < Nat.log 2 n + 1) :
    (n : ℚ) / ulp p n = ((n / 2 ^ (Nat.log 2 n + 1 - p) : ℕ) : ℤ) +
      ((n % 2 ^ (Nat.log 2 n + 1 - p) : ℕ) : ℚ) / ulp p n := by
  have hpos := ulp_pos p n
  have hdiv : (n : ℚ) = (n / 2 ^ (Nat.log 2 n + 1 - p) : ℕ) * ulp p n + (n % 2 ^ (Nat.log 2 n + 1 - p) : ℕ) := by
    rw [ulp_natCast h]
    exact_mod_cast (Nat.div_add_mod' n _).symm
  rw [div_eq_iff hpos.ne', add_mul, div_mul_cancel₀ _ hpos.ne']
  exact_mod_cast hdiv

theorem roundTo_natCast_le_iff [NeZero p] (n : ℕ) : roundTo p n ≤ n ↔ RoundsDown p n := by
  rcases Nat.lt_or_ge p (Nat.log 2 n + 1) with h | h
  · have hpos := ulp_pos p n
    have hq := ulp_natCast h
    have hmod : ((n % 2 ^ (Nat.log 2 n + 1 - p) : ℕ) : ℚ) < ulp p n := by
      rw [hq]
      exact_mod_cast Nat.mod_lt n (Nat.two_pow_pos _)
    have hround : roundTo p n ≤ n ↔ (roundEven (n / ulp p n) : ℚ) ≤ n / ulp p n := by
      rw [roundTo, le_div_iff₀ hpos]
    rw [hround, div_ulp_natCast h, roundEven_le_iff _ (div_nonneg (Nat.cast_nonneg _) hpos.le)
      ((div_lt_one hpos).2 hmod), div_lt_iff₀ hpos, div_eq_iff hpos.ne', hq, RoundsDown]
    have hlt : ∀ a b : ℕ, (a : ℚ) < 1 / 2 * b ↔ 2 * a < b := by
      intro a b
      rw [← @Nat.cast_lt ℚ]
      push_cast
      constructor <;> intro h <;> linarith
    have heq : ∀ a b : ℕ, (a : ℚ) = 1 / 2 * b ↔ 2 * a = b := by
      intro a b
      rw [← @Nat.cast_inj ℚ]
      push_cast
      constructor <;> intro h <;> linarith
    rw [hlt, heq]
    exact or_congr Iff.rfl (and_congr Iff.rfl (by omega))
  · rw [roundTo_natCast n h, RoundsDown, Nat.sub_eq_zero_of_le h, pow_zero, Nat.mod_one]
    exact iff_of_true le_rfl (.inl (by decide))

theorem exists_roundTo_natCast [NeZero p] (n : ℕ) : ∃ m : ℕ, roundTo p n = m := by
  rcases Nat.lt_or_ge p (Nat.log 2 n + 1) with h | h
  · have hnonneg : 0 ≤ roundEven (n / ulp p n) := by
      have hround := roundEven_mono (div_nonneg (Nat.cast_nonneg n : (0 : ℚ) ≤ n) (ulp_pos p n).le)
      rwa [roundEven_zero] at hround
    refine ⟨(roundEven (n / ulp p n)).toNat * 2 ^ (Nat.log 2 n + 1 - p), ?_⟩
    rw [Nat.cast_mul, ← ulp_natCast h, roundTo]
    congr 1
    exact_mod_cast (Int.toNat_of_nonneg hnonneg).symm
  · exact ⟨n, roundTo_natCast n h⟩

/-- Half a unit below 1 is a tie, and 1 is the even one. -/
theorem roundTo_one_sub [NeZero p] : roundTo p (1 - 2 ^ (-1 - p : ℤ)) = 1 := by
  have hp : 1 ≤ p := Nat.pos_of_ne_zero (NeZero.ne p)
  have he : (0 : ℚ) < 2 ^ (-1 - p : ℤ) := zpow_pos two_pos _
  have hquarter : (2 : ℚ) ^ (-1 - p : ℤ) ≤ 2 ^ (-2 : ℤ) := zpow_le_zpow_right₀ one_le_two (by omega)
  have hpos : (0 : ℚ) < 1 - 2 ^ (-1 - p : ℤ) := by
    norm_num at hquarter ⊢
    linarith
  have hlog : Int.log 2 |1 - (2 : ℚ) ^ (-1 - p : ℤ)| = -1 := by
    rw [abs_of_pos hpos]
    refine le_antisymm (Int.lt_add_one_iff.1 ((Int.lt_zpow_iff_log_lt one_lt_two hpos).1 ?_))
      ((Int.zpow_le_iff_le_log one_lt_two hpos).1 ?_)
    · simpa using he
    · norm_num at hquarter ⊢
      linarith
  have hulp : ulp p (1 - 2 ^ (-1 - p : ℤ)) = 2 ^ (-p : ℤ) := by
    rw [ulp, hlog]
    congr 1
    ring
  have hdiv : (1 - (2 : ℚ) ^ (-1 - p : ℤ)) / 2 ^ (-p : ℤ) = ((2 ^ p - 1 : ℤ) : ℚ) + 1 / 2 := by
    rw [sub_div, ← zpow_sub₀ two_ne_zero, one_div, zpow_neg, inv_inv, zpow_natCast]
    push_cast
    rw [show (-1 - p : ℤ) - -p = -1 by ring]
    norm_num
    ring
  have hodd : ((2 : ℤ) ^ p - 1) % 2 = 1 := by
    obtain ⟨q, rfl⟩ := Nat.exists_eq_add_of_le' hp
    rw [pow_succ]
    omega
  rw [roundTo, hulp, hdiv, roundEven_midpoint, hodd, sub_add_cancel, zpow_neg, zpow_natCast]
  push_cast
  exact mul_inv_cancel₀ (by positivity)

/-- Two parts of 1, rounded, add up to no less. -/
theorem one_le_roundTo_add [NeZero p] (hx : 0 ≤ x) (hy : 0 ≤ y) (hxy : x + y = 1) :
    1 ≤ roundTo p (roundTo p x + roundTo p y) := by
  wlog hle : y ≤ x generalizing x y
  · rw [add_comm]
    exact this hy hx (by rwa [add_comm]) (le_of_not_ge hle)
  have hone : IsFloat p (1 : ℚ) := by simpa using isFloat_zpow p 0
  rcases eq_or_lt_of_le (show x ≤ 1 by linarith) with rfl | hlt
  · obtain rfl : y = 0 := by linarith
    rw [roundTo_zero, add_zero, hone.roundTo_eq, hone.roundTo_eq]
  set e : ℚ := 2 ^ (-1 - p : ℤ) with he
  have hunit : 2 ^ (p + 1) * e = 1 := by
    rw [he, ← zpow_natCast, ← zpow_add₀ two_ne_zero]
    push_cast
    rw [show (p : ℤ) + 1 + (-1 - p) = 0 by ring, zpow_zero]
  have hpos : 0 < e := zpow_pos two_pos _
  have hhalf : (2 : ℚ) ^ (-1 : ℤ) ≤ roundTo p x := by
    refine (isFloat_zpow p (-1)).le_roundTo ?_
    rw [zpow_neg_one]
    linarith
  have hle1 : roundTo p x ≤ 1 := hone.roundTo_le hlt.le
  -- the larger part is a multiple of two halves of a unit, and off by one of them at most
  obtain ⟨n, hn⟩ := (isFloat_roundTo p x).exists_mul (hhalf.trans (le_abs_self _))
  have hn' : roundTo p x = 2 * n * e := by
    rw [hn, he, show (-1 : ℤ) + 1 - p = 1 + (-1 - p) by ring, zpow_add₀ two_ne_zero, zpow_one]
    ring
  have herr : |roundTo p x - x| ≤ e := abs_roundTo_sub_le_of_lt (k := -1) (by rw [abs_of_nonneg hx]; simpa using hlt)
  have hrest : IsFloat p (1 - roundTo p x - e) := by
    refine ⟨2 ^ (p + 1) - 2 * n - 1, -1 - p, ?_, ?_⟩
    · have hlow : (2 : ℚ) ^ p ≤ 2 * n := by
        rw [hn', zpow_neg_one] at hhalf
        rw [pow_succ] at hunit
        nlinarith
      have hhigh : 2 * (n : ℚ) ≤ 2 ^ (p + 1) := by
        rw [hn'] at hle1
        nlinarith
      have hlow' : (2 : ℤ) ^ p ≤ 2 * n := by exact_mod_cast hlow
      have hhigh' : 2 * n ≤ (2 : ℤ) ^ (p + 1) := by exact_mod_cast hhigh
      have hge : (1 : ℤ) ≤ 2 ^ p := one_le_pow₀ (by decide)
      rw [pow_succ] at hhigh' ⊢
      rw [abs_le]
      constructor <;> linarith
    · rw [hn', ← he]
      push_cast
      rw [sub_mul, sub_mul, hunit, one_mul]
  have hy' : 1 - roundTo p x - e ≤ roundTo p y := hrest.le_roundTo (by linarith [(abs_le.1 herr).1])
  exact roundTo_one_sub.symm.trans_le (roundTo_mono p (by linarith))
/-! ### Rounded sums -/

/-- The sum from `s` on, from left to right, every partial sum being rounded by `fl`. -/
def sumFrom (fl : ℚ → ℚ) (s : ℚ) (xs : List ℚ) : ℚ := xs.foldl (fun s x => fl (s + x)) s

theorem sumFrom_id (s : ℚ) (xs : List ℚ) : sumFrom id s xs = s + xs.sum := by
  induction xs generalizing s with
  | nil => simp [sumFrom]
  | cons x xs ih =>
    show sumFrom id (s + x) xs = _
    rw [ih, List.sum_cons, add_assoc]

/-- Terms that are 0 change no partial sum. -/
theorem sumFrom_map_filter {α : Type*} {fl : ℚ → ℚ} (hfl : ∀ x, fl (fl x) = fl x) {g : α → ℚ} {q : α → Bool}
    {as : List α} (hg : ∀ a, q a = false → g a = 0) {s : ℚ} (hs : fl s = s) :
    sumFrom fl s ((as.filter q).map g) = sumFrom fl s (as.map g) := by
  induction as generalizing s with
  | nil => rfl
  | cons a as ih =>
    cases hq : q a with
    | true =>
      rw [List.filter_cons_of_pos hq]
      exact ih (hfl _)
    | false =>
      have hstep : fl (s + g a) = s := by rw [hg a hq, add_zero, hs]
      rw [List.filter_cons_of_neg (by rw [hq]; decide), ih hs]
      show _ = sumFrom fl (fl (s + g a)) (as.map g)
      rw [hstep]

/-- Nothing is lost between multiples of `2 ^ e` while the sum has `p` bits. -/
theorem sumFrom_natCast_mul [NeZero p] (e : ℤ) {m : ℕ} {ks : List ℕ} (h : m + ks.sum ≤ 2 ^ p) :
    sumFrom (roundTo p) (m * 2 ^ e) (ks.map fun k : ℕ => (k : ℚ) * 2 ^ e) = (m + ks.sum : ℕ) * 2 ^ e := by
  induction ks generalizing m with
  | nil => rfl
  | cons k ks ih =>
    rw [List.sum_cons, ← add_assoc] at h
    have hbits : |((m + k : ℕ) : ℤ)| ≤ 2 ^ p := by
      rw [Nat.abs_cast]
      exact_mod_cast Nat.le_trans (Nat.le_add_right ..) h
    have hfloat : IsFloat p (((m + k : ℕ) : ℚ) * 2 ^ e) := ⟨_, e, hbits, by simp⟩
    have hstep : roundTo p ((m : ℚ) * 2 ^ e + k * 2 ^ e) = (m + k : ℕ) * 2 ^ e := by
      rw [← add_mul, ← Nat.cast_add]
      exact hfloat.roundTo_eq
    show sumFrom (roundTo p) (roundTo p (m * 2 ^ e + k * 2 ^ e)) _ = _
    rw [hstep, ih h, List.sum_cons, add_assoc]

/-- Each of the additions loses at most the factor `1 - 2 ^ -p`. -/
theorem pow_mul_le_sumFrom {s : ℚ} {xs : List ℚ} (hs : 0 ≤ s) (hxs : ∀ x ∈ xs, 0 ≤ x) :
    (1 - 2 ^ (-p : ℤ)) ^ xs.length * (s + xs.sum) ≤ sumFrom (roundTo p) s xs := by
  have hsmall : (2 : ℚ) ^ (-p : ℤ) ≤ 1 := zpow_le_one_of_nonpos₀ one_le_two (by omega)
  have hbase : (0 : ℚ) ≤ 1 - 2 ^ (-p : ℤ) := sub_nonneg.2 hsmall
  have hbase1 : 1 - (2 : ℚ) ^ (-p : ℤ) ≤ 1 := sub_le_self _ (zpow_pos two_pos _).le
  induction xs generalizing s with
  | nil => simp [sumFrom]
  | cons x xs ih =>
    have hx := hxs x (List.mem_cons_self ..)
    have hrest : ∀ y ∈ xs, 0 ≤ y := fun y hy => hxs y (List.mem_cons_of_mem x hy)
    have hround : (1 - 2 ^ (-p : ℤ)) * (s + x) ≤ roundTo p (s + x) := one_sub_mul_le_roundTo (add_nonneg hs hx)
    have hsum : (1 - 2 ^ (-p : ℤ)) * xs.sum ≤ xs.sum := mul_le_of_le_one_left (List.sum_nonneg hrest) hbase1
    calc
      (1 - 2 ^ (-p : ℤ)) ^ (x :: xs).length * (s + (x :: xs).sum) =
          (1 - 2 ^ (-p : ℤ)) ^ xs.length * ((1 - 2 ^ (-p : ℤ)) * (s + x) + (1 - 2 ^ (-p : ℤ)) * xs.sum) := by
        rw [List.length_cons, List.sum_cons, pow_succ]
        ring
      _ ≤ (1 - 2 ^ (-p : ℤ)) ^ xs.length * (roundTo p (s + x) + xs.sum) :=
        mul_le_mul_of_nonneg_left (add_le_add hround hsum) (pow_nonneg hbase _)
      _ ≤ sumFrom (roundTo p) (roundTo p (s + x)) xs := ih (roundTo_nonneg (add_nonneg hs hx)) hrest

end

end Rounding
