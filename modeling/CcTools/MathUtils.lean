import CcTools.Exception
import CcTools.Lib.BinarySearch
import CcTools.Lib.Rank
import CcTools.Lib.Rounding

/-!
# `MathUtils`: clamping the largest values, stretching the contrast

`reduceMaxValues` and `strechlim` of `utils/MathUtils.h`. A finite `float` is a rational, and every operation
rounds its exact result by `fl`: `fl` is `roundTo 24` for the type itself and `id` for exact arithmetic.
-/

namespace CcTools.MathUtils
open Rounding

/-- How a call ends without a result; after the last two the code runs into undefined behaviour. -/
inductive Failure where
  | thrown (e : Exception)
  | nanToInt
  | outOfBounds
deriving DecidableEq, Repr

section strechlim
variable (fl : ℚ → ℚ)

def nbins : Nat := 256

/-- `std::numeric_limits<float>::epsilon()`. -/
def epsilon : ℚ := 1 / 2 ^ 23

structure Range where
  dataMin : ℚ
  dataMax : ℚ
deriving DecidableEq, Repr

/-- The smallest and the largest of `x :: xs`, equal ones being set apart by `1e-6f`. -/
def rangeOf (x : ℚ) (xs : List ℚ) : Range :=
  let dataMin := xs.foldl min x
  let dataMax := xs.foldl max x
  { dataMin, dataMax := if dataMax ≤ dataMin then fl (dataMin + fl (1 / 1000000)) else dataMax }

def Range.width (r : Range) : ℚ := fl (r.dataMax - r.dataMin)

/-- The bucket of `x`; `none` if `v` is not a number, a division of zero by zero. -/
def binOf (r : Range) (x : ℚ) : Option ℤ :=
  if r.width fl = 0 then none
  else
    let v := fl (fl (x - r.dataMin) / r.width fl)
    let v := min (max v 0) (fl (1 - epsilon))
    some ⌊fl (fl (v * (nbins - 1 : Nat)) + 1 / 2)⌋

/-- `hist[bin]++`. -/
def tally (hist : List Nat) (bin : ℤ) : Except Failure (List Nat) :=
  if 0 ≤ bin ∧ bin < hist.length then
    pure (hist.modify bin.toNat (· + 1))
  else
    throw .outOfBounds

/-- The body of the loop of the histogram. -/
def countValue (r : Range) (hist : List Nat) (x : ℚ) : Except Failure (List Nat) :=
  match binOf fl r x with
  | some bin => tally hist bin
  | none => throw .nanToInt

def histogram (r : Range) (data : List ℚ) : Except Failure (List Nat) :=
  data.foldlM (countValue fl r) (List.replicate nbins 0)

/-- `static_cast<float>(h) / length`. -/
def share (length h : Nat) : ℚ := fl (fl h / fl length)

/-- The loop of the distribution, from the element that was last computed on. -/
def accumulate (length : Nat) (last : ℚ) : List Nat → List ℚ
  | [] => []
  | h :: hist =>
    let next := fl (last + share fl length h)
    next :: accumulate length next hist

def cdfOf (length : Nat) : List Nat → List ℚ
  | [] => []
  | h :: hist => share fl length h :: accumulate fl length (share fl length h) hist

/-- `std::lower_bound(cdf.begin(), cdf.end(), tol) - cdf.begin()`. -/
def searchBin (cdf : List ℚ) (tol : ℚ) : Nat := BinarySearch.lowerBound (· < tol) cdf

/-- A bucket mapped back to a value. -/
def limit (r : Range) (bin : Nat) : ℚ :=
  fl (r.dataMin + fl (fl (fl bin / (nbins - 1 : Nat)) * r.width fl))

/-- The locals of `strechlim` when the limits are computed. -/
structure Stretch where
  range : Range
  hist : List Nat
  cdf : List ℚ
  lowBin : Nat
  highBin : Nat
deriving DecidableEq, Repr

def BadTolerances (tolLow tolHigh : ℚ) : Prop :=
  tolLow < 0 ∨ tolLow > 1 ∨ tolHigh < 0 ∨ tolHigh > 1 ∨ tolLow ≥ tolHigh

instance (tolLow tolHigh : ℚ) : Decidable (BadTolerances tolLow tolHigh) :=
  inferInstanceAs (Decidable (_ ∨ _ ∨ _ ∨ _ ∨ _))

def badArguments : Exception :=
  .runtimeError ("length == 0 || tol_low < 0.0f || tol_low > 1.0f || tol_high < 0.0f || tol_high > 1.0f || tol_low >= " ++
    "tol_high")

def stretch (data : List ℚ) (tolLow tolHigh : ℚ) : Except Failure Stretch :=
  match data with
  | [] => throw (.thrown badArguments)
  | x :: xs =>
    if BadTolerances tolLow tolHigh then
      throw (.thrown badArguments)
    else do
      let range := rangeOf fl x xs
      let hist ← histogram fl range (x :: xs)
      let cdf := cdfOf fl (x :: xs).length hist
      return { range, hist, cdf, lowBin := searchBin cdf tolLow, highBin := searchBin cdf tolHigh }

/-- The limits between which the values are to be stretched. -/
def strechlim (data : List ℚ) (tolLow tolHigh : ℚ) : Except Failure (ℚ × ℚ) := do
  let s ← stretch fl data tolLow tolHigh
  return (limit fl s.range s.lowBin, limit fl s.range s.highBin)

/-- `static_cast<std::size_t>(std::floor((length - 1) * highPercentile))`. -/
def percentileIndex (length : Nat) (highPercentile : ℚ) : Nat :=
  ⌊fl (fl (length - 1 : Nat) * highPercentile)⌋.toNat

end strechlim

/-- An element type `T` beside `float`: how values are copied into a `float`, and back. -/
structure Narrowing (T F : Type*) [LinearOrder T] [LinearOrder F] where
  toFloat : T → F
  ofFloat : F → T
  toFloat_mono : Monotone toFloat
  ofFloat_strictMono : StrictMono ofFloat
  toFloat_ofFloat : ∀ f, toFloat (ofFloat f) = f

/-- The `float` values, without a bound on the exponent. -/
abbrev Float32Value := { x : ℚ // IsFloat 24 x }

/-- `float` and `double` values are rationals; the copy rounds them to 24 bits. -/
def binary32 : Narrowing ℚ Float32Value where
  toFloat x := ⟨roundTo 24 x, isFloat_roundTo 24 x⟩
  ofFloat f := f.1
  toFloat_mono _ _ h := roundTo_mono 24 h
  ofFloat_strictMono _ _ h := h
  toFloat_ofFloat f := Subtype.ext f.2.roundTo_eq

/-- Values above the element of the percentile are set to it. -/
def reduceMaxValues {T F : Type*} [LinearOrder T] [LinearOrder F] (n : Narrowing T F) (data : List T)
    (highPercentile : ℚ) : Except Failure (List T) :=
  if data.length = 0 then
    throw (.thrown (.invalidArgument "reduceMaxValues: length must be > 0"))
  else if highPercentile ≤ 0 ∨ highPercentile > 1 then
    throw (.thrown (.invalidArgument "reduceMaxValues: highPercentile must be in (0,1]"))
  else
    let buf := Rank.sorted (data.map n.toFloat)
    match buf[percentileIndex (roundTo 24) data.length highPercentile]? with
    | none => throw .outOfBounds
    | some cap => pure (data.map fun x => if x > n.ofFloat cap then n.ofFloat cap else x)

end CcTools.MathUtils
