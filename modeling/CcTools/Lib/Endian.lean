import Mathlib.Tactic.Ring
import Mathlib.Data.List.Basic

/-!
# Fixed-width integers in memory

`Endian.store o w n` is the image of the integer `n` in `w` bytes of memory under the byte order
`o`, `Endian.load o` reads such an image back. The two are inverse to each other for every order and
width (`load_store`, `store_load`), and what one order loads the other stores again (`store_load_store`).
-/

/-- The order in which the bytes of an integer lie in memory. -/
inductive Endian where
  | little
  | big
deriving DecidableEq, Repr

namespace Endian

def lowBytes : Nat → Nat → List UInt8
  | 0, _ => []
  | w + 1, n => UInt8.ofNat n :: lowBytes w (n / 256)

def ofLowBytes : List UInt8 → Nat
  | [] => 0
  | b :: bs => b.toNat + 256 * ofLowBytes bs

def store (o : Endian) (w n : Nat) : List UInt8 :=
  match o with
  | .little => lowBytes w n
  | .big => (lowBytes w n).reverse

def load (o : Endian) (bs : List UInt8) : Nat :=
  match o with
  | .little => ofLowBytes bs
  | .big => ofLowBytes bs.reverse

@[simp] theorem length_lowBytes (w n : Nat) : (lowBytes w n).length = w := by
  induction w generalizing n with
  | zero => rfl
  | succ w ih => simp [lowBytes, ih]

theorem ofLowBytes_lowBytes {w n : Nat} (h : n < 256 ^ w) : ofLowBytes (lowBytes w n) = n := by
  induction w generalizing n with
  | zero => simp only [pow_zero] at h; simp only [lowBytes, ofLowBytes]; omega
  | succ w ih =>
    have hdiv : n / 256 < 256 ^ w := Nat.div_lt_of_lt_mul (by rw [pow_succ'] at h; exact h)
    simp only [lowBytes, ofLowBytes, ih hdiv, UInt8.toNat_ofNat']
    omega

theorem ofLowBytes_lt (bs : List UInt8) : ofLowBytes bs < 256 ^ bs.length := by
  induction bs with
  | nil => simp [ofLowBytes]
  | cons b bs ih =>
    have := b.toNat_lt
    simp only [ofLowBytes, List.length_cons, pow_succ]
    omega

theorem lowBytes_ofLowBytes (bs : List UInt8) : lowBytes bs.length (ofLowBytes bs) = bs := by
  induction bs with
  | nil => rfl
  | cons b bs ih =>
    have hb := b.toNat_lt
    have hhead : UInt8.ofNat (b.toNat + 256 * ofLowBytes bs) = b := by
      apply UInt8.toNat_inj.1
      rw [UInt8.toNat_ofNat']
      omega
    have htail : (b.toNat + 256 * ofLowBytes bs) / 256 = ofLowBytes bs := by omega
    simp only [List.length_cons, ofLowBytes, lowBytes, hhead, htail, ih]

@[simp] theorem length_store (o : Endian) (w n : Nat) : (o.store w n).length = w := by
  cases o <;> simp [store]

theorem load_store (o : Endian) {w n : Nat} (h : n < 256 ^ w) : o.load (o.store w n) = n := by
  cases o <;> simp [store, load, ofLowBytes_lowBytes h]

theorem load_lt (o : Endian) {bs : List UInt8} {w : Nat} (h : bs.length = w) : o.load bs < 256 ^ w := by
  subst h
  cases o with
  | little => exact ofLowBytes_lt bs
  | big => simpa [load] using ofLowBytes_lt bs.reverse

theorem store_load (o : Endian) {bs : List UInt8} {w : Nat} (h : bs.length = w) :
    o.store w (o.load bs) = bs := by
  subst h
  cases o with
  | little => exact lowBytes_ofLowBytes bs
  | big =>
    have := lowBytes_ofLowBytes bs.reverse
    rw [List.length_reverse] at this
    simp [store, load, this]

/-- The image in host order of the value whose host image is the big-endian image of `n`. -/
theorem store_load_store (o o' : Endian) (w n : Nat) : o.store w (o.load (o'.store w n)) = o'.store w n :=
  o.store_load (length_store o' w n)

theorem load_store_lt (o o' : Endian) (w n : Nat) : o.load (o'.store w n) < 256 ^ w :=
  o.load_lt (length_store o' w n)

end Endian
