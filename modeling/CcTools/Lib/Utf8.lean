import Mathlib.Algebra.Group.Nat.Defs
import Mathlib.Data.List.Basic

/-!
# UTF-8 and UTF-16

The two encodings of a list of characters. A UTF-8 sequence is a first byte and `trail r v`, which holds
the low `6 * r` bits of the code point, six to a byte.
-/

namespace Unicode

def utf8 (cs : List Char) : List UInt8 := cs.flatMap String.utf8EncodeChar

def utf16EncodeChar (c : Char) : List UInt16 :=
  let v := c.val.toNat
  if v ≤ 0xFFFF then [UInt16.ofNat v]
  else [UInt16.ofNat ((v - 0x10000) / 0x400 + 0xD800), UInt16.ofNat ((v - 0x10000) % 0x400 + 0xDC00)]

def utf16 (cs : List Char) : List UInt16 := cs.flatMap utf16EncodeChar

def trail : Nat → Nat → List UInt8
  | 0, _ => []
  | r + 1, v => UInt8.ofNat (v / 64 ^ r % 64 + 0x80) :: trail r v

/-- The least code point with `r` bytes after the first. -/
def least : Nat → Nat
  | 0 => 0
  | 1 => 0x80
  | 2 => 0x800
  | 3 => 0x10000
  | _ => 0x110000

/-- The first byte is this and the bits above the others. -/
def leadBase : Nat → Nat
  | 0 => 0
  | 1 => 0xC0
  | 2 => 0xE0
  | _ => 0xF0

section
variable {c : Char} {cs ds : List Char}

@[simp] theorem utf8_nil : utf8 [] = [] := rfl

@[simp] theorem utf8_cons : utf8 (c :: cs) = String.utf8EncodeChar c ++ utf8 cs := rfl

@[simp] theorem utf8_append : utf8 (cs ++ ds) = utf8 cs ++ utf8 ds := List.flatMap_append

@[simp] theorem utf16_nil : utf16 [] = [] := rfl

@[simp] theorem utf16_cons : utf16 (c :: cs) = utf16EncodeChar c ++ utf16 cs := rfl

@[simp] theorem utf16_append : utf16 (cs ++ ds) = utf16 cs ++ utf16 ds := List.flatMap_append

/-- A code point is below `0x110000` and not a surrogate. -/
theorem scalar (c : Char) : c.val.toNat < 0xD800 ∨ 0xDFFF < c.val.toNat ∧ c.val.toNat < 0x110000 := c.valid

theorem exists_char {v : Nat} (h : v < 0xD800 ∨ 0xDFFF < v ∧ v < 0x110000) : ∃ c : Char, c.val.toNat = v := by
  refine ⟨⟨UInt32.ofNat v, ?_⟩, ?_⟩
  · show (UInt32.ofNat v).toNat < 0xD800 ∨ _
    rw [UInt32.toNat_ofNat_of_lt' (by simp only [UInt32.size]; omega)]
    exact h
  · exact UInt32.toNat_ofNat_of_lt' (by simp only [UInt32.size]; omega)

theorem encode_one (h : c.val.toNat < 0x80) : String.utf8EncodeChar c = [UInt8.ofNat c.val.toNat] :=
  if_pos (Nat.le_of_lt_succ h)

theorem encode_two (h : 0x80 ≤ c.val.toNat) (h' : c.val.toNat < 0x800) :
    String.utf8EncodeChar c = UInt8.ofNat (c.val.toNat / 64 + 0xC0) :: trail 1 c.val.toNat := by
  have hlead : c.val.toNat / 64 % 0x20 = c.val.toNat / 64 := Nat.mod_eq_of_lt (by omega)
  rw [String.utf8EncodeChar]
  simp only [show ¬ c.val.toNat ≤ 0x7F by omega, show c.val.toNat ≤ 0x7FF by omega, ↓reduceIte, hlead, trail,
    Nat.pow_zero, Nat.div_one]

theorem encode_three (h : 0x800 ≤ c.val.toNat) (h' : c.val.toNat < 0x10000) :
    String.utf8EncodeChar c = UInt8.ofNat (c.val.toNat / 64 ^ 2 + 0xE0) :: trail 2 c.val.toNat := by
  have hlead : c.val.toNat / 4096 % 0x10 = c.val.toNat / 4096 := Nat.mod_eq_of_lt (by omega)
  rw [String.utf8EncodeChar]
  simp only [show ¬ c.val.toNat ≤ 0x7F by omega, show ¬ c.val.toNat ≤ 0x7FF by omega,
    show c.val.toNat ≤ 0xFFFF by omega, ↓reduceIte, hlead, trail, Nat.pow_zero, Nat.pow_one, Nat.div_one,
    Nat.reducePow]

theorem encode_four (h : 0x10000 ≤ c.val.toNat) :
    String.utf8EncodeChar c = UInt8.ofNat (c.val.toNat / 64 ^ 3 + 0xF0) :: trail 3 c.val.toNat := by
  have hlead : c.val.toNat / 262144 % 8 = c.val.toNat / 262144 := Nat.mod_eq_of_lt (by have := scalar c; omega)
  rw [String.utf8EncodeChar]
  simp only [show ¬ c.val.toNat ≤ 0x7F by omega, show ¬ c.val.toNat ≤ 0x7FF by omega,
    show ¬ c.val.toNat ≤ 0xFFFF by omega, ↓reduceIte, hlead, trail, Nat.pow_zero, Nat.pow_one, Nat.div_one,
    Nat.reducePow]

theorem encode_eq {r : Nat} (hr : r ≤ 3) (h : least r ≤ c.val.toNat) (h' : c.val.toNat < least (r + 1)) :
    String.utf8EncodeChar c = UInt8.ofNat (c.val.toNat / 64 ^ r + leadBase r) :: trail r c.val.toNat := by
  match r with
  | 0 => rw [encode_one h', Nat.pow_zero, Nat.div_one]; rfl
  | 1 => rw [encode_two h h', Nat.pow_one]; rfl
  | 2 => exact encode_three h h'
  | 3 => exact encode_four h

/-- Every code point has its number of bytes. -/
theorem exists_length (c : Char) : ∃ r ≤ 3, least r ≤ c.val.toNat ∧ c.val.toNat < least (r + 1) := by
  have := scalar c
  rcases Nat.lt_or_ge c.val.toNat 0x80 with h | h
  · exact ⟨0, by decide, Nat.zero_le _, h⟩
  rcases Nat.lt_or_ge c.val.toNat 0x800 with h' | h'
  · exact ⟨1, by decide, h, h'⟩
  rcases Nat.lt_or_ge c.val.toNat 0x10000 with h'' | h''
  · exact ⟨2, by decide, h', h''⟩
  · exact ⟨3, by decide, h'', by show _ < 0x110000; omega⟩

end

end Unicode
