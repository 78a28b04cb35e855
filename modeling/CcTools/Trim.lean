import CcTools.StringUtils
import CcTools.Lib.Strip
import Mathlib.Algebra.Ring.Nat

/-!
# `trim`

The two searches give `npos` on a string of blanks. Erasing from 0 on, `npos` is past any end, and
`npos + 1` is 0; so `trim` strips both ends of every string (`trim_eq`) and never throws.
-/

namespace CcTools.StringUtils

def IsBlank (c : UInt8) : Prop := c ∈ blanks

instance (c : UInt8) : Decidable (IsBlank c) := inferInstanceAs (Decidable (_ ∈ _))

theorem toNat_npos : npos.toNat = 2 ^ 64 - 1 := rfl

theorem npos_add_one : npos + 1 = 0 := rfl

section
variable {s chars : Str}

theorem dropWhile_mem (s chars : Str) :
    s.dropWhile (· ∈ chars) = s.drop ((s.findIdx? (· ∉ chars)).getD s.length) := by
  have hp : (fun c => !decide (c ∈ chars)) = fun c => decide (c ∉ chars) := by
    funext c
    rw [decide_not]
  rw [List.dropWhile_eq_drop_findIdx_not, hp]
  cases hi : s.findIdx? (· ∉ chars) with
  | none => rw [List.findIdx?_eq_none_iff_findIdx_eq.1 hi]; rfl
  | some i => rw [(List.findIdx?_eq_some_iff_findIdx_eq.1 hi).2]; rfl

theorem rdropWhile_mem (s chars : Str) :
    s.rdropWhile (· ∈ chars) = s.take (s.length - (s.reverse.findIdx? (· ∉ chars)).getD s.length) := by
  have hd := dropWhile_mem s.reverse chars
  rw [List.length_reverse] at hd
  rw [List.rdropWhile, hd, List.drop_reverse, List.reverse_reverse]

theorem findIdx?_lt {s : Str} {p : UInt8 → Bool} {i : Nat} (h : s.findIdx? p = some i) : i < s.length :=
  (List.findIdx?_eq_some_iff_findIdx_eq.1 h).1

theorem eraseAt_first (hs : s.length < 2 ^ 64) :
    eraseAt s 0 (findFirstNotOf s chars) = .ok (s.dropWhile (· ∈ chars)) := by
  have herase : ∀ n : UInt64, eraseAt s 0 n = .ok (s.drop n.toNat) := by
    intro n
    simp [eraseAt, erase]
    rfl
  rw [herase, dropWhile_mem, findFirstNotOf]
  cases hi : s.findIdx? (· ∉ chars) with
  | none =>
    have hn : s.length ≤ npos.toNat := by rw [toNat_npos]; omega
    simp only [Option.getD_none, List.drop_length, List.drop_of_length_le hn]
  | some i =>
    have := findIdx?_lt hi
    have hn : (UInt64.ofNat i).toNat = i := UInt64.toNat_ofNat_of_lt' (by simp only [UInt64.size]; omega)
    simp only [Option.getD_some, hn]

theorem eraseAt_last (hs : s.length < 2 ^ 64) :
    eraseAt s (findLastNotOf s chars + 1) npos = .ok (s.rdropWhile (· ∈ chars)) := by
  have herase : ∀ pos : UInt64, pos.toNat ≤ s.length → eraseAt s pos npos = .ok (s.take pos.toNat) := by
    intro pos hpos
    have hn : s.length ≤ pos.toNat + npos.toNat := by rw [toNat_npos]; omega
    rw [eraseAt, if_neg (Nat.not_lt.2 hpos), erase, List.drop_of_length_le hn, List.append_nil]
    rfl
  rw [rdropWhile_mem, findLastNotOf]
  cases hi : s.reverse.findIdx? (· ∉ chars) with
  | none =>
    have hzero := herase 0 (Nat.zero_le _)
    simpa [npos_add_one] using hzero
  | some i =>
    have hlt := findIdx?_lt hi
    rw [List.length_reverse] at hlt
    have hn : (UInt64.ofNat (s.length - 1 - i) + 1).toNat = s.length - i := by
      rw [UInt64.toNat_add, UInt64.toNat_ofNat_of_lt' (by simp only [UInt64.size]; omega)]
      simp only [UInt64.reduceToNat]
      omega
    have hcut := herase (UInt64.ofNat (s.length - 1 - i) + 1) (by omega)
    rw [hn] at hcut
    exact hcut

end

theorem trim_eq {str : Str} (hs : str.length < 2 ^ 64) : trim str = .ok (strip (· ∈ blanks) str) := by
  have hlen : (str.dropWhile (· ∈ blanks)).length < 2 ^ 64 :=
    Nat.lt_of_le_of_lt (List.length_dropWhile_le ..) hs
  rw [trim, eraseAt_first hs]
  exact eraseAt_last hlen

/-- `t` is `str` without the blanks around it; the blanks inside are kept. -/
structure Trimmed (str t : Str) : Prop where
  cut : ∃ a b, (∀ c ∈ a, IsBlank c) ∧ (∀ c ∈ b, IsBlank c) ∧ str = a ++ t ++ b
  first : ∀ c ∈ t.head?, ¬ IsBlank c
  last : ∀ c ∈ t.getLast?, ¬ IsBlank c

theorem trimmed_iff {str t : Str} : Trimmed str t ↔ Stripped (· ∈ blanks) str t := by
  constructor
  · rintro ⟨hcut, hfirst, hlast⟩
    exact ⟨by simpa [IsBlank] using hcut, by simpa [IsBlank] using hfirst, by simpa [IsBlank] using hlast⟩
  · rintro ⟨hcut, hfirst, hlast⟩
    exact ⟨by simpa [IsBlank] using hcut, by simpa [IsBlank] using hfirst, by simpa [IsBlank] using hlast⟩

theorem trim_trims (str : Str) (hs : str.length < 2 ^ 64) : ∃ t, trim str = .ok t ∧ Trimmed str t ∧
    trim t = .ok t ∧ ∀ x y, (∀ c ∈ x, IsBlank c) → (∀ c ∈ y, IsBlank c) → (x ++ str ++ y).length < 2 ^ 64 →
      trim (x ++ str ++ y) = .ok t := by
  have hstrip := stripped_strip (· ∈ blanks) str
  refine ⟨_, trim_eq hs, trimmed_iff.2 hstrip, ?_, fun x y hx hy hlen => ?_⟩
  · obtain ⟨a, b, -, -, heq⟩ := hstrip.cut
    have hlen : (strip (· ∈ blanks) str).length ≤ str.length := by
      conv_rhs => rw [heq]
      simp only [List.length_append]
      omega
    rw [trim_eq (Nat.lt_of_le_of_lt hlen hs), hstrip.self.eq_strip]
  · have hx' : ∀ c ∈ x, decide (c ∈ blanks) = true := by simpa [IsBlank] using hx
    have hy' : ∀ c ∈ y, decide (c ∈ blanks) = true := by simpa [IsBlank] using hy
    rw [trim_eq hlen, (hstrip.pad hx' hy').eq_strip]

theorem trim_trims_padded : Trimmed [0x20, 0x41, 0x20, 0x42, 0x0A] [0x41, 0x20, 0x42] := by
  obtain ⟨t, ht, htrim, -⟩ := trim_trims [0x20, 0x41, 0x20, 0x42, 0x0A] (by decide)
  have heval : trim [0x20, 0x41, 0x20, 0x42, 0x0A] = .ok [0x41, 0x20, 0x42] := by rfl
  obtain rfl : [0x41, 0x20, 0x42] = t := Except.ok.inj (heval.symm.trans ht)
  exact htrim

end CcTools.StringUtils
