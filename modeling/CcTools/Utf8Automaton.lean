import CcTools.Unicode
import CcTools.Lib.Utf8
import Mathlib.Tactic.Ring
import Mathlib.Tactic.SplitIfs

/-!
# The automaton of `consumeUtf8Fragment`
-/

namespace CcTools.Fs
open Unicode

/-- The states of `consumeUtf8Fragment`: between two characters, before the last one, two or three bytes of
one, or after a first byte that not every other may follow. -/
inductive Pos where
  | start | one | two | afterE0 | afterED | afterF0 | three | afterF4 | reject
deriving DecidableEq, Repr

namespace Pos

def code : Pos → UInt32
  | start => stateStart
  | one => 1
  | two => 2
  | afterE0 => 3
  | afterED => 4
  | afterF0 => 5
  | three => 6
  | afterF4 => 7
  | reject => stateReject

/-- How many bytes are still to come. -/
def owed : Pos → Nat
  | start | reject => 0
  | one => 1
  | two | afterE0 | afterED => 2
  | three | afterF0 | afterF4 => 3

/-- The bytes that may come next. -/
def lowest : Pos → Nat
  | afterE0 => 0xA0
  | afterF0 => 0x90
  | _ => 0x80

def highest : Pos → Nat
  | afterED => 0x9F
  | afterF4 => 0x8F
  | _ => 0xBF

/-- The state after another byte that may come. -/
def pred : Pos → Pos
  | one => start
  | two | afterE0 | afterED => one
  | three | afterF0 | afterF4 => two
  | q => q

def first (n : Nat) : Pos :=
  if n < 0x80 then start
  else if n < 0xC2 then reject
  else if n < 0xE0 then one
  else if n = 0xE0 then afterE0
  else if n = 0xED then afterED
  else if n < 0xF0 then two
  else if n = 0xF0 then afterF0
  else if n < 0xF4 then three
  else if n = 0xF4 then afterF4
  else reject

def next (q : Pos) (n : Nat) : Pos :=
  if q = start then first n
  else if lowest q ≤ n ∧ n ≤ highest q then pred q
  else reject

/-- What is known of the code point after the byte `n`. -/
def point (q : Pos) (cp n : Nat) : Nat :=
  if q = start then n - leadBase (owed (first n)) else cp * 64 + n % 64

theorem code_inj {p q : Pos} : p.code = q.code ↔ p = q := by
  constructor
  · cases p <;> cases q <;> decide
  · exact congrArg code

end Pos

theorem consume_state (q : Pos) (hq : q ≠ .reject) (b : UInt8) (cp : UInt32) :
    (consumeUtf8Fragment q.code b cp).1 = (q.next b.toNat).code := by
  have htable : ∀ n < 256, (consumeUtf8Fragment q.code (UInt8.ofNat n) 0).1 = (q.next n).code := by
    cases q with
    | reject => exact absurd rfl hq
    | _ => decide +kernel
  have hb := htable b.toNat b.toNat_lt
  rwa [UInt8.ofNat_toNat] at hb

theorem consume_first (b : UInt8) (h : Pos.first b.toNat ≠ .reject) (cp : UInt32) :
    (consumeUtf8Fragment Pos.start.code b cp).2 = UInt32.ofNat (Pos.start.point 0 b.toNat) := by
  have htable : ∀ n < 256, Pos.first n ≠ .reject →
      (consumeUtf8Fragment Pos.start.code (UInt8.ofNat n) 0).2 = UInt32.ofNat (Pos.start.point 0 n) := by
    decide +kernel
  have hb := htable b.toNat b.toNat_lt h
  rwa [UInt8.ofNat_toNat] at hb

theorem consume_next {q : Pos} {cp : Nat} (hq : q ≠ .start) (hcp : cp < 2 ^ 26) (b : UInt8) :
    (consumeUtf8Fragment q.code b (UInt32.ofNat cp)).2 = UInt32.ofNat (q.point cp b.toNat) := by
  have hstate : q.code ≠ 0 := fun h => hq (Pos.code_inj.1 h)
  have hlow : (b &&& 0x3F).toNat = b.toNat % 64 := by
    rw [UInt8.toNat_and]
    exact Nat.and_two_pow_sub_one_eq_mod b.toNat 6
  have hshift : (UInt32.ofNat cp <<< 6).toNat = cp <<< 6 := by
    rw [UInt32.toNat_shiftLeft, UInt32.toNat_ofNat_of_lt' (by simp only [UInt32.size]; omega)]
    show cp <<< 6 % 2 ^ 32 = _
    rw [Nat.shiftLeft_eq]
    exact Nat.mod_eq_of_lt (by omega)
  simp only [consumeUtf8Fragment, if_pos hstate, Pos.point, if_neg hq]
  apply UInt32.toNat_inj.1
  rw [UInt32.toNat_or, hshift, UInt8.toNat_toUInt32, hlow,
    UInt32.toNat_ofNat_of_lt' (by simp only [UInt32.size]; omega),
    ← Nat.shiftLeft_add_eq_or_of_lt (by omega : b.toNat % 64 < 2 ^ 6), Nat.shiftLeft_eq]

/-- The decoding between two bytes. -/
def inState (result : WStr) (q : Pos) (cp : Nat) : Decoding :=
  { result, utf8State := q.code, codepoint := UInt32.ofNat cp }

theorem next_inState {q : Pos} {cp : Nat} (result : WStr) (hq : q ≠ .reject) (hcp : cp < 2 ^ 26)
    (h0 : q = .start → cp = 0) (b : UInt8) :
    (inState result q cp).next b =
      match q.next b.toNat with
      | .start => inState (appendUnits result (UInt32.ofNat (q.point cp b.toNat))) .start 0
      | .reject => inState (result ++ [0xFFFD]) .start 0
      | q' => inState result q' (q.point cp b.toNat) := by
  have hstate := consume_state q hq b (UInt32.ofNat cp)
  have hpoint : q.next b.toNat ≠ .reject →
      (consumeUtf8Fragment q.code b (UInt32.ofNat cp)).2 = UInt32.ofNat (q.point cp b.toNat) := by
    intro hne
    by_cases hstart : q = .start
    · subst hstart
      obtain rfl := h0 rfl
      exact consume_first b hne _
    · exact consume_next hstart hcp b
  unfold Decoding.next
  simp only [inState, hstate]
  cases hnext : q.next b.toNat with
  | reject => rfl
  | _ => rw [hpoint (by rw [hnext]; decide)]; rfl

/-! ### What is known of the code point -/

namespace Pos

/-- What the bits read so far can be. -/
def PointIn : Pos → Nat → Prop
  | one, cp => 2 ≤ cp ∧ cp < 0x4400 ∧ ¬ (0x360 ≤ cp ∧ cp < 0x380)
  | two, cp => 1 ≤ cp ∧ cp < 0x110 ∧ cp ≠ 0xD
  | three, cp => 1 ≤ cp ∧ cp ≤ 3
  | afterED, cp => cp = 0xD
  | afterF4, cp => cp = 4
  | reject, _ => False
  | _, cp => cp = 0

instance (q : Pos) (cp : Nat) : Decidable (PointIn q cp) := by
  cases q <;> unfold PointIn <;> infer_instance

/-- The least code point that can still be read. -/
def leastIn : Pos → Nat
  | afterE0 => 0x800
  | afterF0 => 0x10000
  | _ => 0

theorem PointIn.lt {q : Pos} {cp : Nat} (h : PointIn q cp) : cp < 2 ^ 26 := by
  cases q <;> simp only [PointIn] at h <;> omega

theorem PointIn.ne_reject {q : Pos} {cp : Nat} (h : PointIn q cp) : q ≠ .reject := by
  rintro rfl
  exact h

theorem pointIn_first {n : Nat} (hn : n < 256) (h : first n ≠ .start) (h' : first n ≠ .reject) :
    PointIn (first n) (start.point 0 n) := by
  have htable : ∀ n < 256, first n ≠ .start → first n ≠ .reject → PointIn (first n) (start.point 0 n) := by
    decide +kernel
  exact htable n hn h h'

theorem PointIn.pred {q : Pos} {cp n : Nat} (h : PointIn q cp) (hn : lowest q ≤ n ∧ n ≤ highest q)
    (hq : pred q ≠ .start) : PointIn (pred q) (cp * 64 + n % 64) := by
  cases q with
  | start | one => exact absurd rfl hq
  | reject => exact h
  | _ =>
    simp only [PointIn, Pos.pred, lowest, highest] at h hn ⊢
    omega

/-- The last byte completes a code point. -/
theorem PointIn.scalar {cp n : Nat} (h : PointIn .one cp) :
    cp * 64 + n % 64 < 0xD800 ∨ 0xDFFF < cp * 64 + n % 64 ∧ cp * 64 + n % 64 < 0x110000 := by
  simp only [PointIn] at h
  omega

theorem PointIn.next {q : Pos} {cp n : Nat} (h : PointIn q cp) (hn : n < 256) (hstart : q.next n ≠ .start)
    (hreject : q.next n ≠ .reject) : PointIn (q.next n) (q.point cp n) := by
  unfold Pos.next at hstart hreject ⊢
  by_cases hq : q = .start
  · subst hq
    obtain rfl : cp = 0 := h
    rw [if_pos rfl] at hstart hreject ⊢
    exact pointIn_first hn hstart hreject
  · rw [if_neg hq] at hstart hreject ⊢
    by_cases hb : lowest q ≤ n ∧ n ≤ highest q
    · rw [if_pos hb] at hstart ⊢
      rw [point, if_neg hq]
      exact h.pred hb hstart
    · exact absurd (if_neg hb) hreject

/-- Where the state is the first one again a character is complete, of one byte if it was before. -/
theorem PointIn.complete {q : Pos} {cp n : Nat} (h : PointIn q cp) (hnext : q.next n = .start) :
    ∃ c : Char, c.val.toNat = q.point cp n ∧ (q = .start → c.val.toNat < 0x80) := by
  unfold Pos.next at hnext
  by_cases hq : q = .start
  · subst hq
    rw [if_pos rfl] at hnext
    have hlt : n < 0x80 := by
      unfold first at hnext
      split_ifs at hnext
      assumption
    have hpoint : Pos.start.point cp n = n := by
      rw [point, if_pos rfl, hnext]
      rfl
    obtain ⟨c, hc⟩ := exists_char (v := n) (.inl (by omega))
    exact ⟨c, by rw [hpoint, hc], fun _ => hc ▸ hlt⟩
  · rw [if_neg hq] at hnext
    obtain rfl : q = .one := by
      split_ifs at hnext with hb
      cases q <;> first | rfl | exact absurd rfl hq | cases hnext
    obtain ⟨c, hc⟩ := exists_char (h.scalar (n := n))
    exact ⟨c, by rw [hc, point, if_neg hq], fun hs => absurd hs hq⟩

/-- The state is inside the encoding of `c`, with the bits `cp` read. -/
structure Reads (q : Pos) (cp : Nat) (c : Char) : Prop where
  point : PointIn q cp
  bits : c.val.toNat / 64 ^ q.owed = cp
  least : leastIn q ≤ c.val.toNat

/-- The next byte of the encoding may come next. -/
theorem Reads.may {q : Pos} {cp r : Nat} {c : Char} (h : Reads q cp c) (hr : q.owed = r + 1) :
    lowest q ≤ c.val.toNat / 64 ^ r % 64 + 0x80 ∧ c.val.toNat / 64 ^ r % 64 + 0x80 ≤ highest q := by
  have hc := Unicode.scalar c
  obtain ⟨hpoint, hbits, hleast⟩ := h
  have hmod : c.val.toNat / 64 ^ r % 64 < 64 := Nat.mod_lt _ (by decide)
  cases q with
  | start | reject => cases hr
  | _ =>
    obtain rfl := Nat.succ.inj hr.symm
    simp only [PointIn, leastIn, lowest, highest, owed, Nat.reducePow] at *
    omega

theorem Reads.bits_next {q : Pos} {cp r : Nat} {c : Char} (h : Reads q cp c) (hr : q.owed = r + 1) :
    c.val.toNat / 64 ^ r = cp * 64 + (c.val.toNat / 64 ^ r % 64 + 0x80) % 64 := by
  have hbits := h.bits
  rw [hr, Nat.pow_succ, ← Nat.div_div_eq_div_mul] at hbits
  omega

theorem Reads.next {q : Pos} {cp r : Nat} {c : Char} (h : Reads q cp c) (hr : q.owed = r + 2) :
    Reads q.pred (cp * 64 + (c.val.toNat / 64 ^ (r + 1) % 64 + 0x80) % 64) c := by
  have howed : q.pred.owed = r + 1 := by
    cases q <;> cases hr <;> rfl
  refine ⟨h.point.pred (h.may hr) ?_, ?_, ?_⟩
  · intro hstart
    rw [hstart] at howed
    cases howed
  · rw [howed]
    exact h.bits_next hr
  · cases q <;> exact Nat.zero_le _

theorem leastIn_le (q : Pos) : leastIn q ≤ Unicode.least q.owed := by
  cases q <;> decide

/-- The first byte of a character of several says how many follow. -/
theorem owed_first {c : Char} {r : Nat} (hr : r ≤ 3) (h : Unicode.least (r + 1) ≤ c.val.toNat)
    (h' : c.val.toNat < Unicode.least (r + 2)) :
    c.val.toNat / 64 ^ (r + 1) + leadBase (r + 1) < 256 ∧
      (first (c.val.toNat / 64 ^ (r + 1) + leadBase (r + 1))).owed = r + 1 := by
  have hc := Unicode.scalar c
  have htwo : ∀ x < 32, 2 ≤ x → (first (x + 0xC0)).owed = 1 := by decide +kernel
  have hthree : ∀ x < 16, (first (x + 0xE0)).owed = 2 := by decide +kernel
  have hfour : ∀ x < 5, (first (x + 0xF0)).owed = 3 := by decide +kernel
  match r with
  | 0 =>
    simp only [Unicode.least, leadBase, Nat.zero_add, Nat.pow_one] at h h' ⊢
    exact ⟨by omega, htwo _ (by omega) (by omega)⟩
  | 1 =>
    simp only [Unicode.least, leadBase, Nat.reduceAdd, Nat.reducePow] at h h' ⊢
    exact ⟨by omega, hthree _ (by omega)⟩
  | 2 =>
    simp only [Unicode.least, leadBase, Nat.reduceAdd, Nat.reducePow] at h h' ⊢
    exact ⟨by omega, hfour _ (by omega)⟩
  | 3 =>
    simp only [Unicode.least] at h
    omega

theorem reads_first {c : Char} {r : Nat} (hr : r ≤ 3) (h : Unicode.least (r + 1) ≤ c.val.toNat)
    (h' : c.val.toNat < Unicode.least (r + 2)) :
    Reads (first (c.val.toNat / 64 ^ (r + 1) + leadBase (r + 1))) (c.val.toNat / 64 ^ (r + 1)) c := by
  obtain ⟨hbyte, howed⟩ := owed_first hr h h'
  have hstate : ∀ q : Pos, q.owed = r + 1 → q ≠ .start ∧ q ≠ .reject := by
    intro q hq
    constructor <;> rintro rfl <;> cases hq
  have hpoint := pointIn_first hbyte (hstate _ howed).1 (hstate _ howed).2
  simp only [point, ↓reduceIte, howed, Nat.add_sub_cancel] at hpoint
  refine ⟨hpoint, by rw [howed], (leastIn_le _).trans ?_⟩
  rw [howed]
  exact h

end Pos

end CcTools.Fs
