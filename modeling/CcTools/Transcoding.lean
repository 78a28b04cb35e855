import CcTools.Utf8Automaton

/-!
# UTF-8 to UTF-16 and back
-/

namespace CcTools.Fs
open Unicode

section
variable {c : Char} {cs : List Char} {result : WStr} {q : Pos} {cp r : Nat}

/-! ### Decoding a character -/

theorem appendUnits_char (result : WStr) (c : Char) : appendUnits result c.val = result ++ utf16EncodeChar c := by
  have hc := scalar c
  unfold appendUnits utf16EncodeChar
  dsimp only
  by_cases h : c.val.toNat ≤ 0xFFFF
  · rw [if_pos h, if_pos (UInt32.le_iff_toNat_le.2 h)]
    rfl
  have hsub : (c.val - 0x10000).toNat = c.val.toNat - 0x10000 := by
    rw [UInt32.toNat_sub_of_le _ _ (UInt32.le_iff_toNat_le.2 (by show 0x10000 ≤ _; omega))]
    rfl
  have hhigh : ((c.val - 0x10000) >>> 10 + 0xD800).toUInt16 =
      UInt16.ofNat ((c.val.toNat - 0x10000) / 0x400 + 0xD800) := by
    apply UInt16.toNat_inj.1
    rw [UInt32.toNat_toUInt16, UInt32.toNat_add, UInt32.toNat_shiftRight, hsub, UInt16.toNat_ofNat']
    show ((c.val.toNat - 0x10000) >>> 10 + 0xD800) % 2 ^ 32 % 2 ^ 16 = _
    rw [Nat.shiftRight_eq_div_pow]
    omega
  have hlow : (((c.val - 0x10000) &&& 0x3FF) + 0xDC00).toUInt16 =
      UInt16.ofNat ((c.val.toNat - 0x10000) % 0x400 + 0xDC00) := by
    have hand : (c.val.toNat - 0x10000) &&& 0x3FF = (c.val.toNat - 0x10000) % 0x400 :=
      Nat.and_two_pow_sub_one_eq_mod _ 10
    apply UInt16.toNat_inj.1
    rw [UInt32.toNat_toUInt16, UInt32.toNat_add, UInt32.toNat_and, hsub, UInt16.toNat_ofNat',
      show (0x3FF : UInt32).toNat = 0x3FF from rfl, show (0xDC00 : UInt32).toNat = 0xDC00 from rfl, hand]
    omega
  rw [if_neg h, if_neg (fun h' => h (UInt32.le_iff_toNat_le.1 h')), hhigh, hlow]

/-- One step, for what is known of the code point in the state. -/
theorem next_of_point (result : WStr) (h : q.PointIn cp) (b : UInt8) :
    (inState result q cp).next b =
      match q.next b.toNat with
      | .start => inState (appendUnits result (UInt32.ofNat (q.point cp b.toNat))) .start 0
      | .reject => inState (result ++ [0xFFFD]) .start 0
      | q' => inState result q' (q.point cp b.toNat) := by
  refine next_inState result h.ne_reject h.lt ?_ b
  rintro rfl
  exact h

/-- A byte of the encoding after the first. -/
theorem next_trail (result : WStr) (h : q.Reads cp c) (hr : q.owed = r + 1) :
    (inState result q cp).next (UInt8.ofNat (c.val.toNat / 64 ^ r % 64 + 0x80)) =
      match q.pred with
      | .start => inState (appendUnits result (UInt32.ofNat (c.val.toNat / 64 ^ r))) .start 0
      | .reject => inState (result ++ [0xFFFD]) .start 0
      | q' => inState result q' (c.val.toNat / 64 ^ r) := by
  have hstart : q ≠ .start := by
    rintro rfl
    cases hr
  have hbyte : (UInt8.ofNat (c.val.toNat / 64 ^ r % 64 + 0x80)).toNat = c.val.toNat / 64 ^ r % 64 + 0x80 :=
    UInt8.toNat_ofNat_of_lt' (by simp only [UInt8.size]; omega)
  rw [next_of_point result h.point, hbyte, Pos.next, if_neg hstart, if_pos (h.may hr), Pos.point, if_neg hstart,
    ← h.bits_next hr]

theorem foldl_trail (result : WStr) (h : q.Reads cp c) (hr : q.owed = r + 1) :
    (trail (r + 1) c.val.toNat).foldl Decoding.next (inState result q cp) =
      inState (result ++ utf16EncodeChar c) .start 0 := by
  induction r generalizing q cp with
  | zero =>
    have hpred : q.pred = .start := by
      cases q <;> first | rfl | cases hr
    rw [trail, List.foldl_cons, next_trail result h hr, hpred, Nat.pow_zero, Nat.div_one, UInt32.ofNat_toNat,
      ← appendUnits_char]
    rfl
  | succ r ih =>
    have howed : q.pred.owed = r + 1 := by
      cases q <;> cases hr <;> rfl
    have hnext : q.pred ≠ .start ∧ q.pred ≠ .reject := by
      constructor <;> intro hq <;> rw [hq] at howed <;> cases howed
    have hreads := h.next hr
    rw [← h.bits_next hr] at hreads
    rw [trail, List.foldl_cons, next_trail result h hr]
    cases hpred : q.pred with
    | start => exact absurd hpred hnext.1
    | reject => exact absurd hpred hnext.2
    | _ =>
      rw [hpred] at hreads howed
      exact ih hreads howed

/-- The bytes of a character become its units. -/
theorem foldl_char (result : WStr) (c : Char) :
    (String.utf8EncodeChar c).foldl Decoding.next (inState result .start 0) =
      inState (result ++ utf16EncodeChar c) .start 0 := by
  have hc := scalar c
  have hpoint : Pos.PointIn .start 0 := rfl
  obtain ⟨r, hr, h, h'⟩ := exists_length c
  rw [encode_eq hr h h', List.foldl_cons, next_of_point result hpoint]
  match r with
  | 0 =>
    have hbyte : (UInt8.ofNat (c.val.toNat / 64 ^ 0 + leadBase 0)).toNat = c.val.toNat := by
      rw [Nat.pow_zero, Nat.div_one]
      exact UInt8.toNat_ofNat_of_lt' (Nat.lt_trans h' (by decide))
    have hfirst : Pos.first c.val.toNat = .start := if_pos h'
    rw [hbyte, Pos.next, if_pos rfl, hfirst, Pos.point, if_pos rfl, hfirst]
    show inState (appendUnits result (UInt32.ofNat c.val.toNat)) .start 0 = _
    rw [UInt32.ofNat_toNat, appendUnits_char]
  | r + 1 =>
    obtain ⟨hlt, howed⟩ := Pos.owed_first (Nat.le_of_succ_le_succ (Nat.le_succ_of_le hr)) h h'
    have hreads := Pos.reads_first (Nat.le_of_succ_le_succ (Nat.le_succ_of_le hr)) h h'
    rw [UInt8.toNat_ofNat_of_lt' hlt, Pos.next, if_pos rfl, Pos.point, if_pos rfl, howed, Nat.add_sub_cancel]
    generalize Pos.first (c.val.toNat / 64 ^ (r + 1) + leadBase (r + 1)) = q at howed hreads
    cases q with
    | start | reject => cases howed
    | _ => exact foldl_trail result hreads howed

theorem foldl_chars (result : WStr) (cs : List Char) :
    (utf8 cs).foldl Decoding.next (inState result .start 0) = inState (result ++ utf16 cs) .start 0 := by
  induction cs generalizing result with
  | nil => rw [utf8_nil, utf16_nil, List.append_nil, List.foldl_nil]
  | cons c cs ih => rw [utf8_cons, List.foldl_append, foldl_char, ih, utf16_cons, List.append_assoc]

/-! ### Decoding any bytes -/

/-- After `n` bytes: characters, no more units than bytes, and a state that the bytes read allow. -/
def Decoded (n : Nat) (d : Decoding) : Prop :=
  ∃ cs q cp, d = inState (utf16 cs) q cp ∧ q.PointIn cp ∧ (utf16 cs).length + (if q = .start then 0 else 1) ≤ n

theorem utf16_concat (cs : List Char) (c : Char) : utf16 (cs ++ [c]) = utf16 cs ++ utf16EncodeChar c := by
  rw [utf16_append, utf16_cons, utf16_nil, List.append_nil]

theorem replacement_units : utf16EncodeChar (Char.ofNat 0xFFFD) = [0xFFFD] := by
  decide

theorem length_units_le (c : Char) :
    (utf16EncodeChar c).length ≤ 2 ∧ (c.val.toNat < 0x80 → (utf16EncodeChar c).length = 1) := by
  unfold utf16EncodeChar
  dsimp only
  split
  · exact ⟨Nat.le_succ 1, fun _ => rfl⟩
  · exact ⟨Nat.le_refl 2, fun h => by omega⟩

theorem Decoded.zero : Decoded 0 {} := ⟨[], .start, 0, rfl, rfl, Nat.le_refl 0⟩

/-- What a step to the first state appends. -/
theorem decoded_start {n : Nat} (cs : List Char) (c : Char)
    (h : (utf16 cs).length + (utf16EncodeChar c).length ≤ n) :
    Decoded n (inState (utf16 cs ++ utf16EncodeChar c) .start 0) := by
  refine ⟨cs ++ [c], .start, 0, by rw [utf16_concat], rfl, ?_⟩
  rw [utf16_concat, List.length_append]
  exact h

theorem Decoded.next {n : Nat} {d : Decoding} (h : Decoded n d) (b : UInt8) : Decoded (n + 1) (d.next b) := by
  obtain ⟨cs, q, cp, rfl, hpoint, hlen⟩ := h
  rw [next_of_point _ hpoint]
  cases hq : q.next b.toNat with
  | start =>
    obtain ⟨c, hc, hone⟩ := hpoint.complete hq
    have hunits := length_units_le c
    simp only [← hc, UInt32.ofNat_toNat, appendUnits_char]
    refine decoded_start cs c ?_
    split at hlen
    · have := hunits.2 (hone ‹_›)
      omega
    · omega
  | reject =>
    simp only [← replacement_units]
    refine decoded_start cs _ ?_
    rw [replacement_units]
    show _ + 1 ≤ n + 1
    omega
  | _ =>
    have hnext := hpoint.next b.toNat_lt (by rw [hq]; decide) (by rw [hq]; decide)
    rw [hq] at hnext
    refine ⟨cs, _, _, rfl, hnext, ?_⟩
    show _ + 1 ≤ n + 1
    omega

theorem Decoded.foldl {n : Nat} {d : Decoding} (h : Decoded n d) (s : Str) :
    Decoded (n + s.length) (s.foldl Decoding.next d) := by
  induction s generalizing n d with
  | nil => exact h
  | cons b s ih =>
    rw [List.length_cons, Nat.add_comm s.length 1, ← Nat.add_assoc]
    exact ih (h.next b)

/-- The result of `fromUtf8`, which ends in U+FFFD if the bytes end inside a character. -/
theorem fromUtf8_decoded (s : Str) : ∃ cs, fromUtf8 s = utf16 cs ∧ (utf16 cs).length ≤ s.length := by
  obtain ⟨cs, q, cp, hd, -, hlen⟩ := Decoded.zero.foldl s
  rw [Nat.zero_add] at hlen
  unfold fromUtf8
  dsimp only
  rw [hd]
  by_cases hq : q = .start
  · subst hq
    exact ⟨cs, if_neg (fun h => h rfl), hlen⟩
  · refine ⟨cs ++ [Char.ofNat 0xFFFD], ?_, ?_⟩
    · rw [utf16_concat, replacement_units]
      exact if_pos (fun h => hq (Pos.code_inj.1 h))
    · rw [if_neg hq] at hlen
      rw [utf16_concat, replacement_units, List.length_append]
      exact hlen

/-! ### Encoding -/

section
variable {c : Char} {u : UInt32}

theorem toUInt8_add {n b : Nat} (hu : u.toNat = n) (hb : b ≤ 0xFF) :
    (u + UInt32.ofNat b).toUInt8 = UInt8.ofNat (n + b) := by
  apply UInt8.toNat_inj.1
  rw [UInt32.toNat_toUInt8, UInt32.toNat_add, hu, UInt32.toNat_ofNat_of_lt' (by simp only [UInt32.size]; omega),
    UInt8.toNat_ofNat']
  omega

theorem shift_toNat (u s : UInt32) (hs : s.toNat < 32) : (u >>> s).toNat = u.toNat / 2 ^ s.toNat := by
  rw [UInt32.toNat_shiftRight, Nat.mod_eq_of_lt hs, Nat.shiftRight_eq_div_pow]

theorem mask_toNat (u m : UInt32) (k : Nat) (hm : m.toNat = 2 ^ k - 1) : (u &&& m).toNat = u.toNat % 2 ^ k := by
  rw [UInt32.toNat_and, hm, Nat.and_two_pow_sub_one_eq_mod]

/-- The first byte of several. -/
theorem lead_toUInt8 (u s : UInt32) {j b : Nat} (hs : s.toNat = 6 * j) (hj : j ≤ 3) (hb : b ≤ 0xFF) :
    ((u >>> s) + UInt32.ofNat b).toUInt8 = UInt8.ofNat (u.toNat / 64 ^ j + b) := by
  refine toUInt8_add ?_ hb
  rw [shift_toNat _ _ (by omega), hs, Nat.pow_mul]

/-- A byte in the middle. -/
theorem middle_toUInt8 (u m s : UInt32) {j : Nat} (hs : s.toNat = 6 * j) (hj : j ≤ 2)
    (hm : m.toNat = 2 ^ (6 * j + 6) - 1) :
    (((u &&& m) >>> s) + 128).toUInt8 = UInt8.ofNat (u.toNat / 64 ^ j % 64 + 0x80) := by
  refine toUInt8_add (b := 128) ?_ (by decide)
  rw [shift_toNat _ _ (by omega), mask_toNat _ _ _ hm, hs, Nat.pow_add, Nat.pow_mul]
  exact Nat.mod_mul_right_div_self _ _ _

theorem last_toUInt8 (u : UInt32) : ((u &&& 0x3F) + 128).toUInt8 = UInt8.ofNat (u.toNat / 64 ^ 0 % 64 + 0x80) := by
  refine toUInt8_add (b := 128) ?_ (by decide)
  rw [mask_toNat _ _ 6 rfl, Nat.pow_zero, Nat.div_one]
  rfl

theorem utf8Bytes_char (c : Char) : utf8Bytes c.val = some (String.utf8EncodeChar c) := by
  have hc := scalar c
  obtain ⟨r, hr, h, h'⟩ := exists_length c
  rw [encode_eq hr h h']
  unfold utf8Bytes
  simp only [UInt32.le_iff_toNat_le, UInt32.reduceToNat]
  match r with
  | 0 =>
    rw [if_pos (Nat.le_of_lt_succ h'), Nat.pow_zero, Nat.div_one]
    rfl
  | 1 =>
    simp only [least] at h h'
    rw [if_neg (by omega), if_pos (by omega), trail, trail, last_toUInt8,
      ← lead_toUInt8 c.val 6 (j := 1) rfl (by decide) (by decide)]
    rfl
  | 2 =>
    simp only [least] at h h'
    rw [if_neg (by omega), if_neg (by omega), if_pos (by omega), trail, trail, trail, last_toUInt8,
      middle_toUInt8 c.val 0xFFF 6 (j := 1) rfl (by decide) rfl,
      ← lead_toUInt8 c.val 12 (j := 2) rfl (by decide) (by decide)]
    rfl
  | 3 =>
    simp only [least] at h h'
    rw [if_neg (by omega), if_neg (by omega), if_neg (by omega), if_pos (by omega), trail, trail, trail, trail,
      last_toUInt8, middle_toUInt8 c.val 0xFFF 6 (j := 1) rfl (by decide) rfl,
      middle_toUInt8 c.val 0x3FFFF 12 (j := 2) rfl (by decide) rfl,
      ← lead_toUInt8 c.val 18 (j := 3) rfl (by decide) (by decide)]
    rfl

theorem appendUTF8_char (str : Str) (c : Char) : appendUTF8 str c.val = str ++ String.utf8EncodeChar c := by
  rw [appendUTF8, utf8Bytes_char]

theorem utf8Bytes_none (h : ¬ u.isValidChar) : utf8Bytes u = none := by
  have hu : ¬ (u.toNat < 0xD800 ∨ 0xDFFF < u.toNat ∧ u.toNat < 0x110000) := h
  unfold utf8Bytes
  simp only [UInt32.le_iff_toNat_le, UInt32.reduceToNat]
  rw [if_neg (by omega), if_neg (by omega), if_neg (by omega), if_neg (by omega)]

/-- Any word is appended as some character. -/
theorem exists_appended (str : Str) (u : UInt32) : ∃ c, appendUTF8 str u = str ++ String.utf8EncodeChar c := by
  by_cases h : u.isValidChar
  · exact ⟨⟨u, h⟩, appendUTF8_char str ⟨u, h⟩⟩
  · refine ⟨Char.ofNat 0xFFFD, ?_⟩
    rw [appendUTF8, utf8Bytes_none h]
    exact congrArg (str ++ Option.getD · []) (utf8Bytes_char (Char.ofNat 0xFFFD))

theorem isSurrogate_iff (d : UInt16) : isSurrogate d.toUInt32 = true ↔ 0xD800 ≤ d.toNat ∧ d.toNat ≤ 0xDFFF := by
  have hd := d.toNat_lt
  unfold isSurrogate inRange
  rw [decide_eq_true_iff, UInt32.lt_iff_toNat_lt, UInt32.toNat_sub, UInt16.toNat_toUInt32]
  simp only [UInt32.reduceSub, UInt32.reduceAdd, UInt32.reduceToNat]
  omega

/-- The upper bits decide which surrogates a unit is one of. -/
theorem upper_bits (d : UInt16) (k : Nat) (m u : UInt32) (hm : m.toNat = 0xFFFFFC00) (hu : u.toNat = k * 0x400) :
    (d.toUInt32 &&& m == u) = true ↔ d.toNat / 0x400 = k := by
  have hd := d.toNat_lt
  have hhigh : (d.toNat &&& 0xFFFFFC00) / 2 ^ 10 = d.toNat / 2 ^ 10 := by
    rw [← Nat.shiftRight_eq_div_pow, Nat.shiftRight_and_distrib, Nat.shiftRight_eq_div_pow,
      show 0xFFFFFC00 >>> 10 = 2 ^ 22 - 1 from rfl, Nat.and_two_pow_sub_one_eq_mod]
    omega
  have hlow : (d.toNat &&& 0xFFFFFC00) % 2 ^ 10 = 0 := by
    rw [Nat.and_mod_two_pow]
    exact Nat.and_zero _
  rw [beq_iff_eq, ← UInt32.toNat_inj, UInt32.toNat_and, UInt16.toNat_toUInt32, hm, hu]
  omega

theorem isHighSurrogate_iff (d : UInt16) : isHighSurrogate d.toUInt32 = true ↔ d.toNat / 0x400 = 0x36 :=
  upper_bits d 0x36 _ _ rfl rfl

theorem isLowSurrogate_iff (d : UInt16) : isLowSurrogate d.toUInt32 = true ↔ d.toNat / 0x400 = 0x37 :=
  upper_bits d 0x37 _ _ rfl rfl

theorem toUtf8From_unit (result : Str) {d : UInt16} (w : WStr) (h : ¬ isSurrogate d.toUInt32 = true) :
    toUtf8From result (d :: w) = toUtf8From (appendUTF8 result d.toUInt32) w := by
  cases w with
  | nil => rw [toUtf8From, toUtf8From, if_neg h]
  | cons e w => rw [toUtf8From, if_neg h]

theorem toUtf8From_char (result : Str) (c : Char) (w : WStr) :
    toUtf8From result (utf16EncodeChar c ++ w) = toUtf8From (result ++ String.utf8EncodeChar c) w := by
  have hc := scalar c
  unfold utf16EncodeChar
  dsimp only
  split
  case isTrue h =>
    have hunit : (UInt16.ofNat c.val.toNat).toNat = c.val.toNat :=
      UInt16.toNat_ofNat_of_lt' (by simp only [UInt16.size]; omega)
    have hval : (UInt16.ofNat c.val.toNat).toUInt32 = c.val := by
      apply UInt32.toNat_inj.1
      rw [UInt16.toNat_toUInt32, hunit]
    rw [List.singleton_append, toUtf8From_unit, hval, appendUTF8_char]
    rw [isSurrogate_iff, hunit]
    omega
  case isFalse h =>
    generalize hx : c.val.toNat - 0x10000 = x
    have hhigh : (UInt16.ofNat (x / 0x400 + 0xD800)).toNat = x / 0x400 + 0xD800 :=
      UInt16.toNat_ofNat_of_lt' (by simp only [UInt16.size]; omega)
    have hlow : (UInt16.ofNat (x % 0x400 + 0xDC00)).toNat = x % 0x400 + 0xDC00 :=
      UInt16.toNat_ofNat_of_lt' (by simp only [UInt16.size]; omega)
    have hval : ((UInt16.ofNat (x / 0x400 + 0xD800)).toUInt32 <<< 10) +
        (UInt16.ofNat (x % 0x400 + 0xDC00)).toUInt32 - 0x35FDC00 = c.val := by
      apply UInt32.toNat_inj.1
      rw [UInt32.toNat_sub, UInt32.toNat_add, UInt32.toNat_shiftLeft, UInt16.toNat_toUInt32, UInt16.toNat_toUInt32,
        hhigh, hlow, Nat.shiftLeft_eq]
      simp only [UInt32.reduceToNat, Nat.reduceMod, Nat.reducePow]
      omega
    rw [List.cons_append, List.cons_append, List.nil_append, toUtf8From, if_pos, if_pos, hval, appendUTF8_char]
    · rw [Bool.and_eq_true, isHighSurrogate_iff, isLowSurrogate_iff, hhigh, hlow]
      omega
    · rw [isSurrogate_iff, hhigh]
      omega

theorem toUtf8From_chars (result : Str) (cs : List Char) : toUtf8From result (utf16 cs) = result ++ utf8 cs := by
  induction cs generalizing result with
  | nil => rw [utf16_nil, toUtf8From, utf8_nil, List.append_nil]
  | cons c cs ih => rw [utf16_cons, toUtf8From_char, ih, utf8_cons, List.append_assoc]

theorem toUtf8_utf16 (cs : List Char) : toUtf8 (utf16 cs) = utf8 cs := toUtf8From_chars [] cs

theorem toUtf8From_decoded (ds : List Char) (w : WStr) : ∃ cs, toUtf8From (utf8 ds) w = utf8 cs := by
  have happend : ∀ ds u, ∃ cs, appendUTF8 (utf8 ds) u = utf8 cs := by
    intro ds u
    obtain ⟨c, hc⟩ := exists_appended (utf8 ds) u
    exact ⟨ds ++ [c], by rw [hc, utf8_append, utf8_cons, utf8_nil, List.append_nil]⟩
  generalize hr : utf8 ds = result
  induction result, w using toUtf8From.induct generalizing ds with
  | case1 result => exact ⟨ds, by rw [toUtf8From, hr]⟩
  | case2 result c hs =>
    rw [toUtf8From, if_pos hs, ← hr]
    exact happend ds _
  | case3 result c hs =>
    rw [toUtf8From, if_neg hs, ← hr]
    exact happend ds _
  | case4 result c d rest hs hpair ih =>
    obtain ⟨es, hes⟩ := happend ds ((c.toUInt32 <<< 10) + d.toUInt32 - 0x35FDC00)
    rw [toUtf8From, if_pos hs, if_pos hpair]
    exact ih es (by rw [← hes, hr])
  | case5 result c d rest hs hpair ih =>
    obtain ⟨es, hes⟩ := happend ds 0xFFFD
    rw [toUtf8From, if_pos hs, if_neg hpair]
    exact ih es (by rw [← hes, hr])
  | case6 result c d rest hs ih =>
    obtain ⟨es, hes⟩ := happend ds c.toUInt32
    rw [toUtf8From, if_neg hs]
    exact ih es (by rw [← hes, hr])

end

/-! ### Round trips -/

theorem fromUtf8_utf8 (cs : List Char) : fromUtf8 (utf8 cs) = utf16 cs := by
  have hd := foldl_chars [] cs
  unfold fromUtf8
  dsimp only
  rw [show ({} : Decoding) = inState [] .start 0 from rfl, hd, List.nil_append]
  exact if_neg (fun h => h rfl)

/-- Text survives the way to UTF-16 and back, and the other way round. -/
theorem transcode_round_trip (cs : List Char) :
    fromUtf8 (utf8 cs) = utf16 cs ∧ toUtf8 (utf16 cs) = utf8 cs :=
  ⟨fromUtf8_utf8 cs, toUtf8_utf16 cs⟩

/-- The way back undoes `fromUtf8` on UTF-8 only: anything else has become text. -/
theorem toUtf8_fromUtf8_eq_iff (s : Str) :
    (fromUtf8 s).length ≤ s.length ∧ (∃ cs, fromUtf8 s = utf16 cs) ∧
      (toUtf8 (fromUtf8 s) = s ↔ ∃ cs, s = utf8 cs) := by
  obtain ⟨cs, hcs, hlen⟩ := fromUtf8_decoded s
  refine ⟨hcs ▸ hlen, ⟨cs, hcs⟩, ?_, ?_⟩
  · intro h
    rw [hcs, toUtf8_utf16] at h
    exact ⟨cs, h.symm⟩
  · rintro ⟨ds, rfl⟩
    rw [fromUtf8_utf8, toUtf8_utf16]

theorem fromUtf8_toUtf8_eq_iff (w : WStr) :
    (∃ cs, toUtf8 w = utf8 cs) ∧ (fromUtf8 (toUtf8 w) = w ↔ ∃ cs, w = utf16 cs) := by
  refine ⟨toUtf8From_decoded [] w, ?_, ?_⟩
  · intro h
    obtain ⟨cs, hcs, -⟩ := fromUtf8_decoded (toUtf8 w)
    exact ⟨cs, h.symm.trans hcs⟩
  · rintro ⟨cs, rfl⟩
    rw [toUtf8_utf16, fromUtf8_utf8]

/-! ### Damaged text -/

theorem appendUnits_append (pre result : WStr) (u : UInt32) :
    appendUnits (pre ++ result) u = pre ++ appendUnits result u := by
  unfold appendUnits
  split <;> exact List.append_assoc ..

/-- What is decoded already is left alone. -/
theorem next_append (pre : WStr) (d : Decoding) (b : UInt8) :
    ({ d with result := pre ++ d.result } : Decoding).next b =
      { d.next b with result := pre ++ (d.next b).result } := by
  unfold Decoding.next
  dsimp only
  split
  · rw [appendUnits_append]
  · split
    · rw [List.append_assoc]
    · rfl

theorem foldl_append (pre : WStr) (d : Decoding) (s : Str) :
    s.foldl Decoding.next { d with result := pre ++ d.result } =
      { s.foldl Decoding.next d with result := pre ++ (s.foldl Decoding.next d).result } := by
  induction s generalizing d with
  | nil => rfl
  | cons b s ih =>
    rw [List.foldl_cons, next_append]
    exact ih _

theorem foldl_prefix {r r' : WStr} {q' : Pos} {cp' : Nat} (pre : WStr) {s : Str}
    (h : s.foldl Decoding.next (inState r q cp) = inState r' q' cp') :
    s.foldl Decoding.next (inState (pre ++ r) q cp) = inState (pre ++ r') q' cp' := by
  have happend := foldl_append pre (inState r q cp) s
  rw [h] at happend
  exact happend

/-- Bytes that may not come first are lost one by one. -/
theorem foldl_stray (result : WStr) (r v : Nat) :
    ∃ ds, (trail r v).foldl Decoding.next (inState result .start 0) = inState (result ++ utf16 ds) .start 0 := by
  induction r generalizing result with
  | zero => exact ⟨[], by rw [utf16_nil, List.append_nil]; rfl⟩
  | succ r ih =>
    have hbyte : (UInt8.ofNat (v / 64 ^ r % 64 + 0x80)).toNat = v / 64 ^ r % 64 + 0x80 :=
      UInt8.toNat_ofNat_of_lt' (by simp only [UInt8.size]; omega)
    have hfirst : Pos.first (v / 64 ^ r % 64 + 0x80) = .reject := by
      rw [Pos.first, if_neg (by omega), if_pos (by omega)]
    obtain ⟨ds, hds⟩ := ih (result ++ utf16EncodeChar (Char.ofNat 0xFFFD))
    refine ⟨Char.ofNat 0xFFFD :: ds, ?_⟩
    rw [trail, List.foldl_cons, next_of_point result (show Pos.start.PointIn 0 from rfl), hbyte, Pos.next, if_pos rfl, hfirst,
      utf16_cons, ← List.append_assoc, ← hds, replacement_units]

/-- A first byte is not one of those that follow it. -/
theorem lead_range (hr : r ≤ 3) (h : least r ≤ c.val.toNat) (h' : c.val.toNat < least (r + 1)) :
    (UInt8.ofNat (c.val.toNat / 64 ^ r + leadBase r)).toNat < 0x80 ∨
      0xBF < (UInt8.ofNat (c.val.toNat / 64 ^ r + leadBase r)).toNat := by
  rw [UInt8.toNat_ofNat']
  match r with
  | 0 | 1 | 2 | 3 =>
    simp only [least, leadBase, Nat.reduceAdd, Nat.reducePow] at h h' ⊢
    omega

/-- A character brings every state back to the first one. -/
theorem foldl_char_resync (result : WStr) (h : q.PointIn cp) (c : Char) :
    ∃ ds, (String.utf8EncodeChar c).foldl Decoding.next (inState result q cp) =
      inState (result ++ utf16 ds) .start 0 := by
  by_cases hq : q = .start
  · subst hq
    obtain rfl : cp = 0 := h
    exact ⟨[c], by rw [foldl_char, utf16_cons, utf16_nil, List.append_nil]⟩
  obtain ⟨r, hr, hleast, hlt⟩ := exists_length c
  -- a first byte is outside the range of every state but the first
  have hreject : q.next (UInt8.ofNat (c.val.toNat / 64 ^ r + leadBase r)).toNat = .reject := by
    have hbyte := lead_range hr hleast hlt
    have hrange : 0x80 ≤ q.lowest ∧ q.highest ≤ 0xBF := by
      cases q <;> decide
    rw [Pos.next, if_neg hq, if_neg (by omega)]
  obtain ⟨ds, hds⟩ := foldl_stray (result ++ utf16EncodeChar (Char.ofNat 0xFFFD)) r c.val.toNat
  refine ⟨Char.ofNat 0xFFFD :: ds, ?_⟩
  rw [encode_eq hr hleast hlt, List.foldl_cons, next_of_point result h, hreject, utf16_cons, ← List.append_assoc,
    ← hds, replacement_units]

/-- Damage stays where it is: what precedes it is decoded, and what follows from the second character on. -/
theorem damage_local (s : Str) (c : Char) :
    ∃ mid, ∀ as cs, fromUtf8 (utf8 as ++ s ++ utf8 (c :: cs)) = utf16 (as ++ mid ++ cs) := by
  obtain ⟨ds, q, cp, hd, hpoint, -⟩ := Decoded.zero.foldl s
  obtain ⟨es, hes⟩ := foldl_char_resync (utf16 ds) hpoint c
  refine ⟨ds ++ es, fun as cs => ?_⟩
  have hrun : (utf8 as ++ s ++ utf8 (c :: cs)).foldl Decoding.next (inState [] .start 0) =
      inState (utf16 (as ++ (ds ++ es) ++ cs)) .start 0 := by
    have hs := foldl_prefix (utf16 as) (show s.foldl Decoding.next (inState [] .start 0) = inState (utf16 ds) q cp from hd)
    rw [List.append_nil] at hs
    rw [List.append_assoc, utf8_cons, List.foldl_append, foldl_chars, List.nil_append, List.foldl_append, hs,
      List.foldl_append, foldl_prefix (utf16 as) hes, foldl_chars, utf16_append, utf16_append, utf16_append,
      ← List.append_assoc]
  unfold fromUtf8
  dsimp only
  rw [show ({} : Decoding) = inState [] .start 0 from rfl, hrun]
  exact if_neg (fun h => h rfl)

end
end CcTools.Fs
