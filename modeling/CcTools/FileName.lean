import CcTools.PathAppend

/-!
# The file name of a path

The file name is what stands behind the last separator, unless that is the name of a host
(`filename_append_name`, `filename_host`). It is cut into stem and extension at its last dot.
-/

namespace CcTools.Path
variable {s d x : Path} {i : Nat}

/-! ### Names and separators -/

theorem unique_append (hx : ∀ i, ¬ IsSep x i) : unique (d ++ x) = unique d ++ x := by
  induction d using unique.induct with
  | case1 c e d hce ih =>
    rw [List.cons_append, List.cons_append, unique, if_pos hce, unique, if_pos hce]
    exact ih
  | case2 c e d hce ih =>
    rw [List.cons_append, List.cons_append, unique, if_neg hce, unique, if_neg hce, List.cons_append]
    exact congrArg _ ih
  | case3 d hd =>
    obtain rfl | ⟨c, rfl⟩ := nil_or_single hd
    · exact unique_eq_self fun i hi => absurd hi (hx i)
    · refine unique_eq_self fun i _ hsucc => ?_
      exact hx i (isSep_cons_succ.1 hsucc)

theorem getLast?_unique (s : Str) : (unique s).getLast? = s.getLast? := by
  induction s using unique.induct with
  | case1 c e s hce ih =>
    rw [unique, if_pos hce, ih, List.getLast?_cons_of_ne_nil (List.cons_ne_nil _ _)]
  | case2 c e s hce ih =>
    rw [unique, if_neg hce, List.getLast?_cons_of_ne_nil (unique_ne_nil (List.cons_ne_nil _ _)), ih,
      List.getLast?_cons_of_ne_nil (List.cons_ne_nil _ _)]
  | case3 s hs =>
    obtain rfl | ⟨c, rfl⟩ := nil_or_single hs
    · rfl
    · rfl

theorem getLast?_postprocess (s : Str) : (postprocess s).getLast? = s.getLast? := by
  unfold postprocess
  split
  · next h =>
    have hne : s.drop 2 ≠ [] := by
      have := h.1
      rw [← List.length_pos_iff, List.length_drop]
      omega
    rw [List.getLast?_append_of_ne_nil _ (unique_ne_nil hne), getLast?_unique]
    conv_rhs => rw [← List.take_append_drop 2 s, List.getLast?_append_of_ne_nil _ hne]
  · exact getLast?_unique s

theorem Doubled.two_le (h : Doubled (d ++ x)) (hx : ∀ i, ¬ IsSep x i) : 2 ≤ d.length := by
  by_contra hlt
  obtain ⟨m, hm⟩ := Nat.exists_eq_add_of_le (show d.length ≤ 1 by omega)
  have h1 := h.2.2.1
  rw [hm, isSep_append_right] at h1
  exact hx m h1

/-- What stands behind the last separator is kept, unless it is the name of a host. -/
theorem postprocess_append (hx : ∀ i, ¬ IsSep x i) (hhost : ¬ (d = sep ++ sep ∧ x ≠ [])) :
    postprocess (d ++ x) = postprocess d ++ x := by
  by_cases hd : Doubled (d ++ x)
  · have ⟨hlen, h0, h1, h2⟩ := hd
    have htwo := hd.two_le hx
    have hthree : 2 < d.length := by
      refine Nat.lt_of_le_of_ne htwo fun heq => ?_
      rw [isSep_append_left (by omega)] at h0 h1
      refine hhost ⟨eq_sep_sep heq.symm h0 h1, ?_⟩
      rintro rfl
      rw [List.append_nil] at hlen
      omega
    rw [isSep_append_left (by omega)] at h0 h1 h2
    rw [postprocess, if_pos hd, postprocess, if_pos ⟨hthree, h0, h1, h2⟩, List.take_append_of_le_length htwo,
      List.drop_append_of_le_length htwo, unique_append hx, List.append_assoc]
  · rw [postprocess, if_neg hd, postprocess, if_neg fun h => hd (h.append x), unique_append hx]

theorem behindSep_eq {k : Nat} (hk : k ≤ i) (hno : ∀ j, k ≤ j → j < i → ¬ IsSep s j) (hsep : 0 < k → IsSep s (k - 1)) :
    behindSep s i = k := by
  rcases Nat.lt_trichotomy (behindSep s i) k with hlt | heq | hgt
  · exact absurd (hsep (by omega)) (not_isSep_of_behindSep_le (i := i) (by omega) (by omega))
  · exact heq
  · have := behindSep_le (s := s) (i := i)
    have hsep' := isSep_behindSep (s := s) (i := i) (by omega)
    exact absurd hsep' (hno _ (by omega) (by omega))

/-- A name behind the root is not part of it. -/
theorem hasRelativePath_append_name (hd : d = [] ∨ IsSep d (d.length - 1)) (hx : ∀ i, ¬ IsSep x i) (hne : x ≠ [])
    (hhost : ¬ (Doubled (d ++ x) ∧ d.length = 2)) : HasRelativePath (d ++ x) := by
  have hpos := List.length_pos_iff.2 hne
  have hx0 := isSep_name (a := d) (b := []) (i := 0) hx hpos
  rw [List.append_nil, Nat.add_zero] at hx0
  rw [HasRelativePath, rootPathLen, List.length_append]
  rcases rootNameLength_cases (d ++ x) with hlen | ⟨hdoubled, hlen, h3, -⟩
  · rw [hlen]
    split
    · next hdir =>
      have hd0 : d.length ≠ 0 := by
        intro h0
        rw [HasRootDirectory, hlen] at hdir
        exact hx0 (h0 ▸ hdir.2)
      omega
    · omega
  · -- the name of the host ends before the last separator of `d`
    have hd2 := hdoubled.two_le hx
    obtain ⟨htwo, h0, h1, h2⟩ := hdoubled
    have hd3 : d.length ≠ 2 := fun h => hhost ⟨⟨htwo, h0, h1, h2⟩, h⟩
    have hsep : IsSep (d ++ x) (d.length - 1) := by
      rw [isSep_append_left (by omega)]
      refine hd.resolve_left ?_
      rintro rfl
      simp at hd2
    have hne2 : d.length - 1 ≠ 2 := fun h => h2 (h ▸ hsep)
    have hle : rootNameLength (d ++ x) ≤ d.length - 1 := by
      rw [hlen]
      by_contra hlt
      exact not_isSep_of_lt_findSep (p := 3) (by omega) (by omega) hsep
    split <;> omega

theorem filename_append_name (hs : Normal (d ++ x)) (hd : d = [] ∨ IsSep d (d.length - 1)) (hx : ∀ i, ¬ IsSep x i)
    (hhost : ¬ (Doubled (d ++ x) ∧ d.length = 2)) : filename (d ++ x) = x := by
  by_cases hne : x = []
  · subst hne
    rw [List.append_nil] at *
    by_cases hrel : HasRelativePath d
    · rw [filename_eq_nil_iff hrel]
      refine hd.resolve_left ?_
      rintro rfl
      exact not_hasRelativePath_nil hrel
    · rw [filename, if_neg hrel]
  · have hrel := hasRelativePath_append_name hd hx hne hhost
    have hroot := root_lt_of_hasRelativePath hrel
    have hlast := not_isSep_last_append (s := d) hx hne
    have hpos := List.length_pos_iff.2 hne
    have hlen : (d ++ x).length = d.length + x.length := List.length_append
    have hback : behindSep (d ++ x) ((d ++ x).length - 1) = d.length := by
      refine behindSep_eq (by omega) (fun j hj _ => ?_) fun h => ?_
      · obtain ⟨m, rfl⟩ := Nat.exists_eq_add_of_le hj
        rw [isSep_append_right]
        exact hx m
      · rw [isSep_append_left (by omega)]
        exact hd.resolve_left (List.length_pos_iff.1 h)
    have hcur := current_name (a := d) (b := []) hx hne (.inl rfl)
    rw [List.append_nil] at hcur
    rw [filename, if_pos hrel, decrement, if_neg (by omega)]
    dsimp only
    rw [if_pos ⟨hroot, .inr hlast⟩, hback, if_neg, hcur]
    rintro ⟨htwo, h0, h1⟩
    exact hhost ⟨(hs 0 h0 h1).2, htwo⟩

theorem forall_not_isSep_iff : (∀ i, ¬ IsSep x i) ↔ preferredSeparator ∉ x := by
  rw [List.mem_iff_getElem?, not_exists]
  rfl

/-- A host that is printed is no file name; one that is not is taken for a file name with its separators. -/
theorem filename_host (hne : x ≠ []) (hx : ∀ i, ¬ IsSep x i) :
    filename (sep ++ sep ++ x) = if isPrint (x.head hne) then [] else sep ++ sep ++ x := by
  split
  · next hp =>
    have hrel : ¬ HasRelativePath (sep ++ sep ++ x) := by
      rw [HasRelativePath, rootPathLen, (only_host hne hx hp).1]
      exact Nat.not_lt.2 (Nat.le_add_right ..)
    rw [filename, if_neg hrel]
  · next hp =>
    have hpos := List.length_pos_iff.2 hne
    have hrel := hasRelativePath_host hne hx hp
    have hlast := not_isSep_last_append (s := sep ++ sep) hx hne
    have hback : behindSep (sep ++ sep ++ x) ((sep ++ sep ++ x).length - 1) = 2 := by
      rw [length_host]
      refine behindSep_eq (by omega) (fun j hj _ => ?_) fun _ => isSep_cons_succ.2 (isSep_cons_zero.2 rfl)
      obtain ⟨m, rfl⟩ := Nat.exists_eq_add_of_le hj
      exact (isSep_append_right (s := sep ++ sep)).not.2 (hx m)
    have hcur := current_host hne hx (.inl rfl) (normal_host hne hx)
    rw [List.append_nil] at hcur
    rw [filename, if_pos hrel, decrement, if_neg (by rw [length_host]; omega)]
    dsimp only
    rw [if_pos ⟨root_lt_of_hasRelativePath hrel, .inr hlast⟩, hback, if_pos, hcur]
    exact ⟨rfl, isSep_cons_zero.2 rfl, isSep_cons_succ.2 (isSep_cons_zero.2 rfl)⟩

/-! ### Stem and extension -/

theorem rfindDot_spec {fn : Str} (h : rfindDot fn = some i) :
    i < fn.length ∧ fn[i]? = some 0x2E ∧ ∀ j, i < j → fn[j]? ≠ some 0x2E := by
  obtain ⟨k, hk, rfl⟩ := Option.map_eq_some_iff.1 h
  obtain ⟨hlt, hdot, hbefore⟩ := List.findIdx?_eq_some_iff_getElem.1 hk
  have hlen : k < fn.length := by rwa [List.length_reverse] at hlt
  rw [List.getElem_reverse] at hdot
  refine ⟨by omega, List.getElem?_eq_some_iff.2 ⟨by omega, eq_of_beq hdot⟩, fun j hj hsome => ?_⟩
  obtain ⟨hjlt, hjdot⟩ := List.getElem?_eq_some_iff.1 hsome
  have hno := hbefore (fn.length - 1 - j) (by omega)
  rw [List.getElem_reverse] at hno
  simp only [show fn.length - 1 - (fn.length - 1 - j) = j by omega, hjdot, beq_self_eq_true,
    not_true_eq_false] at hno

theorem exists_last_name (s : Path) : ∃ d x, s = d ++ x ∧ (d = [] ∨ IsSep d (d.length - 1)) ∧ ∀ i, ¬ IsSep x i := by
  have hle := behindSep_le (s := s) (i := s.length)
  have hlen : (s.take (behindSep s s.length)).length = behindSep s s.length := by
    rw [List.length_take, Nat.min_eq_left hle]
  refine ⟨_, _, (List.take_append_drop (behindSep s s.length) s).symm, ?_, fun i hi => ?_⟩
  · by_cases h0 : behindSep s s.length = 0
    · rw [h0]
      exact .inl rfl
    · refine .inr ?_
      rw [hlen, isSep_take]
      exact ⟨by omega, isSep_behindSep (by omega)⟩
  · rw [isSep_drop] at hi
    exact not_isSep_of_behindSep_le (Nat.le_add_right ..) hi.lt hi

/-- A file name has no separators, but for that of a host which is not printed. -/
theorem filename_cases (hs : Normal s) : (∀ i, ¬ IsSep (filename s) i) ∨
    ∃ x, ∃ hne : x ≠ [], (∀ i, ¬ IsSep x i) ∧ ¬ isPrint (x.head hne) ∧ filename s = sep ++ sep ++ x := by
  obtain ⟨d, x, rfl, hd, hx⟩ := exists_last_name s
  by_cases hhost : Doubled (d ++ x) ∧ d.length = 2
  · obtain ⟨⟨hlen, h0, h1, h2⟩, heq⟩ := hhost
    have hne : x ≠ [] := by
      rw [List.length_append] at hlen
      rw [← List.length_pos_iff]
      omega
    rw [isSep_append_left (by omega)] at h0 h1
    obtain rfl := eq_sep_sep heq h0 h1
    rw [filename_host hne hx]
    split
    · exact .inl fun _ => isSep_nil
    · next hp => exact .inr ⟨x, hne, hx, hp, rfl⟩
  · rw [filename_append_name hs hd hx hhost]
    exact .inl hx

theorem normal_filename (hs : Normal s) : Normal (filename s) := by
  rcases filename_cases hs with hno | ⟨x, hne, hx, -, heq⟩
  · exact normal_of_forall_not_isSep hno
  · rw [heq]
    exact normal_host hne hx

/-- What stands before the last dot of a file name is the text of a path. -/
theorem normal_take_filename (hs : Normal s) (h : rfindDot (filename s) = some i) : Normal ((filename s).take i) := by
  obtain ⟨hlt, hdot, -⟩ := rfindDot_spec h
  rcases filename_cases hs with hno | ⟨x, hne, hx, hp, heq⟩
  · refine normal_of_forall_not_isSep fun j hj => ?_
    rw [isSep_take] at hj
    exact hno j hj.2
  · rw [heq] at hdot ⊢
    match i with
    | 0 => exact absurd (Option.some.inj hdot) (by decide)
    | 1 => exact absurd (Option.some.inj hdot) (by decide)
    | 2 =>
      refine absurd ?_ hp
      cases x with
      | nil => exact absurd rfl hne
      | cons c x =>
        obtain rfl : c = 0x2E := by simpa using hdot
        rfl
    | m + 3 =>
      have htake : (sep ++ sep ++ x).take (m + 3) = sep ++ sep ++ x.take (m + 1) := rfl
      rw [htake]
      refine normal_host ?_ fun j hj => ?_
      · rw [← List.length_pos_iff, List.length_take]
        have := List.length_pos_iff.2 hne
        omega
      · rw [isSep_take] at hj
        exact hx j hj.2

theorem extension_eq (hs : Normal s) : extension s = match rfindDot (filename s) with
    | some i => if i > 0 then (filename s).drop i else []
    | none => [] := by
  by_cases hrel : HasRelativePath s
  · have hfn : filename s = current s (decrement s s.length) := if_pos hrel
    rw [extension, if_pos hrel, ← hfn]
    dsimp only
    cases rfindDot (filename s) with
    | none => rfl
    | some i =>
      by_cases hpos : i > 0
      · exact congrArg (fun p => if i > 0 then p else []) ((normal_filename hs).drop hpos).postprocess_eq
      · simp only [if_neg hpos]
  · have hfn : filename s = [] := if_neg hrel
    rw [extension, if_neg hrel, hfn]
    rfl

theorem stem_eq (hs : Normal s) (hdots : filename s ≠ [0x2E, 0x2E]) : stem s = match rfindDot (filename s) with
    | some i => if i > 0 then (filename s).take i else filename s
    | none => filename s := by
  have hfn := (normal_filename hs).postprocess_eq
  rw [stem]
  by_cases hdot : filename s = [0x2E]
  · rw [if_neg (fun h => h.1 hdot), hfn, hdot]
    rfl
  · rw [if_pos ⟨hdot, hdots⟩]
    cases hi : rfindDot (filename s) with
    | none => exact hfn
    | some i =>
      dsimp only
      split
      · exact (normal_take_filename hs hi).postprocess_eq
      · exact hfn

/-- Stem and extension are the file name again, but for two dots; an extension has no dot but its first. -/
theorem stem_append_extension_iff (text : Str) :
    let s := postprocess text
    (stem s ++ extension s = filename s ↔ filename s ≠ [0x2E, 0x2E]) ∧
      (extension s = [] ∨ ∃ rest, extension s = 0x2E :: rest ∧ 0x2E ∉ rest) := by
  intro s
  have hs : Normal s := normal_postprocess text
  generalize s = s at hs ⊢
  have hext := extension_eq hs
  refine ⟨?_, ?_⟩
  · by_cases hdots : filename s = [0x2E, 0x2E]
    · refine iff_of_false ?_ (not_not_intro hdots)
      have hstem : stem s = [0x2E, 0x2E] := by
        rw [stem, if_neg (fun h => h.2 hdots), hdots]
        rfl
      rw [hext, hstem, hdots]
      decide
    · refine iff_of_true ?_ hdots
      rw [hext, stem_eq hs hdots]
      split
      · split
        · exact List.take_append_drop ..
        · exact List.append_nil _
      · exact List.append_nil _
  · rw [hext]
    split
    · next i hi =>
      obtain ⟨hlt, hdot, hafter⟩ := rfindDot_spec hi
      split
      · refine .inr ⟨(filename s).drop (i + 1), ?_, fun hmem => ?_⟩
        · rw [List.drop_eq_getElem_cons hlt, (List.getElem?_eq_some_iff.1 hdot).2]
        · obtain ⟨j, hj⟩ := List.mem_iff_getElem?.1 hmem
          rw [List.getElem?_drop] at hj
          exact hafter _ (by omega) hj
      · exact .inl rfl
    · exact .inl rfl

end CcTools.Path
