import CcTools.PathNames

/-!
# Putting paths together

To append a path without a root is to write it behind the other, with a separator between the two where
the other has a file name (`append_plain`). The elements of a path, appended one after the other, are the
path again, but `/=` puts no separator behind a colon (`foldl_append_iff`).
-/

namespace CcTools.Path
variable {s t c p x : Path} {L : List Path} {i : Nat}

/-! ### The file name -/

theorem lt_increment (hi : i < s.length) : i < increment s i := by
  rw [increment, if_neg (Nat.ne_of_lt hi)]
  split
  · dsimp only
    split
    · next h =>
      have hle : i + 1 + 1 ≤ s.length := Nat.lt_of_le_of_ne hi h.1
      have := findSep_bounds hle
      split <;> omega
    · exact Nat.lt_succ_self i
  · exact (findSep_bounds hi).1

theorem postprocess_ne_nil (h : s ≠ []) : postprocess s ≠ [] := by
  unfold postprocess
  split
  · next hd =>
    have := hd.length_take
    refine List.append_ne_nil_of_left_ne_nil ?_ _
    rw [← List.length_pos_iff]
    omega
  · exact unique_ne_nil h

theorem root_lt_of_hasRelativePath (h : HasRelativePath s) : s.length - 1 ≠ root s := by
  rw [HasRelativePath, rootPathLen] at h
  unfold root
  split at h
  · rw [if_pos (by assumption)]
    omega
  · rw [if_neg (by assumption)]
    omega

/-- The file name is empty where a separator stands at the end. -/
theorem filename_eq_nil_iff (h : HasRelativePath s) : filename s = [] ↔ IsSep s (s.length - 1) := by
  have hroot := root_lt_of_hasRelativePath h
  have hpos : 0 < s.length := Nat.zero_lt_of_lt h
  rw [filename, if_pos h, decrement, if_neg (by omega)]
  dsimp only
  by_cases hsep : IsSep s (s.length - 1)
  · have hlast : s.length - 1 ≠ 0 := by
      intro h0
      rw [h0] at hsep
      rw [HasRelativePath, rootPathLen] at h
      rcases rootNameLength_cases s with hlen | ⟨hd, -⟩
      · have hdir : HasRootDirectory s := by
          rw [HasRootDirectory, hlen]
          exact ⟨hpos, hsep⟩
        rw [if_pos hdir] at h
        omega
      · have := hd.1
        omega
    rw [if_neg (fun hc => hc.2.elim (fun h => h rfl) (fun h => h hsep)), current, if_pos]
    · exact iff_of_true rfl hsep
    · exact .inr ⟨hlast, by omega, ⟨hsep, hroot⟩, by omega⟩
  · rw [if_pos ⟨hroot, .inr hsep⟩]
    have hle := behindSep_le (s := s) (i := s.length - 1)
    refine iff_of_false (fun hnil => ?_) hsep
    generalize hk : (if behindSep s (s.length - 1) = 2 ∧ IsSep s 0 ∧ IsSep s 1 then behindSep s (s.length - 1) - 2
      else behindSep s (s.length - 1)) = k at hnil
    have hlt : k < s.length := by
      split at hk <;> omega
    have hup := lt_increment hlt
    rw [current, if_neg] at hnil
    · refine postprocess_ne_nil ?_ hnil
      rw [← List.length_pos_iff, List.length_take, List.length_drop]
      omega
    · rintro (h | ⟨-, -, ⟨hk', -⟩, hlast⟩)
      · omega
      · exact hsep ((show k = s.length - 1 by omega) ▸ hk')

/-! ### Behind a path -/

/-- There is a file name: what is appended is no part of it. -/
def Closed (s : Path) : Prop := HasRelativePath s ∧ ¬ IsSep s (s.length - 1)

instance (s : Path) : Decidable (Closed s) := inferInstanceAs (Decidable (_ ∧ _))

theorem appendElements_false (hs : ¬ IsSep s (s.length - 1)) (hL : L ≠ []) :
    appendElements false s L = appendElements true (s ++ sep) L := by
  cases L with
  | nil => exact absurd rfl hL
  | cons x L =>
    have hlast : ¬ s.getLast? = some preferredSeparator := isSep_last_iff.not.1 hs
    simp only [appendElements, Bool.not_false, Bool.not_true, Bool.false_eq_true, true_and, false_and, if_false, if_pos hlast]

theorem not_isSep_last_append (hx : ∀ i, ¬ IsSep x i) (hne : x ≠ []) : ¬ IsSep (s ++ x) ((s ++ x).length - 1) := by
  have hpos := List.length_pos_iff.2 hne
  rw [List.length_append, Nat.add_sub_assoc hpos, isSep_append_right]
  exact hx _

theorem appendElements_names (h : Names c L) : appendElements true s L = s ++ c := by
  induction h generalizing s with
  | last => rfl
  | @next x c L hx hne rest ih =>
    have hstep : appendElements true s (x :: L) = appendElements false (s ++ x) L := rfl
    rw [hstep, appendElements_false (not_isSep_last_append hx hne) rest.ne_nil, ih]
    simp only [List.append_assoc, List.singleton_append]

theorem append_plain (hp : Plain p) (hne : p ≠ []) : append s p = (if Closed s then s ++ sep else s) ++ p := by
  obtain ⟨L, -, hL⟩ := hp.exists_names
  have hname : HasRelativePath s ∧ filename s ≠ [] ↔ Closed s := by
    refine and_congr_right fun h => ?_
    rw [ne_eq, filename_eq_nil_iff h]
  have hiff : (¬ HasRootDirectory s ∧ HasRootDirectory s ∨ HasRelativePath s ∧ filename s ≠ []) ↔ Closed s := by
    rw [hname]
    exact or_iff_right fun h => h.1 h.2
  rw [append, if_neg hne, if_neg]
  · dsimp only
    rw [if_neg hp.not_hasRootDirectory, hp.rootNameLength_eq, if_neg (Nat.lt_irrefl 0), hL.elements hp, if_neg hne,
      appendElements_names hL]
    simp only [hiff]
  · rw [hp.rootNameLength_eq]
    rintro (h | h)
    · exact hp.not_hasRootDirectory h.1
    · exact Nat.lt_irrefl 0 h.1

theorem append_nil (s : Path) : append s [] =
    if s ≠ [] ∧ ¬ IsSep s (s.length - 1) ∧ s.getLast? ≠ some 0x3A then s ++ sep else s := by
  rw [append, if_pos rfl]
  simp only [isSep_last_iff]

/-! ### What a path keeps when something is written behind it -/

theorem Normal.append (hs : Normal s) (hx : ∀ i, IsSep x i → ¬ IsSep x (i + 1))
    (hmid : ¬ (IsSep s (s.length - 1) ∧ IsSep x 0)) : Normal (s ++ x) := by
  intro i hi hsucc
  rcases Nat.lt_trichotomy (i + 1) s.length with hlt | heq | hgt
  · rw [isSep_append_left (Nat.lt_of_succ_lt hlt)] at hi
    rw [isSep_append_left hlt] at hsucc
    obtain ⟨rfl, hlen, h0, h1, h2⟩ := hs i hi hsucc
    refine ⟨rfl, ?_, (isSep_append_left (by omega)).2 h0, (isSep_append_left (by omega)).2 h1, ?_⟩
    · rw [List.length_append]
      omega
    · rw [isSep_append_left hlen]
      exact h2
  · rw [isSep_append_left (by omega)] at hi
    rw [heq, ← Nat.add_zero s.length, isSep_append_right] at hsucc
    exact absurd ⟨(show i = s.length - 1 by omega) ▸ hi, hsucc⟩ hmid
  · obtain ⟨m, rfl⟩ := Nat.exists_eq_add_of_le (Nat.le_of_lt_succ hgt)
    rw [isSep_append_right] at hi
    rw [Nat.add_assoc, isSep_append_right] at hsucc
    exact absurd hsucc (hx m hi)

theorem Doubled.append (h : Doubled s) (t : Path) : Doubled (s ++ t) := by
  obtain ⟨hlen, h0, h1, h2⟩ := h
  refine ⟨?_, (isSep_append_left (by omega)).2 h0, (isSep_append_left (by omega)).2 h1, ?_⟩
  · rw [List.length_append]
    omega
  · rw [isSep_append_left hlen]
    exact h2

theorem HasRelativePath.rootNameLength_lt (h : HasRelativePath s) : rootNameLength s < s.length := by
  rw [HasRelativePath, rootPathLen] at h
  omega

/-- The root stays where it is, if there is anything behind it. -/
theorem rootNameLength_append (hs : Normal s) (h : HasRelativePath s) (t : Path) :
    rootNameLength (s ++ t) = rootNameLength s := by
  have hlt := h.rootNameLength_lt
  by_cases hd : Doubled s
  · have hget : (s ++ t).getD 2 0 = s.getD 2 0 := by
      rw [List.getD_eq_getElem?_getD, List.getElem?_append_left hd.1, ← List.getD_eq_getElem?_getD]
    unfold rootNameLength at hlt ⊢
    rw [hget]
    simp only [hd, hd.append t, true_and] at hlt ⊢
    split at hlt
    · rw [if_pos (by assumption), if_pos (by assumption)]
      have hbounds := findSep_bounds (s := s) (p := 3) hd.1
      refine findSep_eq hbounds.1 ?_ (fun j h3 hj => ?_) fun _ => ?_
      · rw [List.length_append]
        omega
      · rw [isSep_append_left (by omega)]
        exact not_isSep_of_lt_findSep h3 hj
      · rw [isSep_append_left hlt]
        exact isSep_findSep hlt
    · rw [if_neg (by assumption), if_neg (by assumption)]
  · have hd' : ¬ Doubled (s ++ t) := by
      rintro ⟨-, h0, h1, -⟩
      rw [isSep_append_left (Nat.zero_lt_of_lt hlt)] at h0
      have hlen : rootNameLength s = 0 := (rootNameLength_cases s).resolve_right fun h => hd h.1
      have hdir : HasRootDirectory s := by
        rw [HasRootDirectory, hlen]
        exact ⟨Nat.zero_lt_of_lt hlt, h0⟩
      rw [HasRelativePath, rootPathLen, if_pos hdir, hlen] at h
      rw [isSep_append_left h] at h1
      exact hd (hs 0 h0 h1).2
    rw [rootNameLength, if_neg (fun hc => hd' hc.1), rootNameLength, if_neg (fun hc => hd hc.1)]

theorem hasRootDirectory_append_iff (hs : Normal s) (h : HasRelativePath s) (t : Path) :
    HasRootDirectory (s ++ t) ↔ HasRootDirectory s := by
  have hlt := h.rootNameLength_lt
  rw [HasRootDirectory, HasRootDirectory, rootNameLength_append hs h, isSep_append_left hlt, List.length_append]
  exact and_congr_left fun _ => iff_of_true (Nat.lt_add_right _ hlt) hlt

theorem HasRelativePath.append (h : HasRelativePath s) (hs : Normal s) (t : Path) : HasRelativePath (s ++ t) := by
  rw [HasRelativePath, rootPathLen, rootNameLength_append hs h]
  simp only [hasRootDirectory_append_iff hs h]
  rw [List.length_append]
  exact Nat.lt_add_right _ h

/-! ### Element by element -/

/-- A separator behind a colon at the end is left out. -/
def tidy (s : Path) : Path := if [0x3A, preferredSeparator] <:+ s then s.dropLast else s

theorem isSep_last_of_suffix (h : [0x3A, preferredSeparator] <:+ s) : IsSep s (s.length - 1) := by
  obtain ⟨t, rfl⟩ := h
  rw [List.length_append]
  exact isSep_append_right.2 rfl

theorem tidy_of_not_isSep (h : ¬ IsSep s (s.length - 1)) : tidy s = s := if_neg fun hc => h (isSep_last_of_suffix hc)

theorem colon_sep_suffix_iff : [0x3A, preferredSeparator] <:+ s ++ sep ↔ s.getLast? = some 0x3A := by
  rw [← List.reverse_prefix, List.reverse_append]
  show [preferredSeparator, 0x3A] <+: preferredSeparator :: s.reverse ↔ _
  rw [List.cons_prefix_cons, and_iff_right rfl, ← List.head?_reverse]
  cases s.reverse with
  | nil => simp
  | cons c s => simp [eq_comm]

theorem tidy_eq_iff (s : Path) : tidy s = s ↔ ¬ [0x3A, preferredSeparator] <:+ s := by
  unfold tidy
  split
  · next h =>
    refine iff_of_false (fun heq => ?_) (not_not_intro h)
    have hlen := congrArg List.length heq
    have := h.length_le
    rw [List.length_dropLast] at hlen
    simp only [List.length_cons, List.length_nil] at this
    omega
  · next h => exact iff_of_true rfl h

theorem Closed.append_nil_eq (h : Closed s) : append s [] = tidy (s ++ sep) := by
  have hne : s ≠ [] := by
    rintro rfl
    exact not_hasRelativePath_nil h.1
  rw [append_nil, tidy]
  simp only [colon_sep_suffix_iff, List.dropLast_concat]
  by_cases hcolon : s.getLast? = some 0x3A
  · rw [if_neg (fun hc => hc.2.2 hcolon), if_pos hcolon]
  · rw [if_pos ⟨hne, h.2, hcolon⟩, if_neg hcolon]

theorem Closed.append_name (h : Closed s) (hs : Normal s) (hx : ∀ i, ¬ IsSep x i) (hne : x ≠ []) :
    append s x = s ++ sep ++ x ∧ Normal (s ++ sep ++ x) ∧ Closed (s ++ sep ++ x) := by
  have hname : append s x = s ++ sep ++ x := by
    rw [append_plain (plain_of_forall_not_isSep hx) hne, if_pos h]
  rw [hname, List.append_assoc]
  refine ⟨rfl, hs.append (fun i _ hi => hx i (isSep_cons_succ.1 hi)) (fun hc => h.2 hc.1), h.1.append hs _, ?_⟩
  rw [← List.append_assoc]
  exact not_isSep_last_append hx hne

theorem foldl_append_closed (hL : Names c L) (hs : Normal s) (h : Closed s) :
    L.foldl append s = tidy (s ++ sep ++ c) := by
  induction hL generalizing s with
  | @last x hx =>
    rw [List.foldl_cons, List.foldl_nil]
    by_cases hne : x = []
    · rw [hne, List.append_nil, h.append_nil_eq]
    · obtain ⟨heq, -, hclosed⟩ := h.append_name hs hx hne
      rw [heq, tidy_of_not_isSep hclosed.2]
  | @next x c L hx hne rest ih =>
    obtain ⟨heq, hs', hclosed⟩ := h.append_name hs hx hne
    rw [List.foldl_cons, heq, ih hs' hclosed]
    simp only [List.append_assoc, List.cons_append, List.nil_append]

/-- A path behind which names are written as they are. -/
structure Open (s : Path) : Prop where
  not_closed : ¬ Closed s
  closed_append : ∀ x, (∀ i, ¬ IsSep x i) → x ≠ [] → Normal (s ++ x) ∧ Closed (s ++ x)

theorem Open.append_name (h : Open s) (hx : ∀ i, ¬ IsSep x i) (hne : x ≠ []) : append s x = s ++ x := by
  rw [append_plain (plain_of_forall_not_isSep hx) hne, if_neg h.not_closed]

theorem Open.foldl_append (h : Open s) (hL : Names c L) (hc : c ≠ []) : L.foldl append s = tidy (s ++ c) := by
  cases hL with
  | last hx =>
    rw [List.foldl_cons, List.foldl_nil, h.append_name hx hc, tidy_of_not_isSep (h.closed_append c hx hc).2.2]
  | @next x c L hx hne rest =>
    obtain ⟨hs, hclosed⟩ := h.closed_append x hx hne
    rw [List.foldl_cons, h.append_name hx hne, foldl_append_closed rest hs hclosed]
    simp only [List.append_assoc, List.singleton_append]

theorem Plain.hasRelativePath (hc : Plain c) (hne : c ≠ []) : HasRelativePath c := by
  rw [HasRelativePath, rootPathLen, hc.rootNameLength_eq, if_neg hc.not_hasRootDirectory]
  exact List.length_pos_iff.2 hne

theorem Plain.hasRelativePath_sep_append (hc : Plain c) (hne : c ≠ []) : HasRelativePath (sep ++ c) := by
  rw [HasRelativePath, rootPathLen, hc.rootNameLength_sep_append, if_pos hc.hasRootDirectory_sep_append]
  exact Nat.succ_lt_succ (List.length_pos_iff.2 hne)

theorem hasRelativePath_network_iff (hne : x ≠ []) (hx : ∀ i, ¬ IsSep x i) (hp : isPrint (x.head hne)) (c : Path) :
    HasRelativePath (sep ++ sep ++ x ++ (sep ++ c)) ↔ c ≠ [] := by
  rw [HasRelativePath, rootPathLen, rootNameLength_host hne hx (.inr (isSep_sep_append c)), if_pos hp,
    if_pos (hasRootDirectory_network hne hx c), ← List.length_pos_iff]
  simp only [List.length_append, List.length_cons, List.length_nil]
  omega

/-- The name of a host that is not printed is no root. -/
theorem hasRelativePath_host (hne : x ≠ []) (hx : ∀ i, ¬ IsSep x i) (hp : ¬ isPrint (x.head hne)) :
    HasRelativePath (sep ++ sep ++ x) := by
  have hpos := List.length_pos_iff.2 hne
  have hlen := rootNameLength_host hne hx (.inl rfl)
  rw [List.append_nil, if_neg hp] at hlen
  rw [HasRelativePath, rootPathLen, hlen, length_host]
  split <;> omega

theorem open_nil : Open [] where
  not_closed h := not_hasRelativePath_nil h.1
  closed_append _ hx hne :=
    ⟨normal_of_forall_not_isSep hx, (plain_of_forall_not_isSep hx).hasRelativePath hne, not_isSep_last_append (s := []) hx hne⟩

theorem not_hasRelativePath_sep : ¬ HasRelativePath sep := by decide

theorem open_sep : Open sep where
  not_closed h := not_hasRelativePath_sep h.1
  closed_append x hx hne := by
    refine ⟨?_, (plain_of_forall_not_isSep hx).hasRelativePath_sep_append hne, not_isSep_last_append hx hne⟩
    exact Normal.append (fun i _ hi => absurd hi (by simp)) (fun i hi => absurd hi (hx i)) (fun h => hx 0 h.2)

theorem open_host (hne : x ≠ []) (hx : ∀ i, ¬ IsSep x i) (hp : isPrint (x.head hne)) : Open (sep ++ sep ++ x ++ sep) where
  not_closed h := by
    have hrel := h.1
    rw [show sep ++ sep ++ x ++ sep = sep ++ sep ++ x ++ (sep ++ []) from rfl, hasRelativePath_network_iff hne hx hp] at hrel
    exact hrel rfl
  closed_append y hy hne' := by
    rw [List.append_assoc]
    refine ⟨(normal_host hne hx).append (fun i _ hi => hy i (isSep_cons_succ.1 hi)) ?_,
      (hasRelativePath_network_iff hne hx hp y).2 hne', ?_⟩
    · exact fun h => not_isSep_last_append hx hne h.1
    · rw [← List.append_assoc]
      exact not_isSep_last_append hy hne'

theorem append_nil_host (hne : x ≠ []) (hx : ∀ i, ¬ IsSep x i) : append [] (sep ++ sep ++ x) = sep ++ sep ++ x := by
  rw [append, if_neg (by simp), if_pos]
  by_cases hp : isPrint (x.head hne)
  · obtain ⟨hlen, hname, -, -⟩ := only_host hne hx hp
    refine .inr ⟨by rw [hlen]; exact Nat.succ_pos _, ?_⟩
    have hcompare : StringUtils.compare (sep ++ sep ++ x) [] = (sep ++ sep ++ x).length := by
      rw [StringUtils.compare, List.zip_nil_right]
      simp
    have hpos : ((sep ++ sep ++ x).length : Int) ≠ 0 := Int.natCast_ne_zero.2 (Nat.succ_ne_zero _)
    rw [hname, show rootName [] = [] from rfl, compare]
    rw [hlen, List.take_length, List.take_nil, hcompare, if_pos hpos]
    exact hpos
  · refine .inl ⟨(hasRootDirectory_host_iff hne hx).2 hp, .inr ?_⟩
    simp

theorem append_host_sep (hne : x ≠ []) (hx : ∀ i, ¬ IsSep x i) (hp : isPrint (x.head hne)) :
    append (sep ++ sep ++ x) sep = sep ++ sep ++ x ++ sep := by
  obtain ⟨-, hname, -, -⟩ := only_host hne hx hp
  have hdir : HasRootDirectory sep := by decide
  have helems : elements sep = [sep] := by decide
  rw [append, if_neg (by simp), if_neg, hname, if_pos hdir, if_neg (by decide), helems]
  · rfl
  · rintro (⟨-, h | h⟩ | h)
    · exact h hname.symm
    · exact h rfl
    · exact absurd h.1 (by decide)

/-- The elements, appended one after the other, are the path again, unless a colon stands before a last separator
that is not the root. -/
theorem foldl_append_iff (text : Str) :
    let s := postprocess text
    (elements s).foldl append [] = s ↔ ¬ (HasRelativePath s ∧ [0x3A, preferredSeparator] <:+ s) := by
  intro s
  have hs : Normal s := normal_postprocess text
  generalize s = s at hs ⊢
  cases hs.layout with
  | relative hc =>
    obtain ⟨L, -, hL⟩ := hc.exists_names
    rw [hL.elements hc]
    split
    · next hnil =>
      subst hnil
      exact iff_of_true rfl fun h => not_hasRelativePath_nil h.1
    · next hne =>
      rw [open_nil.foldl_append hL hne, List.nil_append, tidy_eq_iff, and_iff_right (hc.hasRelativePath hne)]
  | @rooted c hc =>
    obtain ⟨L, -, hL⟩ := hc.exists_names
    rw [hL.elements_rooted hc hs, List.foldl_cons, show append [] sep = sep by decide]
    split
    · next hnil =>
      subst hnil
      exact iff_of_true rfl fun h => not_hasRelativePath_sep h.1
    · next hne =>
      rw [open_sep.foldl_append hL hne, tidy_eq_iff, and_iff_right (hc.hasRelativePath_sep_append hne)]
  | @host x hne hx =>
    rw [elements_host hne hx, List.foldl_cons, append_nil_host hne hx]
    exact iff_of_true rfl fun h => not_isSep_last_append hx hne (isSep_last_of_suffix h.2)
  | @network x c hne hx hc =>
    obtain ⟨L, -, hL⟩ := hc.exists_names
    rw [elements_network hne hx hL hc hs, List.foldl_cons, append_nil_host hne hx]
    by_cases hp : isPrint (x.head hne)
    · rw [if_pos hp, List.foldl_cons, append_host_sep hne hx hp, hasRelativePath_network_iff hne hx hp]
      split
      · next hnil =>
        subst hnil
        exact iff_of_true rfl fun h => h.1 rfl
      · next hne' =>
        rw [(open_host hne hx hp).foldl_append hL hne', List.append_assoc, tidy_eq_iff, and_iff_right hne']
    · have hclosed := hasRelativePath_host hne hx hp
      have hlast := not_isSep_last_append (s := sep ++ sep) hx hne
      rw [if_neg hp, foldl_append_closed hL (normal_host hne hx) ⟨hclosed, hlast⟩, List.append_assoc, tidy_eq_iff,
        and_iff_right (hclosed.append (normal_host hne hx) _)]

end CcTools.Path
