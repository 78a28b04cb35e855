import CcTools.FileName

/-!
# Absolute paths

`absolute` gives every path a root directory, and keeps a path that has one. The current path is one
separator and what may stand behind it.
-/

namespace CcTools.Path
variable {b c p x : Path} {i : Nat}

theorem Plain.not_isSep_succ (hc : Plain c) (h : IsSep c i) : ¬ IsSep c (i + 1) := hc.1.not_isSep_succ (hc.pos h) h

theorem Plain.not_isSep_succ_sep (hc : Plain c) (h : IsSep (sep ++ c) i) : ¬ IsSep (sep ++ c) (i + 1) := by
  cases i with
  | zero => exact fun hsucc => hc.2 (isSep_cons_succ.1 hsucc)
  | succ i => exact fun hsucc => hc.not_isSep_succ (isSep_cons_succ.1 h) (isSep_cons_succ.1 hsucc)

theorem Plain.append (hb : Plain b) (hne : b ≠ []) (hx : ∀ i, IsSep x i → ¬ IsSep x (i + 1))
    (hmid : ¬ (IsSep b (b.length - 1) ∧ IsSep x 0)) : Plain (b ++ x) := by
  refine ⟨hb.1.append hx hmid, ?_⟩
  rw [isSep_append_left (List.length_pos_iff.2 hne)]
  exact hb.2

theorem Plain.normal_sep_append (hc : Plain c) : Normal (sep ++ c) :=
  Normal.append (fun i _ hi => absurd hi (by simp)) (fun _ => hc.not_isSep_succ) (fun h => hc.2 h.2)

theorem normal_network (hne : x ≠ []) (hx : ∀ i, ¬ IsSep x i) (hc : Plain c) : Normal (sep ++ sep ++ x ++ (sep ++ c)) :=
  (normal_host hne hx).append (fun _ => hc.not_isSep_succ_sep) (fun h => not_isSep_last_append hx hne h.1)

/-! ### Behind the current path -/

theorem isSep_last_sep_append (hne : b ≠ []) : IsSep (sep ++ b) ((sep ++ b).length - 1) ↔ IsSep b (b.length - 1) := by
  have hpos := List.length_pos_iff.2 hne
  rw [show (sep ++ b).length - 1 = b.length - 1 + 1 from (Nat.sub_add_cancel hpos).symm]
  exact isSep_cons_succ

/-- What a name is written behind, a directory with a separator at its end. -/
theorem Plain.exists_dir (hb : Plain b) : ∃ d, (if Closed (sep ++ b) then sep ++ b ++ sep else sep ++ b) = sep ++ d ∧
    IsSep (sep ++ d) ((sep ++ d).length - 1) ∧ ∀ c, Plain c → Plain (d ++ c) := by
  by_cases hnil : b = []
  · subst hnil
    exact ⟨[], if_neg open_sep.not_closed, isSep_cons_zero.2 rfl, fun c hc => hc⟩
  · have hlast := isSep_last_sep_append hnil
    by_cases hclosed : Closed (sep ++ b)
    · refine ⟨b ++ sep, if_pos hclosed, ?_, fun c hc => ?_⟩
      · rw [isSep_last_iff, ← List.append_assoc, List.getLast?_concat]
      · rw [List.append_assoc]
        exact hb.append hnil (fun _ => hc.not_isSep_succ_sep) fun h => hclosed.2 (hlast.2 h.1)
    · refine ⟨b, if_neg hclosed, ?_, fun c hc => ?_⟩
      · by_contra hno
        exact hclosed ⟨hb.hasRelativePath_sep_append hnil, hno⟩
      · exact hb.append hnil (fun _ => hc.not_isSep_succ) fun h => hc.2 h.2

theorem Plain.exists_append_nil (hb : Plain b) {d : Path} : ∃ e, Plain e ∧ Path.append (d ++ sep ++ b) [] = d ++ sep ++ e := by
  rw [append_nil]
  split
  · next h =>
    have hnil : b ≠ [] := by
      rintro rfl
      refine h.2.1 ?_
      rw [List.append_nil, isSep_last_iff, List.getLast?_concat]
    refine ⟨b ++ sep, hb.append hnil (fun i _ hi => absurd hi (by simp)) (fun hc => h.2.1 ?_), List.append_assoc ..⟩
    rw [isSep_last_iff, List.getLast?_append_of_ne_nil _ hnil, ← isSep_last_iff]
    exact hc.1
  · exact ⟨b, hb, rfl⟩

theorem append_nil_of_hasRootDirectory (h : HasRootDirectory p) : append [] p = p := by
  by_cases hsep : p = sep
  · rw [hsep]
    decide
  · have hne : p ≠ [] := by
      rintro rfl
      exact not_hasRootDirectory_nil h
    rw [append, if_neg hne, if_pos (.inl ⟨h, .inr hsep⟩)]

theorem absolute_of_hasRootDirectory (hb : Plain b) (h : HasRootDirectory p) : absolute (sep ++ b) p = p := by
  have hne : p ≠ [] := by
    rintro rfl
    exact not_hasRootDirectory_nil h
  rw [absolute, if_neg hne, if_pos h, if_pos h, hb.rootName_sep_append, append_nil_of_hasRootDirectory h, ite_self]

theorem absolute_plain (base : Path) (hc : Plain c) (hne : c ≠ []) :
    absolute base c = (if Closed base then base ++ sep else base) ++ c := by
  rw [absolute, if_neg hne, hc.rootNameLength_eq, if_neg (Nat.lt_irrefl 0), if_neg hc.not_hasRootDirectory, append_plain hc hne]

theorem absolute_host (hb : Plain b) (hne : x ≠ []) (hx : ∀ i, ¬ IsSep x i) (hp : isPrint (x.head hne)) :
    ∃ e, Plain e ∧ absolute (sep ++ b) (sep ++ sep ++ x) = sep ++ sep ++ x ++ (sep ++ e) := by
  obtain ⟨hlen, hname, hroot, hrel⟩ := only_host hne hx hp
  have hdir : rootDirectory (sep ++ b) = sep := if_pos hb.hasRootDirectory_sep_append
  have hmid : Path.append (sep ++ sep ++ x ++ sep) b = sep ++ sep ++ x ++ sep ++ b := by
    by_cases hnil : b = []
    · rw [hnil, append_nil, if_neg, List.append_nil]
      intro hc
      refine hc.2.1 ?_
      rw [isSep_last_iff, List.getLast?_concat]
    · rw [append_plain hb hnil, if_neg (open_host hne hx hp).not_closed]
  obtain ⟨e, he, heq⟩ := hb.exists_append_nil (d := sep ++ sep ++ x)
  refine ⟨e, he, ?_⟩
  rw [absolute, if_neg (by simp), hlen, if_pos (by rw [length_host]; omega), if_neg hroot, hname, hdir, hrel,
    hb.relativePath_sep_append, append_host_sep hne hx hp, hmid, heq, List.append_assoc]

/-- An absolute path is the text of a path, and has a root directory. -/
theorem absolute_rooted (hb : Plain b) (hp : Normal p) : Normal (absolute (sep ++ b) p) ∧ HasRootDirectory (absolute (sep ++ b) p) := by
  by_cases hroot : HasRootDirectory p
  · rw [absolute_of_hasRootDirectory hb hroot]
    exact ⟨hp, hroot⟩
  · cases hp.layout with
    | @relative c hc =>
      by_cases hnil : p = []
      · obtain ⟨e, he, heq⟩ := hb.exists_append_nil (d := [])
        rw [hnil, absolute, if_pos rfl]
        exact heq ▸ ⟨he.normal_sep_append, he.hasRootDirectory_sep_append⟩
      · obtain ⟨d, hd, -, hplain⟩ := hb.exists_dir
        rw [absolute_plain _ hc hnil, hd, List.append_assoc]
        exact ⟨(hplain p hc).normal_sep_append, (hplain p hc).hasRootDirectory_sep_append⟩
    | rooted hc => exact absurd hc.hasRootDirectory_sep_append hroot
    | @host x hne hx =>
      rw [hasRootDirectory_host_iff hne hx, not_not] at hroot
      obtain ⟨e, he, heq⟩ := absolute_host hb hne hx hroot
      rw [heq]
      exact ⟨normal_network hne hx he, hasRootDirectory_network hne hx e⟩
    | network hne hx hc => exact absurd (hasRootDirectory_network hne hx _) hroot

/-- The file name stays what it is. -/
theorem filename_absolute (hb : Plain b) (hp : Normal p) (hne : p ≠ []) (hname : rootNameLength p = 0) :
    filename (absolute (sep ++ b) p) = filename p := by
  by_cases hroot : HasRootDirectory p
  · rw [absolute_of_hasRootDirectory hb hroot]
  · have hc : Plain p := by
      refine ⟨hp, fun h => hroot ?_⟩
      rw [HasRootDirectory, hname]
      exact ⟨h.lt, h⟩
    obtain ⟨d, hd, hlast, hplain⟩ := hb.exists_dir
    rw [absolute_plain _ hc hne, hd]
    obtain ⟨d', x, rfl, hd', hx⟩ := exists_last_name p
    have hc' := hplain _ hc
    rw [filename_append_name hp hd' hx fun h => hc.not_doubled h.1, ← List.append_assoc]
    have happend : sep ++ d ++ d' ++ x = sep ++ (d ++ (d' ++ x)) := by simp only [List.append_assoc]
    refine filename_append_name (happend ▸ hc'.normal_sep_append) (.inr ?_) hx fun h => ?_
    · rcases hd' with rfl | hlast'
      · rwa [List.append_nil]
      · rw [isSep_last_iff] at hlast' ⊢
        have hne' : d' ≠ [] := by
          rintro rfl
          simp at hlast'
        rwa [List.getLast?_append_of_ne_nil _ hne']
    · exact hc'.not_doubled_sep_append (happend ▸ h.1)

end CcTools.Path
