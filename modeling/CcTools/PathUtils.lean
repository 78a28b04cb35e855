import CcTools.Exception
import CcTools.AbsolutePath

/-!
# `PathUtils` with the bundled filesystem

Here `fs` is `ghc::filesystem`, which a compiler takes that has no `<filesystem>`. What the system is asked for
is given: whether a file exists, and the current path. The name of a file is what stands behind the last
separator of its path (`getFileName_eq_iff`). To make a path absolute again changes nothing, and its file name
stays what it is (`getAbsolutePath_spec`).
-/

namespace CcTools

namespace PathUtils
open CcTools.Path

/-- `std::string(path)` in the text of an exception, byte by byte. -/
def message (path : Str) : String := String.ofList (path.map fun c => Char.ofNat c.toNat)

/-- `fs::path` and `fs::exists` are those of the bundled filesystem. -/
def getFileName (fileExists : Path → Bool) (path : Str) (withExtension : Bool) : Except Exception Str :=
  if !fileExists (postprocess path) then
    throw (.runtimeError ("FileUtils::getFileName: File does not exist: " ++ message path))
  else if withExtension then
    pure (filename (postprocess path))
  else
    pure (stem (postprocess path))

/-- `cwd` is the text of the current path, as `getcwd` gives it; `fs::absolute` is that of the bundled
filesystem. -/
def getAbsolutePath (cwd path : Str) : Str := absolute (postprocess cwd) (postprocess path)

variable {dir name : Str} {fileExists : Path → Bool}

/-- The file name is what stands behind the last separator, unless that is the name of a host. -/
theorem getFileName_eq_iff (hdir : dir = [] ∨ dir.getLast? = some preferredSeparator) (hname : preferredSeparator ∉ name)
    (hexists : fileExists (postprocess (dir ++ name)) = true) :
    getFileName fileExists (dir ++ name) true = .ok name ↔ ¬ (dir = sep ++ sep ∧ name ≠ []) := by
  have hx := forall_not_isSep_iff.2 hname
  have hcall : getFileName fileExists (dir ++ name) true = .ok (filename (postprocess (dir ++ name))) := by
    rw [getFileName, hexists]
    rfl
  rw [hcall, Except.ok.injEq]
  by_cases hhost : dir = sep ++ sep ∧ name ≠ []
  · obtain ⟨rfl, hne⟩ := hhost
    refine iff_of_false ?_ (not_not_intro ⟨rfl, hne⟩)
    rw [(normal_host hne hx).postprocess_eq, filename_host hne hx]
    split
    · exact hne.symm
    · intro heq
      have hlen := congrArg List.length heq
      rw [length_host] at hlen
      omega
  · refine iff_of_true ?_ hhost
    have hs := normal_postprocess (dir ++ name)
    rw [postprocess_append hx hhost] at hs ⊢
    refine filename_append_name hs ?_ hx ?_
    · rcases hdir with rfl | hlast
      · exact .inl rfl
      · rw [← getLast?_postprocess] at hlast
        exact .inr (isSep_last_iff.2 hlast)
    · rintro ⟨⟨-, h0, h1, -⟩, hlen⟩
      rw [isSep_append_left (by omega)] at h0 h1
      have := (normal_postprocess dir 0 h0 h1).2.1
      omega

theorem getFileName_eq_iff_host : getFileName (fun _ => true) ([0x2F, 0x2F, 0x61, 0x2F, 0x2F] ++ [0x62]) true = .ok [0x62] :=
  (getFileName_eq_iff (.inr rfl) (by decide) rfl).2 (by decide)

/-- Where the current path begins with a root directory, an absolute path has one, and is what it was if the path
had one; the same call leaves it alone. The file name is kept where there is a path, and no host in it. -/
theorem getAbsolutePath_spec {cwd : Str} (hroot : IsSep cwd 0) (hhost : ¬ Doubled cwd) (path : Str) :
    HasRootDirectory (getAbsolutePath cwd path) ∧
      getAbsolutePath cwd (getAbsolutePath cwd path) = getAbsolutePath cwd path ∧
      (getAbsolutePath cwd path = postprocess path ↔ HasRootDirectory (postprocess path)) ∧
      (postprocess path ≠ [] → rootNameLength (postprocess path) = 0 →
        filename (getAbsolutePath cwd path) = filename (postprocess path)) := by
  have hunique : postprocess cwd = unique cwd := if_neg hhost
  have h0 : IsSep (unique cwd) 0 := isSep_unique_zero.2 hroot
  have hbase : postprocess cwd = sep ++ (unique cwd).drop 1 := by
    rw [hunique, ← drop_eq_sep_append h0, List.drop_zero]
  have hb : Plain ((unique cwd).drop 1) := (hunique ▸ normal_postprocess cwd).plain_drop (not_isSep_unique h0)
  unfold getAbsolutePath
  rw [hbase]
  obtain ⟨hs, hdir⟩ := absolute_rooted hb (normal_postprocess path)
  refine ⟨hdir, ?_, ⟨fun heq => heq ▸ hdir, absolute_of_hasRootDirectory hb⟩, filename_absolute hb (normal_postprocess path)⟩
  rw [hs.postprocess_eq, absolute_of_hasRootDirectory hb hdir]

theorem getAbsolutePath_spec_home : HasRootDirectory (getAbsolutePath [0x2F, 0x61] [0x62]) ∧
    getAbsolutePath [0x2F, 0x61] (getAbsolutePath [0x2F, 0x61] [0x62]) = getAbsolutePath [0x2F, 0x61] [0x62] ∧
    filename (getAbsolutePath [0x2F, 0x61] [0x62]) = [0x62] :=
  have h := @getAbsolutePath_spec [0x2F, 0x61] (by decide) (by decide) [0x62]
  ⟨h.1, h.2.1, h.2.2.2 (by decide) (by decide)⟩

end PathUtils
end CcTools
