import Checkup.Proofs.Ignore.Items
import Checkup.Proofs.Tree.Steps

/-!
# Ignore rules that hold on below a folder

An ignored folder is not entered, so nothing in it is looked at. Some rules would ignore everything in
it anyway; others would not, such as those that are restricted to folders.

* `isInherited_of_name`, `isInherited_of_tied`: rules that go on to hold below a folder.
* `not_ignored_above`: with such rules no folder above a file is ignored if the file is not.
-/

namespace Checkup

namespace IgnoreRule

/-- What the rule says of a folder it says of everything in it. -/
def IsInherited (rule : IgnoreRule) : Prop :=
  ∀ folder, rule.ignores folder true = true → ∀ rest isFolder,
    rule.ignores (folder ++ "/" ++ rest) isFolder = true

/-- A rule on names is inherited if it is not restricted to folders. -/
theorem isInherited_of_name {rule : IgnoreRule} (hdirectory : rule.directoryOnly = false)
    (htied : (rule.anchored || rule.hasSlash) = false) : rule.IsInherited := by
  intro folder h rest isFolder
  unfold ignores at h ⊢
  rw [hdirectory, htied] at h ⊢
  split at h
  · cases h
  · rename_i hne
    rw [if_neg hne]
    simp only [Bool.false_and, Bool.false_eq_true, if_false] at h ⊢
    rw [Path.pieces_append_slash, List.any_append, h, Bool.true_or]

theorem fits_append_star (items : Glob) {text : List Char}
    (h : Glob.fits (items ++ [.star]) text = true) (more : List Char) :
    Glob.fits (items ++ [.star]) (text ++ more) = true := by
  induction items generalizing text with
  | nil => exact Glob.fits_star _
  | cons item items ih =>
    obtain ⟨part, rest, rfl, hpart, hrest⟩ := Glob.fits_cons_iff.mp h
    exact Glob.fits_cons_iff.mpr ⟨part, rest ++ more, List.append_assoc .., hpart, ih hrest⟩

/-- A tied rule is inherited if it is not restricted to folders and its pattern ends in a star, or
has no special characters at all. -/
theorem isInherited_of_tied {rule : IgnoreRule} (hdirectory : rule.directoryOnly = false)
    (htied : (rule.anchored || rule.hasSlash) = true)
    (hpattern : Glob.parse rule.pattern.toList = rule.pattern.toList.map .char ∨
      (Glob.parse rule.pattern.toList).getLast? = some .star) : rule.IsInherited := by
  intro folder h rest isFolder
  unfold ignores at h ⊢
  rw [hdirectory, htied] at h ⊢
  split at h
  · cases h
  rename_i hne
  rw [if_neg hne]
  simp only [Bool.false_and, Bool.false_eq_true, if_false, if_true, Bool.or_eq_true] at h ⊢
  have hlonger : ∀ part : String, Text.startsWith folder part = true →
      Text.startsWith (folder ++ "/" ++ rest) part = true := by
    unfold Text.startsWith
    intro part hpart
    rw [List.isPrefixOf_iff_prefix] at hpart ⊢
    rw [String.append_assoc, String.toList_append]
    exact hpart.trans (List.prefix_append _ _)
  rcases h with hmatch | hbelow
  · rw [Glob.matchesText_eq_fits] at hmatch
    rcases hpattern with hliteral | hstar
    · -- the folder is spelled like the pattern
      right
      rw [hliteral, Glob.fits_literal] at hmatch
      unfold Text.startsWith
      rw [List.isPrefixOf_iff_prefix, String.toList_append, String.toList_append,
        String.toList_append, hmatch]
      exact List.prefix_append _ _
    · left
      obtain ⟨items, hitems⟩ := List.getLast?_eq_some_iff.mp hstar
      rw [Glob.matchesText_eq_fits, String.append_assoc, String.toList_append]
      rw [hitems] at hmatch ⊢
      exact fits_append_star items hmatch _
  · exact .inr (hlonger _ hbelow)

/-- No folder on the way to a file is ignored if the file is not, given rules that are inherited. -/
theorem not_ignored_above {rules : List IgnoreRule} (h : ∀ rule ∈ rules, rule.IsInherited)
    {folder rest : String} (hfile : ignoredBy rules (folder ++ "/" ++ rest) false = false) :
    ignoredBy rules folder true = false := by
  unfold ignoredBy at hfile ⊢
  rw [List.any_eq_false] at hfile ⊢
  intro rule hrule hfolder
  exact hfile rule hrule (h rule hrule folder hfolder rest false)

end IgnoreRule

end Checkup
