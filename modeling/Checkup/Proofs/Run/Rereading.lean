import Checkup.Project.Manifest
import Checkup.Proofs.Run.Edits

/-!
# Reading an amended tree

What is read at a path of an amended tree, wherever the path leads. Manifests keep what repairs
keep, and files that no amendment is for are read as before.

* `Amended.content_path`: what is read at a path.
* `Manifest.read_eq`, `Amended.manifest`: the manifest of a directory.
* `Amended.readText_eq`, `Amended.content_eq`: files that are not amended.
-/

namespace Checkup

variable {E : Edits} {t t' : Tree}

/-- No amendment is one of files with this name. -/
def Unamended (name : String) : Prop := ∀ a : Amendment, ¬ a.Suits name

theorem unamended_of_ne {name : String} (h1 : name ≠ "tsconfig.json") (h2 : name ≠ "package.json")
    (h3 : name ≠ ".gitignore") (h4 : ¬ IsMarkup name) : Unamended name := by
  intro a ha
  cases a with
  | makeStrict => exact h1 ha
  | stateEngine => exact h2 ha
  | localize dependency => exact h2 ha
  | ignore kind message => exact h3 ha
  | direct => exact h4 ha

theorem Rewritten.eq_of_none {A : Amendment → Prop} {text text' : Option String}
    (h : Rewritten A text text') (hA : ∀ a, ¬ A a) : text' = text := by
  cases h with
  | refl => rfl
  | step _ ha _ => exact absurd ha (hA _)

theorem Tree.content_of_present (h : t.Ordinary) {steps : List String} {l : Location} {node : Node}
    (hf : t.find steps = .ok (.present l node)) : t.content steps = t.content l := by
  obtain ⟨rfl, hnode⟩ := Tree.find_present h hf
  rw [Tree.content_of_find hf, Tree.content_eq h (Tree.plain_lexical Tree.plain_nil steps)
    (Tree.fits_lexical h hf), hnode]

theorem Tree.lexical_concat (here : Location) (steps : List String) {name : String}
    (h1 : name ≠ ".") (h2 : name ≠ "..") :
    Tree.lexical here (steps ++ [name]) = Tree.lexical here steps ++ [name] := by
  rw [Tree.lexical_append, Tree.lexical, if_neg h1, if_neg h2, Tree.lexical]

/-- The manifest of a directory is read from the content of its file. -/
theorem Manifest.read_eq (t : Tree) (directory : List String) : read t directory =
    (Amendment.membersOf (t.content (directory ++ [fileName]))).getD [] := by
  unfold read Amendment.membersOf Tree.content
  cases t.readText (directory ++ [fileName]) with
  | error fault => rfl
  | ok text => rfl

namespace Aimed

theorem suits_of_concat (hE : Aimed E t) {steps : List String} {name : String} (h1 : name ≠ ".")
    (h2 : name ≠ "..") {a : Amendment} (h : E (Tree.lexical [] (steps ++ [name])) a) :
    a.Suits name := by
  refine hE.suits_last ?_ h
  rw [Tree.lexical_concat [] steps h1 h2, List.getLast?_concat]

end Aimed

namespace Amended

/-- What is read at a path that does not end in the name of new files. -/
theorem content_path (hE : Aimed E t) (ht : t.Ordinary) (h : Amended E t t') (steps : List String)
    {name : String} (h1 : name ≠ ".") (h2 : name ≠ "..") (h3 : name ≠ ".gitignore") :
    Rewritten (E (Tree.lexical [] (steps ++ [name]))) (t.content (steps ++ [name]))
      (t'.content (steps ++ [name])) := by
  have hgrown := h.grown hE ht
  have hplace := Tree.find_grown hgrown (steps ++ [name])
  generalize hfind : t.find (steps ++ [name]) = place at hplace
  generalize hfind' : t'.find (steps ++ [name]) = place' at hplace
  cases hplace with
  | folder l =>
    rw [Tree.content_of_find hfind, Tree.content_of_find hfind']
    exact .refl
  | file hf hf' =>
    obtain ⟨hl, -⟩ := Tree.find_present ht hfind
    rw [Tree.content_of_present ht hfind, Tree.content_of_present hgrown.new hfind', ← hl]
    exact h.content hE ht (hl ▸ Tree.plain_lexical Tree.plain_nil _)
  | vacant l =>
    rw [Tree.content_of_vacant hfind, Tree.content_of_vacant hfind']
    exact .refl
  | filled hnone hf' hlast =>
    obtain ⟨rfl, -, -⟩ := Tree.find_vacant ht hfind
    rw [Tree.lexical_concat [] steps h1 h2, List.getLast?_concat] at hlast
    exact absurd (Option.some.inj hlast) h3
  | fault e =>
    rw [Tree.content_of_error hfind, Tree.content_of_error hfind']
    exact .refl
  | blocked =>
    rw [Tree.content_of_error hfind, Tree.content_of_error hfind']
    exact .refl

/-- A file that no amendment is for is read as before. -/
theorem content_eq (hE : Aimed E t) (ht : t.Ordinary) (h : Amended E t t') (steps : List String)
    {name : String} (h1 : name ≠ ".") (h2 : name ≠ "..") (h3 : name ≠ ".gitignore")
    (hname : Unamended name) : t'.content (steps ++ [name]) = t.content (steps ++ [name]) :=
  (h.content_path hE ht steps h1 h2 h3).eq_of_none fun a ha =>
    hname a (hE.suits_of_concat h1 h2 ha)

/-- What is there and is not amended is read as before, faults included. -/
theorem readText_eq (hE : Aimed E t) (ht : t.Ordinary) (h : Amended E t t') {steps : List String}
    (hnone : ∀ a, ¬ E (Tree.lexical [] steps) a) (hexists : t.exists? steps = .ok true) :
    t'.readText steps = t.readText steps := by
  have hgrown := h.grown hE ht
  have hplace := Tree.find_grown hgrown steps
  unfold Tree.exists? Tree.holdsAt Tree.access at hexists
  unfold Tree.readText Tree.readBytes Tree.access
  generalize hfind : t.find steps = place at hplace hexists
  generalize t'.find steps = place' at hplace
  cases hplace with
  | folder l => rfl
  | file hf hf' =>
    obtain ⟨rfl, -⟩ := Tree.find_present ht hfind
    rw [h.node?_eq hE hnone, hf] at hf'
    cases hf'
    rfl
  | vacant l => rfl
  | filled hnone hf' hlast => cases hexists
  | fault e => rfl
  | blocked => cases hexists

/-- What is read of the manifest of a directory. -/
theorem content_manifest (hE : Aimed E t) (ht : t.Ordinary) (h : Amended E t t')
    (directory : List String) : Rewritten (E (Tree.lexical [] (directory ++ ["package.json"])))
      (t.content (directory ++ ["package.json"])) (t'.content (directory ++ ["package.json"])) :=
  h.content_path hE ht directory (by decide) (by decide) (by decide)

/-- The manifest of a directory is nested as deep as before, as far as that stops a reader. -/
theorem isTooDeep_manifest (hE : Aimed E t) (ht : t.Ordinary) (h : Amended E t t')
    (directory : List String) : Manifest.IsTooDeep t' directory ↔ Manifest.IsTooDeep t directory :=
  (h.content_manifest hE ht directory).tooDeepIn_iff fun _ ha =>
    Amendment.isOfJson_of_suits (.inl rfl) (hE.suits_of_concat (by decide) (by decide) ha)

/-- The manifest of a directory keeps what repairs keep. -/
theorem manifest (hE : Aimed E t) (ht : t.Ordinary) (h : Amended E t t') (directory : List String) :
    Kept (Manifest.read t directory) (Manifest.read t' directory) := by
  have hkept := (h.content_manifest hE ht directory).manifest fun a ha =>
    hE.suits_of_concat (by decide) (by decide) ha
  rw [Manifest.read_eq, Manifest.read_eq, Manifest.fileName]
  generalize Amendment.membersOf (t.content (directory ++ ["package.json"])) = members at hkept ⊢
  generalize Amendment.membersOf (t'.content (directory ++ ["package.json"])) = members' at hkept ⊢
  cases hkept with
  | none => exact Kept.refl Json.fits_empty
  | some hkept => exact hkept

end Amended

/-! ## What a repaired manifest says -/

theorem Kept.label?_eq {manifest manifest' : Json.Members} (h : Kept manifest manifest')
    {name : String} (h1 : name ≠ "engines") (h2 : name ∉ Manifest.dependencySections) :
    Manifest.label? manifest' name = Manifest.label? manifest name := by
  unfold Manifest.label?
  rw [h.other h1 h2]

theorem Kept.has_dependency {manifest manifest' : Json.Members} (h : Kept manifest manifest')
    (name : String) : (Manifest.dependencies manifest').has name =
      (Manifest.dependencies manifest).has name := by
  unfold Json.Members.has
  rcases (dependencies_kept h).get? (.text name) with ⟨hv, hv'⟩ | ⟨value, value', hv, hv', -⟩
  · rw [hv, hv']
  · rw [hv, hv']
    rfl

end Checkup
