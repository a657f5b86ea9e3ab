import Checkup.Proofs.Outcome
import Checkup.Proofs.Tree.Links
import Checkup.Proofs.Tree.Writing

/-!
# Files of one name

Two trees that differ in files of one name only, some of which may be new. A path that does not end
in the name leads to the same folders and files in both, though it may be blocked for another cause.

* `SameBut`: such trees.
* `access_entry_same`: the entries of folders.
* `content_same`: what is read.
-/

namespace Checkup.Tree

/-- Two trees that differ in files of the name `fresh` only. -/
structure SameBut (fresh : String) (t t' : Tree) : Prop where
  grown : Grown fresh t t'
  node : ∀ {l}, l.getLast? ≠ some fresh → t'.node? l = t.node? l

variable {fresh name : String} {t t' : Tree} {steps : List String} {l : Location}

/-! ## Entries of folders -/

/-- Whether an entry of a folder is a folder can be told, unless its path is too long. -/
theorem isFolder?_returns (h : t.Ordinary) (haccess : t.access steps = .ok (l, .folder))
    (h1 : name ≠ ".") (h2 : name ≠ "..") (hpath : pathBytes (steps ++ [name]) ≤ maxPathBytes)
    (hname : name.utf8ByteSize ≤ maxNameBytes) : (t.isFolder? (steps ++ [name])).Returns := by
  unfold isFolder? holdsAt access
  rw [find_concat haccess h1 h2 fun _ => h.no_link, if_neg (Nat.not_lt.mpr hpath),
    if_neg (Nat.not_lt.mpr hname)]
  cases t.node? (l ++ [name]) with
  | none => exact ⟨false, rfl⟩
  | some node => exact ⟨_, rfl⟩

/-! ## Trees that differ in files of one name -/

theorem getLast?_entry_ne (hname : name ≠ fresh) (l : Location) :
    (l ++ [name]).getLast? ≠ some fresh := by
  rw [List.getLast?_concat]
  exact fun heq => hname (Option.some.inj heq)

namespace SameBut

theorem node_entry (h : SameBut fresh t t') (hname : name ≠ fresh) (l : Location) :
    t'.node? (l ++ [name]) = t.node? (l ++ [name]) := h.node (getLast?_entry_ne hname l)

end SameBut

/-- The entries of a folder are the same. -/
theorem access_entry_same (h : SameBut fresh t t') (haccess : t.access steps = .ok (l, .folder))
    (h1 : name ≠ ".") (h2 : name ≠ "..") (hname : name ≠ fresh) :
    t'.access (steps ++ [name]) = t.access (steps ++ [name]) := by
  unfold access
  rw [find_concat haccess h1 h2 fun _ => h.grown.old.no_link,
    find_concat ((access_folder_grown h.grown).mpr haccess) h1 h2 fun _ => h.grown.new.no_link,
    h.node_entry hname]

/-- What is read at a path that does not end in the name. -/
theorem content_same (h : SameBut fresh t t') (steps : List String) (h1 : name ≠ ".")
    (h2 : name ≠ "..") (hname : name ≠ fresh) :
    t'.content (steps ++ [name]) = t.content (steps ++ [name]) := by
  have hplace := find_grown h.grown (steps ++ [name])
  generalize hfind : t.find (steps ++ [name]) = place at hplace
  generalize hfind' : t'.find (steps ++ [name]) = place' at hplace
  have hlast : ∀ {found}, place = .ok found → found.location.getLast? = some name := by
    rintro found rfl
    rcases find_last h.grown.old h1 h2 hfind with ⟨k, node, rfl, hk⟩ | ⟨k, rfl, hk⟩
    · exact hk
    · exact hk
  cases hplace with
  | folder k => rw [content_of_find hfind, content_of_find hfind']
  | @file k bytes bytes' hf hf' =>
    have hk : k.getLast? = some name := hlast rfl
    rw [h.node (hk ▸ fun heq => hname (Option.some.inj heq)), hf] at hf'
    cases hf'
    rw [content_of_find hfind, content_of_find hfind']
  | vacant k => rw [content_of_vacant hfind, content_of_vacant hfind']
  | @filled k bytes' hn hf' hfresh =>
    have hk : k.getLast? = some name := hlast rfl
    rw [hk] at hfresh
    exact absurd (Option.some.inj hfresh) hname
  | fault e => rw [content_of_error hfind, content_of_error hfind']
  | blocked => rw [content_of_error hfind, content_of_error hfind']

end Checkup.Tree
