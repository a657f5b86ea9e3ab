import Checkup.Proofs.Tree.Ordinary

/-!
# Trees that agree in part

Following a path asks for the nodes on the way and for no others. So a path leads to the same in two
trees without links that have the same nodes on its way.

* `Agree`: two trees that have the same at some locations.
* `find_agree`: following a path to such a location.
* `access_agree`, `exists?_agree`, `isFolder?_agree`, `readText_agree`: what is there.
-/

namespace Checkup.Tree

/-- Two trees without links that have the same at some locations, and at all above them. -/
structure Agree (Seen : Location → Prop) (t t' : Tree) : Prop where
  old : t.Ordinary
  new : t'.Ordinary
  above : ∀ {l name}, Seen (l ++ [name]) → Seen l
  node : ∀ {l}, Seen l → t'.node? l = t.node? l

variable {Seen : Location → Prop} {t t' : Tree} {l : Location}
  {onLink onLink' : Location → String → List String → Except Fault Place}

theorem Agree.of_append (h : Agree Seen t t') {more : List String} (hseen : Seen (l ++ more)) :
    Seen l := by
  induction more using List.reverseRecOn with
  | nil => rwa [List.append_nil] at hseen
  | append_singleton more name ih =>
    rw [← List.append_assoc] at hseen
    exact ih (h.above hseen)

theorem walk_agree (h : Agree Seen t t') {here : Location} {steps : List String}
    (hplain : Plain steps) (hseen : Seen (here ++ steps)) :
    t'.walk onLink' here steps = t.walk onLink here steps := by
  induction steps generalizing here with
  | nil =>
    rw [List.append_nil] at hseen
    rw [walk, walk, h.node hseen]
  | cons name rest ih =>
    obtain ⟨h1, h2⟩ := hplain name (List.mem_cons_self ..)
    have hrest : Plain rest := fun n hn => hplain n (List.mem_cons_of_mem name hn)
    have hhere : Seen here := h.of_append hseen
    rw [← List.singleton_append, ← List.append_assoc] at hseen
    have hchild : Seen (here ++ [name]) := h.of_append hseen
    rw [walk.eq_def, walk.eq_def t]
    dsimp only
    rw [h.node hhere, h.node hchild, if_neg h1, if_neg h2, if_neg h1, if_neg h2, ih hrest hseen]
    split
    · rfl
    · split
      · rfl
      · split
        · rfl
        · rename_i target hlink
          exact absurd hlink h.old.no_link
        · rfl
    · rfl

/-- A path to what both trees have ends at the same place. -/
theorem find_agree (h : Agree Seen t t') (hplain : Plain l) (hseen : Seen l) :
    t'.find l = t.find l := by
  have hwalk : ∀ links, t'.follow links [] l = t.follow links [] l := by
    intro links
    obtain ⟨onLink, hwalk⟩ := exists_follow_eq_walk t links
    obtain ⟨onLink', hwalk'⟩ := exists_follow_eq_walk t' links
    rw [hwalk, hwalk']
    exact walk_agree h hplain hseen
  rw [find, find, hwalk]

theorem access_agree (h : Agree Seen t t') (hplain : Plain l) (hseen : Seen l) :
    t'.access l = t.access l := by
  rw [access, access, find_agree h hplain hseen]

theorem exists?_agree (h : Agree Seen t t') (hplain : Plain l) (hseen : Seen l) :
    t'.exists? l = t.exists? l := by
  rw [exists?, exists?, holdsAt, holdsAt, access_agree h hplain hseen]

theorem isFolder?_agree (h : Agree Seen t t') (hplain : Plain l) (hseen : Seen l) :
    t'.isFolder? l = t.isFolder? l := by
  rw [isFolder?, isFolder?, holdsAt, holdsAt, access_agree h hplain hseen]

theorem readText_agree (h : Agree Seen t t') (hplain : Plain l) (hseen : Seen l) :
    t'.readText l = t.readText l := by
  rw [readText, readText, readBytes, readBytes, access_agree h hplain hseen]

end Checkup.Tree
