import Checkup.Tree.Resolve

/-!
# The steps of an access

What an access that succeeds has done, step by step: it goes through folders, a name leads down to
what stands there or on by the link that stands there, and only the last name may be free. Everything
about where accesses end is shown by induction on these steps.

* `Follows`: the steps of an access, with the number of links it may still follow.
* `follow_eq_ok_iff`, `find_eq_ok_iff`: the accesses that succeed.
* `Follows.split`, `Follows.append`: a path goes through a folder at the end of its first part.
-/

namespace Checkup.Tree

variable {t : Tree} {here l : Location} {name target : String} {rest steps : List String}
  {links : Nat} {place : Place} {node : Node}

/-- A name by which an access goes down. -/
structure LeadsDown (name : String) : Prop where
  ne_here : name ≠ "."
  ne_up : name ≠ ".."
  short : name.utf8ByteSize ≤ maxNameBytes

/-- The location of a place. -/
def Place.location : Place → Location
  | .present l _ => l
  | .vacant l => l

/-- What stands at a place in a tree. -/
def Place.Stands (t : Tree) : Place → Prop
  | .present l node => t.node? l = some node
  | .vacant l => t.node? l = none

/-- No name of a location is too long for an access. -/
def Short (l : Location) : Prop := ∀ name ∈ l, name.utf8ByteSize ≤ maxNameBytes

theorem short_nil : Short [] := fun _ h => by cases h

theorem Short.dropLast (h : Short l) : Short l.dropLast :=
  fun name hn => h name (List.dropLast_subset l hn)

theorem Short.concat (h : Short l) (hname : name.utf8ByteSize ≤ maxNameBytes) :
    Short (l ++ [name]) := by
  intro other hn
  rcases List.mem_append.mp hn with hn | hn
  · exact h other hn
  · rwa [List.mem_singleton.mp hn]

theorem Short.linkStart (h : Short here) (target : String) : Short (linkStart here target) := by
  unfold Tree.linkStart
  split
  · exact short_nil
  · exact h

/-! ## Single steps -/

section Step

variable {onLink : Location → String → List String → Except Fault Place}

/-- Steps are taken in folders. -/
theorem folder_of_walk (h : t.walk onLink here (name :: rest) = .ok place) :
    t.node? here = some .folder := by
  rw [walk.eq_def] at h
  dsimp only at h
  split at h
  · cases h
  · assumption
  · cases h

theorem walk_here (hhere : t.node? here = some .folder) (hname : name = ".") :
    t.walk onLink here (name :: rest) = t.walk onLink here rest := by
  rw [walk.eq_def]
  dsimp only
  rw [hhere]
  dsimp only
  rw [if_pos hname]

theorem walk_up (hhere : t.node? here = some .folder) (hname : name = "..") :
    t.walk onLink here (name :: rest) = t.walk onLink here.dropLast rest := by
  rw [walk.eq_def]
  dsimp only
  rw [hhere]
  dsimp only
  rw [if_neg (hname ▸ by decide), if_pos hname]

/-- A name leads down if it is not too long, and then what stands there decides. -/
theorem walk_name (hhere : t.node? here = some .folder) (h1 : name ≠ ".") (h2 : name ≠ "..") :
    t.walk onLink here (name :: rest) =
      if maxNameBytes < name.utf8ByteSize then .error .nameTooLong
      else
        match t.node? (here ++ [name]) with
        | none => if rest.isEmpty then .ok (.vacant (here ++ [name])) else .error .missing
        | some (.link target) => onLink here target rest
        | some _ => t.walk onLink (here ++ [name]) rest := by
  rw [walk.eq_def]
  dsimp only
  rw [hhere]
  dsimp only
  exact (if_neg h1).trans (if_neg h2)

theorem walk_below (hhere : t.node? here = some .folder) (hname : LeadsDown name) :
    t.walk onLink here (name :: rest) =
      match t.node? (here ++ [name]) with
      | none => if rest.isEmpty then .ok (.vacant (here ++ [name])) else .error .missing
      | some (.link target) => onLink here target rest
      | some _ => t.walk onLink (here ++ [name]) rest := by
  rw [walk_name hhere hname.ne_here hname.ne_up, if_neg (Nat.not_lt.mpr hname.short)]

end Step

/-- Whatever the number of links, following steps is walking them. -/
theorem exists_follow_eq_walk (t : Tree) (links : Nat) :
    ∃ onLink, t.follow links = t.walk onLink := by
  cases links with
  | zero => exact ⟨_, rfl⟩
  | succ links => exact ⟨_, rfl⟩

theorem follow_here (hhere : t.node? here = some .folder) (hname : name = ".") :
    t.follow links here (name :: rest) = t.follow links here rest := by
  obtain ⟨onLink, hwalk⟩ := exists_follow_eq_walk t links
  rw [hwalk, walk_here hhere hname]

theorem follow_up (hhere : t.node? here = some .folder) (hname : name = "..") :
    t.follow links here (name :: rest) = t.follow links here.dropLast rest := by
  obtain ⟨onLink, hwalk⟩ := exists_follow_eq_walk t links
  rw [hwalk, walk_up hhere hname]

theorem follow_free (hhere : t.node? here = some .folder) (hname : LeadsDown name)
    (hnone : t.node? (here ++ [name]) = none) :
    t.follow links here [name] = .ok (.vacant (here ++ [name])) := by
  obtain ⟨onLink, hwalk⟩ := exists_follow_eq_walk t links
  rw [hwalk, walk_below hhere hname, hnone]
  rfl

theorem follow_link (hhere : t.node? here = some .folder) (hname : LeadsDown name)
    (hlink : t.node? (here ++ [name]) = some (.link target)) :
    t.follow (links + 1) here (name :: rest) =
      t.follow links (linkStart here target) (Path.linkSteps target ++ rest) := by
  rw [follow, walk_below hhere hname, hlink]

theorem follow_down (hhere : t.node? here = some .folder) (hname : LeadsDown name)
    (hnode : t.node? (here ++ [name]) = some node) (hnot : ∀ target, node ≠ .link target) :
    t.follow links here (name :: rest) = t.follow links (here ++ [name]) rest := by
  obtain ⟨onLink, hwalk⟩ := exists_follow_eq_walk t links
  rw [hwalk, walk_below hhere hname, hnode]
  cases node with
  | link target => exact absurd rfl (hnot target)
  | file bytes => rfl
  | folder => rfl

/-! ## Whole accesses -/

/-- Steps from a location end at a place, by way of at most some number of links. -/
inductive Follows (t : Tree) : Nat → Location → List String → Place → Prop
  | stop {links : Nat} {here : Location} {node : Node} (hnode : t.node? here = some node) :
    Follows t links here [] (.present here node)
  | here {links : Nat} {here : Location} {name : String} {rest : List String} {place : Place}
    (hhere : t.node? here = some .folder) (hname : name = ".") (h : Follows t links here rest place) :
    Follows t links here (name :: rest) place
  | up {links : Nat} {here : Location} {name : String} {rest : List String} {place : Place}
    (hhere : t.node? here = some .folder) (hname : name = "..")
    (h : Follows t links here.dropLast rest place) : Follows t links here (name :: rest) place
  | free {links : Nat} {here : Location} {name : String} (hhere : t.node? here = some .folder)
    (hname : LeadsDown name) (hnone : t.node? (here ++ [name]) = none) :
    Follows t links here [name] (.vacant (here ++ [name]))
  | link {links : Nat} {here : Location} {name target : String} {rest : List String} {place : Place}
    (hhere : t.node? here = some .folder) (hname : LeadsDown name)
    (hlink : t.node? (here ++ [name]) = some (.link target))
    (h : Follows t links (linkStart here target) (Path.linkSteps target ++ rest) place) :
    Follows t (links + 1) here (name :: rest) place
  | down {links : Nat} {here : Location} {name : String} {rest : List String} {place : Place}
    {node : Node} (hhere : t.node? here = some .folder) (hname : LeadsDown name)
    (hnode : t.node? (here ++ [name]) = some node) (hnot : ∀ target, node ≠ .link target)
    (h : Follows t links (here ++ [name]) rest place) : Follows t links here (name :: rest) place

/-- A walk that succeeds follows its steps if what it hands on does. -/
theorem follows_of_walk {onLink : Location → String → List String → Except Fault Place}
    (hlink : ∀ {folder name target rest}, t.node? folder = some .folder → LeadsDown name →
      t.node? (folder ++ [name]) = some (.link target) → onLink folder target rest = .ok place →
      Follows t links folder (name :: rest) place)
    (h : t.walk onLink here steps = .ok place) : Follows t links here steps place := by
  induction steps generalizing here with
  | nil =>
    rw [walk] at h
    split at h
    · rename_i node hnode
      cases h
      exact .stop hnode
    · cases h
  | cons name rest ih =>
    have hhere := folder_of_walk h
    by_cases h1 : name = "."
    · rw [walk_here hhere h1] at h
      exact .here hhere h1 (ih h)
    by_cases h2 : name = ".."
    · rw [walk_up hhere h2] at h
      exact .up hhere h2 (ih h)
    rw [walk_name hhere h1 h2] at h
    split at h
    · cases h
    · rename_i hlong
      have hname : LeadsDown name := ⟨h1, h2, Nat.not_lt.mp hlong⟩
      split at h
      · rename_i hnone
        split at h
        · rename_i hempty
          cases h
          obtain rfl := List.isEmpty_iff.mp hempty
          exact .free hhere hname hnone
        · cases h
      · rename_i target hnode
        exact hlink hhere hname hnode h
      · rename_i node hnot hnode
        exact .down hhere hname hnode hnot (ih h)

theorem follows_of_follow (h : t.follow links here steps = .ok place) :
    Follows t links here steps place := by
  induction links generalizing here steps with
  | zero =>
    refine follows_of_walk (fun _ _ _ h => ?_) h
    cases h
  | succ links ih => exact follows_of_walk (fun hhere hname hnode h => .link hhere hname hnode (ih h)) h

namespace Follows

theorem follow_eq (h : Follows t links here steps place) :
    t.follow links here steps = .ok place := by
  induction h with
  | @stop links here node hnode =>
    obtain ⟨onLink, hwalk⟩ := exists_follow_eq_walk t links
    rw [hwalk, walk, hnode]
  | here hhere hname _ ih => rw [follow_here hhere hname, ih]
  | up hhere hname _ ih => rw [follow_up hhere hname, ih]
  | free hhere hname hnone => exact follow_free hhere hname hnone
  | link hhere hname hlink _ ih => rw [follow_link hhere hname hlink, ih]
  | down hhere hname hnode hnot _ ih => rw [follow_down hhere hname hnode hnot, ih]

end Follows

/-- The accesses that succeed. -/
theorem follow_eq_ok_iff :
    t.follow links here steps = .ok place ↔ Follows t links here steps place :=
  ⟨follows_of_follow, Follows.follow_eq⟩

/-- An absolute path that is not too long is followed from the root directory. -/
theorem find_eq_ok_iff : t.find steps = .ok place ↔
    pathBytes steps ≤ maxPathBytes ∧ Follows t maxLinks [] steps place := by
  unfold find
  split
  · rename_i hlong
    exact iff_of_false (fun h => by cases h) fun h => Nat.not_le.mpr hlong h.1
  · rename_i hshort
    rw [follow_eq_ok_iff, and_iff_right (Nat.not_lt.mp hshort)]

namespace Follows

/-- Every name of the place at which an access ends has been stepped on. -/
theorem short (h : Follows t links here steps place) (hhere : Short here) :
    Short place.location := by
  induction h with
  | stop => exact hhere
  | here _ _ _ ih => exact ih hhere
  | up _ _ _ ih => exact ih hhere.dropLast
  | free _ hname => exact hhere.concat hname.short
  | link _ _ _ _ ih => exact ih (hhere.linkStart _)
  | down _ hname _ _ _ ih => exact ih (hhere.concat hname.short)

/-- A path goes through a folder at the end of its first part. -/
theorem split {first second : List String} (h : Follows t links here steps place)
    (hsteps : steps = first ++ second) (hne : second ≠ []) :
    ∃ mid, Follows t links here first (.present mid .folder) ∧
      ∃ left, Follows t left mid second place := by
  induction h generalizing first with
  | stop => exact absurd (List.append_eq_nil_iff.mp hsteps.symm).2 hne
  | here hhere hname h ih =>
    obtain ⟨rfl, rfl⟩ | ⟨first, rfl, rfl⟩ := List.cons_eq_append_iff.mp hsteps
    · exact ⟨_, .stop hhere, _, .here hhere hname h⟩
    · obtain ⟨mid, hfirst, hsecond⟩ := ih rfl
      exact ⟨mid, .here hhere hname hfirst, hsecond⟩
  | up hhere hname h ih =>
    obtain ⟨rfl, rfl⟩ | ⟨first, rfl, rfl⟩ := List.cons_eq_append_iff.mp hsteps
    · exact ⟨_, .stop hhere, _, .up hhere hname h⟩
    · obtain ⟨mid, hfirst, hsecond⟩ := ih rfl
      exact ⟨mid, .up hhere hname hfirst, hsecond⟩
  | @free links here name hhere hname hnone =>
    obtain ⟨rfl, rfl⟩ | ⟨first, rfl, hrest⟩ := List.cons_eq_append_iff.mp hsteps
    · exact ⟨here, .stop hhere, links, .free hhere hname hnone⟩
    · exact absurd (List.append_eq_nil_iff.mp hrest.symm).2 hne
  | link hhere hname hlink h ih =>
    obtain ⟨rfl, rfl⟩ | ⟨first, rfl, rfl⟩ := List.cons_eq_append_iff.mp hsteps
    · exact ⟨_, .stop hhere, _, .link hhere hname hlink h⟩
    · obtain ⟨mid, hfirst, hsecond⟩ := ih (List.append_assoc _ _ _).symm
      exact ⟨mid, .link hhere hname hlink hfirst, hsecond⟩
  | down hhere hname hnode hnot h ih =>
    obtain ⟨rfl, rfl⟩ | ⟨first, rfl, rfl⟩ := List.cons_eq_append_iff.mp hsteps
    · exact ⟨_, .stop hhere, _, .down hhere hname hnode hnot h⟩
    · obtain ⟨mid, hfirst, hsecond⟩ := ih rfl
      exact ⟨mid, .down hhere hname hnode hnot hfirst, hsecond⟩

/-- An access goes on from where its first steps lead, whatever comes of it. -/
theorem append (h : Follows t links here steps place) (hplace : place = .present l node)
    (more : List String) : ∃ left, t.follow links here (steps ++ more) = t.follow left l more := by
  induction h with
  | stop =>
    cases hplace
    exact ⟨_, rfl⟩
  | here hhere hname _ ih =>
    rw [List.cons_append, follow_here hhere hname]
    exact ih hplace
  | up hhere hname _ ih =>
    rw [List.cons_append, follow_up hhere hname]
    exact ih hplace
  | free => cases hplace
  | link hhere hname hlink _ ih =>
    rw [List.cons_append, follow_link hhere hname hlink, ← List.append_assoc]
    exact ih hplace
  | down hhere hname hnode hnot _ ih =>
    rw [List.cons_append, follow_down hhere hname hnode hnot]
    exact ih hplace

end Follows

end Checkup.Tree
