import Checkup.Proofs.Tree.Resolution

/-!
# Reading back what was written

A file that was written is found again by the path it was written at, whatever links lie on the way.
Following the path once more meets the same folders and links, since a write puts files and folders
only where there was neither a folder nor a link; and no path resolves to another location than
before.

* `find_of_writeText`: the file that was written is found.
* `LinkedAlike.resolveFrom_eq`: resolving depends on the links of a tree only.
* `content_of_writeText`: the text that was written is read.
-/

namespace Checkup.Tree

variable {t t' : Tree} {steps : List String} {here l : Location}

/-- Neither a folder nor a link stands at a location. -/
structure Replaceable (t : Tree) (l : Location) : Prop where
  folder : t.node? l ≠ some .folder
  link : ∀ target, t.node? l ≠ some (.link target)

namespace Replaceable

theorem of_none (h : t.node? l = none) : t.Replaceable l := by
  refine ⟨?_, fun target => ?_⟩
  · rw [h]
    exact (Option.some_ne_none _).symm
  · rw [h]
    exact (Option.some_ne_none _).symm

theorem of_file {bytes : ByteArray} (h : t.node? l = some (.file bytes)) : t.Replaceable l := by
  refine ⟨fun heq => ?_, fun target heq => ?_⟩
  · rw [h] at heq
    cases heq
  · rw [h] at heq
    cases heq

theorem ne_nil (h : t.Replaceable l) : l ≠ [] := by
  rintro rfl
  exact h.folder (node?_nil t)

end Replaceable

/-! ## Following a path once more -/

variable {bytes : ByteArray} {place : Place}

/-- A file that was put at the end of an access is found by its steps. -/
theorem Follows.put {links : Nat} (h : Follows t links here steps place) (hl : t.Replaceable l)
    (hplace : place.location = l) :
    Follows (t.put l (.file bytes)) links here steps (.present l (.file bytes)) := by
  have hself : (t.put l (.file bytes)).node? l = some (.file bytes) := by
    rw [node?_put t hl.ne_nil, if_pos rfl]
  have hfolder : ∀ {k}, t.node? k = some .folder →
      (t.put l (.file bytes)).node? k = some .folder := by
    intro k hk
    have hne : k ≠ l := by
      rintro rfl
      exact hl.folder hk
    rwa [node?_put_of_ne t hne]
  induction h with
  | stop =>
    cases hplace
    exact .stop hself
  | here hhere hname _ ih => exact .here (hfolder hhere) hname (ih hplace)
  | up hhere hname _ ih => exact .up (hfolder hhere) hname (ih hplace)
  | free hhere hname =>
    cases hplace
    exact .down (hfolder hhere) hname hself (fun _ h => by cases h) (.stop hself)
  | @link links here name target rest place hhere hname hlink _ ih =>
    have hne : here ++ [name] ≠ l := by
      rintro rfl
      exact hl.link target hlink
    refine .link (hfolder hhere) hname ?_ (ih hplace)
    rwa [node?_put_of_ne t hne]
  | @down links here name rest place node hhere hname hnode hnot _ ih =>
    by_cases hnext : here ++ [name] = l
    · have hput : (t.put l (.file bytes)).node? (here ++ [name]) = some (.file bytes) := by
        rw [hnext, hself]
      exact .down (hfolder hhere) hname hput (fun _ h => by cases h) (ih hplace)
    · refine .down (hfolder hhere) hname ?_ hnot (ih hplace)
      rwa [node?_put_of_ne t hnext]

/-- A file that was put where a path leads is found there. -/
theorem find_put (hl : t.Replaceable l) (hplace : place.location = l) (h : t.find steps = .ok place) :
    (t.put l (.file bytes)).find steps = .ok (.present l (.file bytes)) := by
  obtain ⟨hpath, hfollows⟩ := find_eq_ok_iff.mp h
  exact find_eq_ok_iff.mpr ⟨hpath, hfollows.put hl hplace⟩

/-- The first part of a path that can be followed can be followed. -/
theorem find_of_prefix {q : List String} (hq : q <+: steps) (h : t.find steps = .ok place) :
    ∃ place', t.find q = .ok place' := by
  obtain ⟨more, rfl⟩ := hq
  rcases eq_or_ne more [] with rfl | hne
  · rw [List.append_nil] at h
    exact ⟨place, h⟩
  · obtain ⟨hpath, hfollows⟩ := find_eq_ok_iff.mp h
    obtain ⟨mid, hfirst, -⟩ := hfollows.split rfl hne
    rw [pathBytes_append] at hpath
    exact ⟨_, find_eq_ok_iff.mpr ⟨Nat.le_of_add_right_le hpath, hfirst⟩⟩

/-! ## Resolving a path once more -/

theorem length_links_put (entries : List (Location × Node)) {node : Node} (hnode : isLink node = false)
    (hl : ∀ old, entries.lookup l = some old → isLink old = false) :
    ((Association.put entries l node).filter fun entry => isLink entry.2).length =
      (entries.filter fun entry => isLink entry.2).length := by
  induction entries with
  | nil =>
    rw [Association.put, List.filter_cons, hnode]
    rfl
  | cons entry rest ih =>
    obtain ⟨k, old⟩ := entry
    rw [Association.put]
    split
    · rename_i hk
      subst hk
      have hold : isLink old = false := hl old (by rw [Association.lookup_cons_eq, if_pos rfl])
      rw [List.filter_cons, List.filter_cons, hnode, hold]
      rfl
    · rename_i hk
      have hrest := ih fun other hother => hl other (by
        rw [Association.lookup_cons_eq, if_neg (Ne.symm hk), hother])
      rw [List.filter_cons, List.filter_cons]
      split
      · rw [List.length_cons, List.length_cons, hrest]
      · exact hrest

/-- The trees have the same links, and as many entries for them. -/
structure LinkedAlike (t t' : Tree) : Prop where
  links : SameLinks t t'
  count : t'.linkCount = t.linkCount

namespace LinkedAlike

theorem refl (t : Tree) : LinkedAlike t t := ⟨.refl t, rfl⟩

theorem trans {t'' : Tree} (h : LinkedAlike t t') (h' : LinkedAlike t' t'') : LinkedAlike t t'' :=
  ⟨h.links.trans h'.links, h'.count.trans h.count⟩

/-- Putting a file or a folder where there was no link. -/
theorem put (hl : t.Replaceable l) {node : Node} (hnode : isLink node = false) :
    LinkedAlike t (t.put l node) := by
  refine ⟨.put hl.ne_nil hnode hl.link, ?_⟩
  rw [linkCount_eq, linkCount_eq]
  refine length_links_put t.entries hnode fun old hold => ?_
  have hthere : t.node? l = some old := by
    unfold node?
    rw [if_neg hl.ne_nil, hold]
  cases old with
  | link target => exact absurd hthere (hl.link target)
  | file old => rfl
  | folder => rfl

theorem resolveWith_eq (h : LinkedAlike t t') {expand expand' : Location → String → Resolved}
    (hexpand : ∀ link target, expand' link target = expand link target) :
    t'.resolveWith expand' here steps = t.resolveWith expand here steps := by
  induction steps generalizing here with
  | nil => rfl
  | cons name rest ih =>
    rw [resolveWith, resolveWith]
    split
    · exact ih
    · split
      · exact ih
      · split
        · rename_i target hnode
          rw [(h.links _ _).mp hnode]
          dsimp only
          rw [hexpand]
          split
          · exact ih
          · rfl
        · rename_i hnode'
          split
          · rename_i target hnode
            exact absurd ((h.links _ _).mpr hnode) (hnode' target)
          · exact ih

/-- Resolving a path depends on the links of a tree only. -/
theorem resolveFrom_eq (h : LinkedAlike t t') (fuel : Nat) (pending : List Location) :
    t'.resolveFrom fuel pending here steps = t.resolveFrom fuel pending here steps := by
  induction fuel generalizing pending here steps with
  | zero => exact h.resolveWith_eq fun _ _ => rfl
  | succ fuel ih =>
    refine h.resolveWith_eq fun link target => ?_
    rw [ih]

/-- A path resolves to the location as before, if that can be followed at all. -/
theorem resolveSteps_eq (h : LinkedAlike t t') (hresolve : t.resolveSteps steps = .ok l)
    (hfind : t'.find l = .ok place) : t'.resolveSteps steps = .ok l := by
  unfold resolveSteps at hresolve ⊢
  rw [h.count, h.resolveFrom_eq]
  split at hresolve
  · exact hresolve
  · dsimp only at hresolve ⊢
    split at hresolve
    · cases hresolve
    · cases hresolve
      rw [hfind]

end LinkedAlike

/-! ## Writing -/

theorem linkedAlike_makeFolder {made : Tree} (h : t.makeFolder steps = .ok made) :
    LinkedAlike t made := by
  rcases makeFolder_eq_ok h with rfl | ⟨q, name, parent, -, -, hnone, rfl⟩
  · exact .refl made
  · exact .put (.of_none hnone) rfl

theorem linkedAlike_makeFoldersUp {up : List String} {result : Except Fault Unit}
    (h : t.makeFoldersUp up = (result, t')) : LinkedAlike t t' := by
  induction up generalizing result t' with
  | nil =>
    cases h
    exact .refl t
  | cons name up ih =>
    rw [makeFoldersUp] at h
    split at h
    · rename_i made hmade
      cases h
      exact linkedAlike_makeFolder hmade
    · split at h
      · rename_i fault left hup
        cases h
        exact ih hup
      · rename_i above hup
        split at h
        · rename_i made hmade
          cases h
          exact (ih hup).trans (linkedAlike_makeFolder hmade)
        · cases h
          exact ih hup
    · cases h
      exact .refl t

/-- A write that succeeds puts the file where its path leads once the folders above it are made. -/
theorem exists_place_of_writeText {text : String} (h : t.writeText steps text = (.ok (), t')) :
    ∃ made place, LinkedAlike t made ∧ made.find steps = .ok place ∧
      made.Replaceable place.location ∧ t' = made.put place.location (.file text.toUTF8) := by
  unfold writeText makeFolders at h
  split at h
  · cases h
  · rename_i made hfolders
    split at h
    · rename_i written hwritten
      cases h
      have halike := linkedAlike_makeFoldersUp hfolders
      obtain ⟨l, hput, hfind | ⟨old, hfind⟩⟩ := eq_put_of_writeBytes hwritten
      · exact ⟨made, _, halike, hfind, .of_none (leads_of_find hfind).2, hput⟩
      · exact ⟨made, _, halike, hfind, .of_file (leads_of_find hfind).2, hput⟩
    · cases h

/-- The file that was written is found, and the links are what they were. -/
theorem find_of_writeText {text : String} (h : t.writeText steps text = (.ok (), t')) :
    LinkedAlike t t' ∧ ∃ l, t'.find steps = .ok (.present l (.file text.toUTF8)) := by
  obtain ⟨made, place, halike, hfind, hplace, rfl⟩ := exists_place_of_writeText h
  exact ⟨halike.trans (.put hplace rfl), place.location, find_put hplace rfl hfind⟩

/-- The text that was written is read, unless it holds carriage returns. -/
theorem content_of_writeText {text : String} (h : t.writeText steps text = (.ok (), t'))
    (htext : '\r' ∉ text.toList) : t'.content steps = some text := by
  obtain ⟨-, l, hfind⟩ := find_of_writeText h
  rw [content_of_find hfind, nodeText, decodeText_toUTF8 htext]
  rfl

end Checkup.Tree
