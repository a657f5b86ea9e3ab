import Mathlib.Data.List.Nodup
import Checkup.Proofs.Scan.Workspace

/-!
# A walk finds no file twice

The names in a folder are sorted, and of equal ones only the first is left. So a walk enters no
folder twice, and no two of its paths are the same. All of them lead below the folder in which it
starts.

* `Tree.nodup_children`: no name is listed twice.
* `Context.nodup_findFiles`: no file is found twice.
* `Context.inside_of_mem_findFiles`: every file that is found lies below the root.
-/

namespace Checkup

/-! ## Names in order -/

namespace Tree

theorem nameLE_trans (a b c : String) (hab : nameLE a b = true) (hbc : nameLE b c = true) :
    nameLE a c = true := by
  simp only [nameLE, Bool.not_eq_true', decide_eq_false_iff_not, String.not_lt] at *
  exact String.le_trans hab hbc

theorem nameLE_total (a b : String) : (nameLE a b || nameLE b a) = true := by
  simp only [nameLE, Bool.or_eq_true, Bool.not_eq_true', decide_eq_false_iff_not, String.not_lt]
  exact String.le_total a b

theorem eq_of_nameLE {a b : String} (hab : nameLE a b = true) (hba : nameLE b a = true) : a = b := by
  simp only [nameLE, Bool.not_eq_true', decide_eq_false_iff_not, String.not_lt] at *
  exact String.le_antisymm hab hba

/-- The names that are left are all different, once they are in order: the last one that was left is
the greatest so far. -/
theorem nodup_loop_eraseReps {first : String} {rest found : List String}
    (hsorted : (first :: rest).Pairwise fun a b => nameLE a b = true)
    (hfound : found.Nodup) (hfirst : ∀ x ∈ found, nameLE x first = true ∧ x ≠ first) :
    (List.eraseRepsBy.loop (· == ·) first rest found).Nodup := by
  induction rest generalizing first found with
  | nil =>
    rw [List.eraseRepsBy.loop, List.nodup_reverse, List.nodup_cons]
    exact ⟨fun hmem => (hfirst first hmem).2 rfl, hfound⟩
  | cons next more ih =>
    obtain ⟨hle, hmore⟩ := List.pairwise_cons.mp hsorted
    have hnext := hle next (List.mem_cons_self ..)
    rw [List.eraseRepsBy.loop]
    split
    · rename_i heq
      obtain rfl := beq_iff_eq.mp heq
      exact ih hmore hfound hfirst
    · rename_i hne
      have hne : first ≠ next := by simpa using hne
      apply ih hmore
      · exact List.nodup_cons.mpr ⟨fun hmem => (hfirst first hmem).2 rfl, hfound⟩
      · intro x hx
        rcases List.mem_cons.mp hx with rfl | hx
        · exact ⟨hnext, hne⟩
        · obtain ⟨hxle, -⟩ := hfirst x hx
          refine ⟨nameLE_trans _ _ _ hxle hnext, ?_⟩
          rintro rfl
          exact hne (eq_of_nameLE hnext hxle)

theorem nodup_children (t : Tree) (location : Location) : (t.children location).Nodup := by
  unfold children
  have hsorted := List.pairwise_mergeSort nameLE_trans nameLE_total
    (t.entries.filterMap fun entry => childName? location entry.1)
  generalize (t.entries.filterMap fun entry => childName? location entry.1).mergeSort nameLE = names
    at hsorted
  unfold List.eraseReps
  cases names with
  | nil => exact List.nodup_nil
  | cons first rest =>
    exact nodup_loop_eraseReps hsorted List.nodup_nil fun x hx => absurd hx List.not_mem_nil

end Tree

/-! ## Paths that lead down -/

namespace Path

/-- The path leads to a place below the one where it starts, and is spelled in the plain way. -/
structure Inside (path : String) : Prop where
  relative : isAbsolute path = false
  plain : Tree.Plain (steps path)
  spelled : Text.joinWith "/" (steps path) = path

namespace Inside

/-- A path that leads down is known by its steps. -/
theorem eq_of_steps {path path' : String} (h : Inside path) (h' : Inside path')
    (heq : steps path = steps path') : path = path' := by
  rw [← h.spelled, ← h'.spelled, heq]

theorem empty : Inside "" := by
  refine ⟨by decide, ?_, ?_⟩
  · rw [steps_empty]
    exact Tree.plain_nil
  · rw [steps_empty]
    rfl

theorem of_name {name : String} (h : Tree.IsName name) : Inside name := by
  have hsteps : steps name = [name] := steps_of_isStep (.of_name h)
  refine ⟨isAbsolute_name (.of_name h), ?_, ?_⟩
  · rw [hsteps]
    exact Tree.plain_nil.concat h.ne_here h.ne_up
  · rw [hsteps]
    rfl

end Inside

theorem joinWith_concat {names : List String} (hne : names ≠ []) (name : String) :
    Text.joinWith "/" (names ++ [name]) = Text.joinWith "/" names ++ "/" ++ name := by
  induction names with
  | nil => exact absurd rfl hne
  | cons first rest ih =>
    cases rest with
    | nil => rfl
    | cons second more =>
      show first ++ "/" ++ Text.joinWith "/" (second :: more ++ [name]) = _
      rw [ih (by simp)]
      show _ = first ++ "/" ++ Text.joinWith "/" (second :: more) ++ "/" ++ name
      simp only [String.append_assoc]

end Path

/-! ## Walks -/

namespace Context

variable {c : Context} {t : Tree} {accepts : String → Bool}

/-- What the walk finds at one entry of a folder. -/
def found (c : Context) (t : Tree) (accepts : String → Bool) (left : Nat) (steps : List String)
    (folder name : String) : List String :=
  match entryKind t (steps ++ [name]) with
  | .unknown => []
  | .folder =>
    if isSkippedName name || c.isIgnored (entryPath folder name) true then []
    else walk c t accepts left (steps ++ [name]) (entryPath folder name)
  | .file =>
    if accepts (entryPath folder name) && !c.isIgnored (entryPath folder name) false then
      [entryPath folder name]
    else []

theorem walk_succ (left : Nat) (steps : List String) (folder : String) :
    walk c t accepts (left + 1) steps folder =
      (namesIn t steps).flatMap (c.found t accepts left steps folder) := rfl

theorem findFiles_eq_flatMap (c : Context) (t : Tree) (p : Pattern) :
    c.findFiles t p = (namesIn t c.root).flatMap (c.found t p.accepts defaultDepth c.root "") := rfl

/-- What is found at an entry of a folder is found by the walk of the folder. -/
theorem mem_walk_of_found {left : Nat} {steps : List String} {folder name path : String}
    (hname : name ∈ namesIn t steps) (h : path ∈ c.found t accepts left steps folder name) :
    path ∈ c.walk t accepts (left + 1) steps folder := by
  rw [walk_succ]
  exact List.mem_flatMap.mpr ⟨name, hname, h⟩

/-- What is found at a folder that is entered is found by the walk of it. -/
theorem found_folder {left : Nat} {steps : List String} {folder name : String}
    (hkind : entryKind t (steps ++ [name]) = .folder) (hskip : isSkippedName name = false)
    (hignored : c.isIgnored (entryPath folder name) true = false) :
    c.found t accepts left steps folder name =
      c.walk t accepts left (steps ++ [name]) (entryPath folder name) := by
  unfold found
  rw [hkind, hskip, hignored]
  rfl

theorem nodup_namesIn (t : Tree) (steps : List String) : (namesIn t steps).Nodup := by
  unfold namesIn
  split
  · exact Tree.nodup_children t _
  · exact List.nodup_nil

/-- What is found at an entry is the entry itself, or lies below it. -/
theorem exists_of_mem_found {left : Nat} {steps : List String} {folder name path : String}
    (hname : name ≠ "") (h : path ∈ c.found t accepts left steps folder name) :
    ∃ rest, path = entryPath folder rest ∧ (rest = name ∨ ∃ more, rest = name ++ "/" ++ more) := by
  unfold found at h
  split at h
  · cases h
  · split at h
    · cases h
    · obtain ⟨more, rfl⟩ := exists_of_mem_walk_folder (entryPath_ne_empty hname) h
      refine ⟨name ++ "/" ++ more, ?_, .inr ⟨more, rfl⟩⟩
      rw [entryPath_append, entryPath_append]
  · split at h
    · exact ⟨name, List.mem_singleton.mp h, .inl rfl⟩
    · cases h

theorem found_disjoint {left : Nat} {steps : List String} {folder first second : String}
    (hfirst : Tree.IsName first) (hsecond : Tree.IsName second) (hne : first ≠ second) :
    (c.found t accepts left steps folder first).Disjoint
      (c.found t accepts left steps folder second) := by
  intro path h h'
  obtain ⟨rest, rfl, hrest⟩ := exists_of_mem_found hfirst.ne_empty h
  obtain ⟨rest', heq, hrest'⟩ := exists_of_mem_found hsecond.ne_empty h'
  obtain rfl := entryPath_inj heq
  rcases hrest with rfl | ⟨more, rfl⟩ <;> rcases hrest' with heq | ⟨more', heq⟩
  · exact hne heq
  · exact Path.ne_append_slash hfirst.no_slash _ _ heq
  · exact Path.ne_append_slash hsecond.no_slash _ _ heq.symm
  · exact hne (Path.eq_of_append_slash hfirst.no_slash hsecond.no_slash heq)

theorem nodup_walk (ht : t.Named) (left : Nat) (steps : List String) (folder : String) :
    (c.walk t accepts left steps folder).Nodup := by
  induction left generalizing steps folder with
  | zero => exact List.nodup_nil
  | succ left ih =>
    rw [walk_succ, List.nodup_flatMap]
    constructor
    · intro name hname
      unfold found
      split
      · exact List.nodup_nil
      · split
        · exact List.nodup_nil
        · exact ih _ _
      · split
        · exact List.nodup_singleton _
        · exact List.nodup_nil
    · refine (nodup_namesIn t steps).pairwise_of_forall_ne ?_
      intro first hfirst second hsecond hne
      exact found_disjoint (isName_of_mem_namesIn ht hfirst) (isName_of_mem_namesIn ht hsecond) hne

/-- No file is found twice. -/
theorem nodup_findFiles (ht : t.Named) (c : Context) (p : Pattern) : (c.findFiles t p).Nodup :=
  nodup_walk ht _ _ _

theorem inside_entryPath {folder name : String} (hfolder : Path.Inside folder)
    (hname : Tree.IsName name) : Path.Inside (entryPath folder name) := by
  have hsteps := steps_entryPath folder hname
  refine ⟨isAbsolute_entryPath hfolder.relative hname, ?_, ?_⟩
  · rw [hsteps]
    exact hfolder.plain.concat hname.ne_here hname.ne_up
  · rw [hsteps]
    unfold entryPath
    split
    · rename_i hempty
      rw [hempty, Path.steps_empty]
      rfl
    · rename_i hne
      rw [Path.joinWith_concat, hfolder.spelled]
      intro hnil
      have hspelled := hfolder.spelled
      rw [hnil] at hspelled
      exact hne hspelled.symm

theorem inside_of_mem_walk (ht : t.Named) {left : Nat} {steps : List String} {folder path : String}
    (hfolder : Path.Inside folder) (h : path ∈ c.walk t accepts left steps folder) :
    Path.Inside path := by
  have hcomes := mem_walk_iff_comesTo.mp h
  clear h
  induction hcomes with
  | take hname => exact inside_entryPath hfolder (isName_of_mem_namesIn ht hname)
  | enter hname _ _ _ _ ih => exact ih (inside_entryPath hfolder (isName_of_mem_namesIn ht hname))

/-- Every file that is found lies below the root. -/
theorem inside_of_mem_findFiles (ht : t.Named) {p : Pattern} {path : String}
    (h : path ∈ c.findFiles t p) : Path.Inside path := inside_of_mem_walk ht .empty h

end Context

end Checkup
