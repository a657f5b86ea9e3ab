import Checkup.Proofs.Tree.Spelling

/-!
# Normal forms of relative paths

The normal form of a relative path leads up first and then down. Such a list of names is known by where
it leads from every location, so the normal form does not depend on how it is computed. Written with
slashes, names can be read off a path again.

* `Normal`: names that lead up and then down.
* `normal_normalSteps`, `Normal.unique`: the normal form, and that there is no other one.
* `pieces_joinWith`, `joinWith_pieces`: names and the path that is written with them.
-/

namespace Checkup

namespace Path

variable {names names' : List String}

/-! ## Up and then down -/

/-- Names that lead up and then down. -/
def Normal (names : List String) : Prop :=
  ∃ ups downs, names = ups ++ downs ∧ (∀ n ∈ ups, n = "..") ∧ ∀ n ∈ downs, Tree.IsName n

theorem Normal.isStep (h : Normal names) : ∀ n ∈ names, IsStep n := by
  obtain ⟨ups, downs, rfl, hups, hdowns⟩ := h
  intro n hn
  rcases List.mem_append.mp hn with hn | hn
  · rw [hups n hn]
    exact ⟨by decide, by decide, by decide⟩
  · exact .of_name (hdowns n hn)

/-- A step keeps a normal form, which is held in reverse. -/
theorem normal_pushStep {reversed : List String} (h : Normal reversed.reverse) {name : String}
    (hname : IsStep name) : Normal (pushStep false reversed name).reverse := by
  obtain ⟨ups, downs, hsplit, hups, hdowns⟩ := h
  unfold pushStep
  split
  · cases reversed with
    | nil => exact ⟨[".."], [], rfl, by simp, by simp⟩
    | cons last rest =>
      dsimp only
      rw [List.reverse_cons] at hsplit
      rcases List.eq_nil_or_concat downs with rfl | ⟨init, lowest, rfl⟩
      · -- all names lead up, and so does the new one
        rw [List.append_nil] at hsplit
        have hlast : last = ".." := hups last (by simp [← hsplit])
        rw [if_pos hlast, List.reverse_cons, List.reverse_cons, hsplit]
        refine ⟨ups ++ [".."], [], by simp, fun n hn => ?_, by simp⟩
        rcases List.mem_append.mp hn with hn | hn
        · exact hups n hn
        · exact List.mem_singleton.mp hn
      · rw [List.concat_eq_append, ← List.append_assoc] at hsplit
        obtain ⟨hrest, hlast⟩ := List.append_inj' hsplit rfl
        obtain rfl : last = lowest := by simpa using hlast
        rw [if_neg (hdowns last (by simp)).ne_up, hrest]
        exact ⟨ups, init, rfl, hups, fun n hn => hdowns n (by simp [hn])⟩
  · rename_i hup
    rw [List.reverse_cons, hsplit]
    refine ⟨ups, downs ++ [name], by simp, hups, fun n hn => ?_⟩
    rcases List.mem_append.mp hn with hn | hn
    · exact hdowns n hn
    · rw [List.mem_singleton.mp hn]
      exact ⟨hname.ne_empty, hname.ne_here, hup, hname.no_slash⟩

theorem normal_normalSteps {steps : List String} (h : ∀ n ∈ steps, IsStep n) :
    Normal (normalSteps false steps) := by
  suffices hfold : ∀ reversed : List String, Normal reversed.reverse →
      Normal (steps.foldl (pushStep false) reversed).reverse from
    hfold [] ⟨[], [], rfl, by simp, by simp⟩
  induction steps with
  | nil => exact fun _ h => h
  | cons name rest ih =>
    obtain ⟨hname, hrest⟩ := List.forall_mem_cons.mp h
    exact fun reversed hr => ih hrest _ (normal_pushStep hr hname)

/-- Steps up from a location that is deep enough, and then down. -/
theorem lexical_up_down {ups downs : List String} (hups : ∀ n ∈ ups, n = "..")
    (hdowns : ∀ n ∈ downs, Tree.IsName n) (here : Location) (deep : Nat) :
    Tree.lexical (here ++ List.replicate (ups.length + deep) ".") (ups ++ downs) =
      here ++ List.replicate deep "." ++ downs := by
  induction ups with
  | nil =>
    rw [List.nil_append, Tree.lexical_of_plain fun n hn => ⟨(hdowns n hn).ne_here, (hdowns n hn).ne_up⟩]
    simp
  | cons first rest ih =>
    obtain ⟨rfl, hrest⟩ := List.forall_mem_cons.mp hups
    have hdeep : (".." :: rest).length + deep = rest.length + deep + 1 := by
      rw [List.length_cons]
      omega
    rw [hdeep, List.replicate_succ', List.cons_append, Tree.lexical, if_neg (by decide), if_pos rfl,
      ← List.append_assoc, List.dropLast_concat]
    exact ih hrest

/-- Two normal forms that lead to the same location from every location are the same. -/
theorem Normal.unique (h : Normal names) (h' : Normal names')
    (hleads : ∀ here, Tree.lexical here names = Tree.lexical here names') : names = names' := by
  obtain ⟨ups, downs, rfl, hups, hdowns⟩ := h
  obtain ⟨ups', downs', rfl, hups', hdowns'⟩ := h'
  have hsame := hleads ([] ++ List.replicate (ups.length + ups'.length) ".")
  rw [lexical_up_down hups hdowns, Nat.add_comm, lexical_up_down hups' hdowns'] at hsame
  simp only [List.nil_append] at hsame
  -- no name on the way down is a dot, so the dots count the steps up
  have hcount : ∀ {downs : List String}, (∀ n ∈ downs, Tree.IsName n) → downs.count "." = 0 :=
    fun hdowns => List.count_eq_zero.mpr fun hmem => (hdowns _ hmem).ne_here rfl
  have hlengths := congrArg (List.count ".") hsame
  simp only [List.count_append, List.count_replicate_self, hcount hdowns, hcount hdowns',
    Nat.add_zero] at hlengths
  rw [hlengths, List.append_cancel_left_eq] at hsame
  rw [hsame, List.eq_replicate_of_mem hups, List.eq_replicate_of_mem hups', hlengths]

/-! ## Names between slashes -/

theorem pieces_joinWith (hne : names ≠ []) (h : ∀ n ∈ names, '/' ∉ n.toList) :
    Text.pieces '/' (Text.joinWith "/" names) = names := by
  induction names with
  | nil => exact absurd rfl hne
  | cons first rest ih =>
    obtain ⟨hfirst, hrest⟩ := List.forall_mem_cons.mp h
    cases rest with
    | nil => exact pieces_of_no_slash hfirst
    | cons second more =>
      rw [Text.joinWith, pieces_append_slash, pieces_of_no_slash hfirst, ih (by simp) hrest]
      rfl

theorem toList_joinWith_pieces (pieces : List (List Char)) :
    (Text.joinWith "/" (pieces.map String.ofList)).toList = Text.glue '/' pieces := by
  induction pieces with
  | nil => rfl
  | cons first rest ih =>
    cases rest with
    | nil => simp [Text.joinWith, Text.glue]
    | cons second more =>
      rw [List.map_cons] at ih
      simp [Text.joinWith, Text.glue, ih]

theorem joinWith_pieces (path : String) : Text.joinWith "/" (Text.pieces '/' path) = path := by
  rw [← String.toList_inj, Text.pieces, toList_joinWith_pieces, Text.glue_splitOn]

theorem joinWith_append (above : List String) (name text : String) :
    Text.joinWith "/" (above ++ [name]) ++ text = Text.joinWith "/" (above ++ [name ++ text]) := by
  induction above with
  | nil => rfl
  | cons first rest ih =>
    obtain ⟨second, more, hmore⟩ := List.exists_cons_of_ne_nil (List.concat_ne_nil name rest)
    obtain ⟨second', more', hmore'⟩ := List.exists_cons_of_ne_nil (List.concat_ne_nil (name ++ text) rest)
    rw [hmore, hmore'] at ih
    rw [List.cons_append, List.cons_append, hmore, hmore', Text.joinWith, Text.joinWith,
      String.append_assoc, ih]

end Path

end Checkup
