import Checkup.Proofs.Text.Pieces
import Checkup.Proofs.Tree.Ordinary

/-!
# The steps of paths

Writing steps with slashes between them and reading them again gives them back, and joining paths
joins their steps. On paper, the normal form of steps leads where the steps lead.

* `steps_absolute`, `steps_relative`, `steps_join`: the steps of a path that was put together.
* `normalSteps_eq`: the normal form of an absolute path is where it leads on paper.
* `lexical_steps_normal`: so does that of a relative path, from any location.
-/

namespace Checkup.Path

/-- A name that can be a step of a path. -/
structure IsStep (name : String) : Prop where
  ne_empty : name ≠ ""
  ne_here : name ≠ "."
  no_slash : '/' ∉ name.toList

theorem IsStep.of_name {name : String} (h : Tree.IsName name) : IsStep name :=
  ⟨h.ne_empty, h.ne_here, h.no_slash⟩

theorem isStep_of {name : String} (h : IsStep name) : isStep name = true := by
  unfold isStep
  rw [Bool.and_eq_true, bne_iff_ne, bne_iff_ne]
  exact ⟨h.ne_empty, h.ne_here⟩

/-! ## Pieces of a text -/

theorem pieces_append_slash (first second : String) :
    Text.pieces '/' (first ++ "/" ++ second) = Text.pieces '/' first ++ Text.pieces '/' second := by
  unfold Text.pieces
  have htext : (first ++ "/" ++ second).toList = first.toList ++ '/' :: second.toList := by
    rw [String.toList_append, String.toList_append, List.append_assoc]
    rfl
  rw [htext, Text.splitOn_append_cons, List.map_append]

theorem pieces_of_no_slash {name : String} (h : '/' ∉ name.toList) : Text.pieces '/' name = [name] := by
  unfold Text.pieces
  rw [Text.splitOn_of_not_mem h, List.map_singleton, String.ofList_toList]

/-! ## Steps of paths -/

theorem steps_append_slash (first second : String) :
    steps (first ++ "/" ++ second) = steps first ++ steps second := by
  unfold steps
  rw [pieces_append_slash, List.filter_append]

theorem steps_of_isStep {name : String} (h : IsStep name) : steps name = [name] := by
  unfold steps
  rw [pieces_of_no_slash h.no_slash, List.filter_singleton, isStep_of h]
  rfl

theorem steps_empty : steps "" = [] := rfl

theorem steps_slash (path : String) : steps ("/" ++ path) = steps path := by
  have h := steps_append_slash "" path
  rwa [String.empty_append, steps_empty, List.nil_append] at h

theorem steps_joinWith {names : List String} (h : ∀ name ∈ names, IsStep name) :
    steps (Text.joinWith "/" names) = names := by
  induction names with
  | nil => rfl
  | cons name rest ih =>
    obtain ⟨hname, hrest⟩ := List.forall_mem_cons.mp h
    cases rest with
    | nil => exact steps_of_isStep hname
    | cons next more =>
      rw [Text.joinWith, steps_append_slash, steps_of_isStep hname, ih hrest]
      rfl

theorem steps_absolute {names : List String} (h : ∀ name ∈ names, IsStep name) :
    steps (absolute names) = names := by
  unfold absolute
  rw [steps_slash, steps_joinWith h]

theorem steps_relative {names : List String} (h : ∀ name ∈ names, IsStep name) :
    steps (relative names) = names := by
  unfold relative
  cases names with
  | nil => rfl
  | cons name rest => exact steps_joinWith h

theorem no_slash_of_mem_pieces {path name : String} (h : name ∈ Text.pieces '/' path) :
    '/' ∉ name.toList := by
  intro hslash
  obtain ⟨chars, hchars, rfl⟩ := List.mem_map.mp h
  rw [String.toList_ofList] at hslash
  have hstop := Text.not_stop_of_mem_splitWhere hchars '/' hslash
  cases hstop

/-- Every step of a path is one that can be written. -/
theorem isStep_of_mem_steps {path name : String} (h : name ∈ steps path) : IsStep name := by
  obtain ⟨hpiece, hstep⟩ := List.mem_filter.mp h
  unfold isStep at hstep
  rw [Bool.and_eq_true, bne_iff_ne, bne_iff_ne] at hstep
  exact ⟨hstep.1, hstep.2, no_slash_of_mem_pieces hpiece⟩

theorem steps_append_of_slash {first : String} (h : Text.endsWith first.toList ['/'] = true)
    (second : String) : steps (first ++ second) = steps first ++ steps second := by
  obtain ⟨head, hhead⟩ : ['/'] <:+ first.toList := by
    rw [← List.reverse_prefix]
    exact List.isPrefixOf_iff_prefix.mp h
  obtain rfl : first = String.ofList head ++ "/" := by
    rw [← String.toList_inj, ← hhead, String.toList_append, String.toList_ofList]
    rfl
  have hfirst := steps_append_slash (String.ofList head) ""
  rw [String.append_empty, steps_empty, List.append_nil] at hfirst
  rw [steps_append_slash, hfirst]

theorem steps_join {first second : String} (h : isAbsolute second = false) :
    steps (join first second) = steps first ++ steps second := by
  unfold join
  rw [h, if_neg Bool.false_ne_true]
  split
  · rename_i hfirst
    rw [Bool.or_eq_true, decide_eq_true_eq] at hfirst
    rcases hfirst with rfl | hslash
    · rw [String.empty_append, steps_empty, List.nil_append]
    · exact steps_append_of_slash hslash second
  · exact steps_append_slash first second

theorem isAbsolute_append {first : String} (h : first ≠ "") (second : String) :
    isAbsolute (first ++ second) = isAbsolute first := by
  unfold isAbsolute Text.startsWith
  rw [String.toList_append]
  cases hf : first.toList with
  | nil => exact absurd (String.toList_eq_nil_iff.mp hf) h
  | cons c rest =>
    have hslash : "/".toList = ['/'] := rfl
    rw [hslash, List.cons_append, List.isPrefixOf_cons_cons, List.isPrefixOf_cons_cons]
    rfl

theorem isAbsolute_name {name : String} (h : IsStep name) : isAbsolute name = false := by
  rw [Bool.eq_false_iff]
  intro habs
  refine h.no_slash ?_
  exact (List.isPrefixOf_iff_prefix.mp habs).subset (List.mem_singleton_self '/')

theorem isAbsolute_joinWith {names : List String} (h : ∀ name ∈ names, IsStep name) :
    isAbsolute (Text.joinWith "/" names) = false := by
  cases names with
  | nil => rfl
  | cons name rest =>
    have hname := h name (List.mem_cons_self ..)
    cases rest with
    | nil => exact isAbsolute_name hname
    | cons next more =>
      rw [Text.joinWith, String.append_assoc, isAbsolute_append hname.ne_empty]
      exact isAbsolute_name hname

theorem isAbsolute_relative {names : List String} (h : ∀ name ∈ names, IsStep name) :
    isAbsolute (relative names) = false := by
  unfold relative
  split
  · rfl
  · exact isAbsolute_joinWith h

theorem isAbsolute_join {first second : String} (hne : first ≠ "")
    (h : isAbsolute second = false) : isAbsolute (join first second) = isAbsolute first := by
  unfold join
  rw [h, if_neg Bool.false_ne_true]
  split
  · exact isAbsolute_append hne second
  · rw [String.append_assoc, isAbsolute_append hne]

theorem stepsFrom_relative {path : String} (h : isAbsolute path = false) (directory : List String) :
    stepsFrom directory path = directory ++ steps path := by
  unfold stepsFrom
  rw [h]
  rfl

/-! ## Normal forms -/

theorem lexical_reverse_cons (here : Location) (last : String) (rest : List String) :
    Tree.lexical here (last :: rest).reverse =
      Tree.lexical (Tree.lexical here rest.reverse) [last] := by
  rw [List.reverse_cons, Tree.lexical_append]

/-- A step goes onto a normal form as it goes onto a location. -/
theorem lexical_pushStep {rooted : Bool} {here : Location} (hroot : rooted = true → here = [])
    {reversed : List String} (hr : "." ∉ reversed) {name : String} (hname : name ≠ ".") :
    Tree.lexical here (pushStep rooted reversed name).reverse =
      Tree.lexical (Tree.lexical here reversed.reverse) [name] := by
  unfold pushStep
  split
  · rename_i hup
    subst hup
    cases reversed with
    | nil =>
      cases rooted with
      | true =>
        rw [hroot rfl]
        rfl
      | false => rfl
    | cons last rest =>
      dsimp only
      rw [List.mem_cons, not_or] at hr
      split
      · exact lexical_reverse_cons here ".." (last :: rest)
      · rename_i hlast
        rw [lexical_reverse_cons here last rest]
        simp only [Tree.lexical, if_neg (Ne.symm hr.1), if_neg hlast, List.dropLast_concat]
        rfl
  · exact lexical_reverse_cons here name reversed

theorem lexical_foldl_pushStep {rooted : Bool} {here : Location}
    (hroot : rooted = true → here = []) {reversed steps : List String} (hr : "." ∉ reversed)
    (hs : "." ∉ steps) : Tree.lexical here (steps.foldl (pushStep rooted) reversed).reverse =
      Tree.lexical (Tree.lexical here reversed.reverse) steps := by
  induction steps generalizing reversed with
  | nil => rfl
  | cons name rest ih =>
    rw [List.mem_cons, not_or] at hs
    have hpush : "." ∉ pushStep rooted reversed name := by
      unfold pushStep
      split
      · split
        · split
          · exact List.not_mem_nil
          · decide
        · rename_i last more
          rw [List.mem_cons, not_or] at hr
          split
          · exact List.not_mem_cons_of_ne_of_not_mem (by decide) (List.not_mem_cons_of_ne_of_not_mem hr.1 hr.2)
          · exact hr.2
      · exact List.not_mem_cons_of_ne_of_not_mem hs.1 hr
    rw [List.foldl_cons, ih hpush hs.2, lexical_pushStep hroot hr (Ne.symm hs.1)]
    exact (Tree.lexical_append _ [name] rest).symm

/-- The normal form of steps leads where the steps lead. -/
theorem lexical_normalSteps {rooted : Bool} {here : Location} (hroot : rooted = true → here = [])
    {steps : List String} (hs : "." ∉ steps) :
    Tree.lexical here (normalSteps rooted steps) = Tree.lexical here steps :=
  lexical_foldl_pushStep hroot List.not_mem_nil hs

theorem not_here_steps (path : String) : "." ∉ steps path :=
  fun h => (isStep_of_mem_steps h).ne_here rfl

theorem plain_pushStep {reversed : List String} (h : Tree.Plain reversed) {name : String}
    (hname : name ≠ ".") : Tree.Plain (pushStep true reversed name) := by
  intro n hn
  unfold pushStep at hn
  split at hn
  · split at hn
    · cases hn
    · rename_i last rest
      obtain ⟨hlast, hrest⟩ := List.forall_mem_cons.mp h
      rw [if_neg hlast.2] at hn
      exact hrest n hn
  · rename_i hup
    rcases List.mem_cons.mp hn with rfl | hn
    · exact ⟨hname, hup⟩
    · exact h n hn

theorem plain_foldl_pushStep {reversed steps : List String} (h : Tree.Plain reversed)
    (hs : "." ∉ steps) : Tree.Plain (steps.foldl (pushStep true) reversed) := by
  induction steps generalizing reversed with
  | nil => exact h
  | cons name rest ih =>
    rw [List.mem_cons, not_or] at hs
    exact ih (plain_pushStep h (Ne.symm hs.1)) hs.2

/-- The normal form of an absolute path is where it leads on paper. -/
theorem normalSteps_eq {steps : List String} (hs : "." ∉ steps) :
    normalSteps true steps = Tree.lexical [] steps := by
  have hplain : Tree.Plain (normalSteps true steps) := fun name hn =>
    plain_foldl_pushStep Tree.plain_nil hs name (List.mem_reverse.mp hn)
  rw [← lexical_normalSteps (fun _ => rfl) hs, Tree.lexical_of_plain hplain, List.nil_append]

theorem mem_pushStep {rooted : Bool} {reversed : List String} {name n : String}
    (h : n ∈ pushStep rooted reversed name) : n ∈ reversed ∨ n = name := by
  unfold pushStep at h
  split at h
  · rename_i hup
    split at h
    · split at h
      · cases h
      · exact .inr (hup ▸ List.mem_singleton.mp h)
    · split at h
      · rcases List.mem_cons.mp h with h | h
        · exact .inr (hup ▸ h)
        · exact .inl h
      · exact .inl (List.mem_cons_of_mem _ h)
  · rcases List.mem_cons.mp h with h | h
    · exact .inr h
    · exact .inl h

theorem mem_normalSteps {rooted : Bool} {steps : List String} {n : String}
    (h : n ∈ normalSteps rooted steps) : n ∈ steps := by
  have hfold : ∀ reversed, n ∈ steps.foldl (pushStep rooted) reversed → n ∈ reversed ∨ n ∈ steps := by
    clear h
    induction steps with
    | nil => exact fun _ h => .inl h
    | cons name rest ih =>
      intro reversed h
      rcases ih _ h with h | h
      · rcases mem_pushStep h with h | rfl
        · exact .inl h
        · exact .inr (List.mem_cons_self ..)
      · exact .inr (List.mem_cons_of_mem name h)
  rcases hfold [] (List.mem_reverse.mp h) with h | h
  · cases h
  · exact h

theorem leadingSlashes_relative {path : String} (h : isAbsolute path = false) :
    leadingSlashes path.toList = "" := by
  unfold isAbsolute Text.startsWith at h
  cases hp : path.toList with
  | nil => rfl
  | cons c rest =>
    rw [hp] at h
    have hc : c ≠ '/' := by
      rintro rfl
      cases h
    unfold leadingSlashes
    split
    all_goals first | rfl | (rename_i heq; cases heq; exact absurd rfl hc)

/-- The normal form of a relative path has the normal form of its steps. -/
theorem steps_normal {path : String} (h : isAbsolute path = false) :
    steps (normal path) = normalSteps false (steps path) := by
  have hsteps : ∀ name ∈ normalSteps false (steps path), IsStep name :=
    fun name hn => isStep_of_mem_steps (mem_normalSteps hn)
  unfold normal
  dsimp only
  rw [leadingSlashes_relative h, h, String.empty_append]
  split
  · rename_i hempty
    have hjoin := steps_joinWith hsteps
    rw [hempty, steps_empty] at hjoin
    rw [← hjoin]
    rfl
  · exact steps_joinWith hsteps

/-- The normal form of a relative path leads where the path leads, from any location. -/
theorem lexical_steps_normal {path : String} (h : isAbsolute path = false) (here : Location) :
    Tree.lexical here (steps (normal path)) = Tree.lexical here (steps path) := by
  rw [steps_normal h, lexical_normalSteps (fun hfalse => by cases hfalse) (not_here_steps path)]

end Checkup.Path
