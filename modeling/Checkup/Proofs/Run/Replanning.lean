import Checkup.Proofs.Project.Rediscovery
import Checkup.Proofs.Run.Targets

/-!
# Planning a run again

A tree that a run has amended has the settings of before, and a plan for it has the same rules and no
further scan roots.

* `Settings.load_amended`: the settings.
* `ScanRoot.ofProject_amended`: the scan roots.
* `Run.plan_amended`: the plan.
-/

namespace Checkup

variable {E : Edits} {t t' : Tree}

/-! ## Settings -/

namespace Settings

/-- The steps of the settings file for a path, which leads to a folder or not. -/
def fileSteps (steps : List String) (isFolder : Bool) : List String :=
  if isFolder then steps ++ [fileName]
  else if steps.getLast? = some fileName then steps
  else steps.dropLast ++ [fileName]

theorem filePath_eq (t : Tree) (current : List String) (path : String) : filePath t current path =
    (if '\x00' ∈ path.toList then .ok false
      else t.isFolder? (Path.stepsFrom current path)).map (fileSteps (Path.stepsFrom current path)) := by
  have hpick : ∀ (steps : List String) (isFolder : Bool),
      (if isFolder then pure (steps ++ [fileName])
        else if steps.getLast? = some fileName then pure steps
        else pure (steps.dropLast ++ [fileName]) : Except Fault (List String)) =
      .ok (fileSteps steps isFolder) := by
    intro steps isFolder
    unfold fileSteps
    split
    · rfl
    · split <;> rfl
  unfold filePath
  dsimp only [pure, Except.pure, bind, Except.bind] at hpick ⊢
  split
  · exact hpick _ _
  · cases t.isFolder? (Path.stepsFrom current path) with
    | error fault => rfl
    | ok isFolder => exact hpick _ _

/-- The settings file has its name, wherever it is looked for. -/
theorem fileSteps_eq (steps : List String) (isFolder : Bool) :
    ∃ up, fileSteps steps isFolder = up ++ [fileName] := by
  unfold fileSteps
  split
  · exact ⟨_, rfl⟩
  · split
    · rename_i hlast
      exact ⟨_, (List.dropLast_append_getLast? _ hlast).symm⟩
    · exact ⟨_, rfl⟩

theorem unamended_fileName : Unamended fileName := by
  refine unamended_of_ne (by decide) (by decide) (by decide) ?_
  unfold IsMarkup
  decide

/-- The settings are those of before. -/
theorem load_amended (hE : Aimed E t) (ht : t.Ordinary) (h : Amended E t t') (current : List String)
    (path : String) : load t' current path = load t current path := by
  have hgrown := h.grown hE ht
  unfold load
  rw [filePath_eq, filePath_eq, Tree.isFolder?_grown hgrown]
  cases (if '\x00' ∈ path.toList then Except.ok false
    else t.isFolder? (Path.stepsFrom current path)) with
  | error fault => rfl
  | ok isFolder =>
    obtain ⟨up, hup⟩ := fileSteps_eq (Path.stepsFrom current path) isFolder
    have hname : Tree.lexical [] (up ++ [fileName]) = Tree.lexical [] up ++ [fileName] :=
      Tree.lexical_concat [] up (by decide) (by decide)
    have hplain : Tree.Plain (Tree.lexical [] up ++ [fileName]) :=
      hname ▸ Tree.plain_lexical Tree.plain_nil _
    have hnone : ∀ a, ¬ E (Tree.lexical [] (Tree.lexical [] up ++ [fileName])) a := fun a ha =>
      unamended_fileName a (hE.suits_of_concat (by decide) (by decide) ha)
    dsimp only [Except.map, Except.mapError, bind, Except.bind]
    rw [hup, Tree.resolveSteps_eq ht, Tree.resolveSteps_eq hgrown.new, hname]
    dsimp only
    rw [Tree.exists?_grown hgrown _ (by decide) (by decide) (by decide)]
    cases hexists : t.exists? (Tree.lexical [] up ++ [fileName]) with
    | error fault => rfl
    | ok there =>
      cases there with
      | false => rfl
      | true =>
        unfold ofFile
        rw [h.readText_eq hE ht hnone hexists]

end Settings

theorem Run.settingsOf_amended (hE : Aimed E t) (ht : t.Ordinary) (h : Amended E t t')
    {p p' : Project} (hroot : p'.root = p.root) : settingsOf t' p' = settingsOf t p := by
  unfold settingsOf
  rw [hroot, Settings.load_amended hE ht h]

/-! ## Scan roots -/

/-- The scan root is the same directory of a project that was described again. -/
structure ScanRoot.Alike (r r' : ScanRoot) : Prop where
  steps : r'.steps = r.steps
  kind : r'.kind = r.kind
  isWorkspace : r'.isWorkspace = r.isWorkspace
  relativePath : r'.relativePath = r.relativePath
  projectKind : r'.project.kind = r.project.kind
  usesStaticTyping : r'.project.usesStaticTyping = r.project.usesStaticTyping
  workspaces : ∀ w ∈ r'.project.workspaceList, w ∈ r.project.workspaceList

namespace ScanRoot

variable {project project' : Project}

theorem whole_alike (h : Project.Alike project project') (kind : Kind) :
    Alike (whole project kind) (whole project' kind) := by
  refine ⟨?_, rfl, rfl, rfl, h.kind, h.usesStaticTyping, h.workspaces⟩
  unfold whole
  rw [h.root]

/-- A workspace is a scan root again. -/
theorem ofWorkspace_amended (hE : Aimed E t) (ht : t.Ordinary) (h : Amended E t t')
    (hp : Project.Alike project project') {w : Workspace} {r : ScanRoot}
    (hr : ofWorkspace t project w = .ok r) :
    ∃ r', ofWorkspace t' project' w = .ok r' ∧ Alike r r' := by
  obtain ⟨hdeep, typed, htyped, rfl⟩ := Run.ofWorkspace_eq_ok.mp hr
  refine ⟨_, Run.ofWorkspace_eq_ok.mpr ⟨mt (h.isTooDeep_manifest hE ht _).mp hdeep, typed, ?_, rfl⟩,
    rfl, rfl, rfl, rfl, rfl, rfl, fun _ hw => hw⟩
  rw [hp.usesStaticTyping,
    Tree.exists?_grown (h.grown hE ht) _ (by decide) (by decide) (by decide), htyped]

/-- The project has scan roots again, and each of them was one before. -/
theorem ofProject_amended (hE : Aimed E t) (ht : t.Ordinary) (h : Amended E t t')
    (hp : Project.Alike project project') {filter : String} {roots : List ScanRoot}
    (hroots : ofProject t project filter = .ok roots) :
    ∃ roots', ofProject t' project' filter = .ok roots' ∧ ∀ r' ∈ roots', ∃ r ∈ roots, Alike r r' := by
  unfold ofProject at hroots ⊢
  rw [hp.isMonorepo, hp.kind]
  cases hmonorepo : project.isMonorepo with
  | false =>
    rw [hmonorepo] at hroots
    cases hroots
    refine ⟨_, rfl, fun r' hr' => ⟨_, List.mem_singleton_self _, ?_⟩⟩
    rw [List.mem_singleton.mp hr']
    exact whole_alike hp project.kind
  | true =>
    rw [hmonorepo] at hroots
    cases hfound : (selected project filter).mapM (ofWorkspace t project) with
    | error fault =>
      rw [hfound] at hroots
      cases hroots
    | ok found =>
      rw [hfound] at hroots
      cases hroots
      -- the selected workspaces were selected before
      have hagain : ∀ w ∈ selected project' filter, ∃ r ∈ found, ∃ r',
          ofWorkspace t' project' w = .ok r' ∧ Alike r r' := by
        intro w hw
        obtain ⟨hw, hselected⟩ := List.mem_filter.mp hw
        obtain ⟨r, hr, hof⟩ := Except.mem_mapM hfound
          (List.mem_filter.mpr ⟨hp.workspaces w hw, hselected⟩)
        exact ⟨r, hr, ofWorkspace_amended hE ht h hp hof⟩
      obtain ⟨found', hfound'⟩ : ∃ found', (selected project' filter).mapM
          (ofWorkspace t' project') = .ok found' := by
        refine Except.exists_mapM fun w hw => ?_
        obtain ⟨_, -, r', hr', -⟩ := hagain w hw
        exact ⟨r', hr'⟩
      rw [hfound']
      refine ⟨_, rfl, fun r' hr' => ?_⟩
      rcases List.mem_cons.mp hr' with rfl | hr'
      · exact ⟨_, List.mem_cons_self .., whole_alike hp .monorepo⟩
      · obtain ⟨w, hw, hof⟩ := Except.mem_of_mapM hfound' hr'
        obtain ⟨r, hr, r'', hof', halike⟩ := hagain w hw
        rw [hof] at hof'
        cases hof'
        exact ⟨r, List.mem_cons_of_mem _ hr, halike⟩

/-- The project as a whole is a scan root again. -/
theorem whole_again (hp : Project.Alike project project') {filter : String}
    {roots roots' : List ScanRoot} (hroots : ofProject t project filter = .ok roots)
    (hroots' : ofProject t' project' filter = .ok roots') {r : ScanRoot} (hr : r ∈ roots)
    (hwhole : r.isWorkspace = false) : ∃ r' ∈ roots', Alike r r' := by
  unfold ofProject at hroots hroots'
  rw [hp.isMonorepo, hp.kind] at hroots'
  cases hmonorepo : project.isMonorepo with
  | false =>
    rw [hmonorepo] at hroots hroots'
    cases hroots
    cases hroots'
    rw [List.mem_singleton.mp hr]
    exact ⟨_, List.mem_singleton_self _, whole_alike hp project.kind⟩
  | true =>
    rw [hmonorepo] at hroots hroots'
    cases hfound : (selected project filter).mapM (ofWorkspace t project) with
    | error fault =>
      rw [hfound] at hroots
      cases hroots
    | ok found =>
      cases hfound' : (selected project' filter).mapM (ofWorkspace t' project') with
      | error fault =>
        rw [hfound'] at hroots'
        cases hroots'
      | ok found' =>
        rw [hfound] at hroots
        rw [hfound'] at hroots'
        cases hroots
        cases hroots'
        rcases List.mem_cons.mp hr with rfl | hr
        · exact ⟨_, List.mem_cons_self .., whole_alike hp .monorepo⟩
        · obtain ⟨w, -, hof⟩ := Except.mem_of_mapM hfound hr
          obtain ⟨-, _, -, rfl⟩ := Run.ofWorkspace_eq_ok.mp hof
          cases hwhole

end ScanRoot

/-! ## Plans -/

namespace Run

/-- The plan is one for a project that was described again. -/
structure Plan.Alike (p p' : Plan) : Prop where
  project : Project.Alike p.project p'.project
  settings : p'.settings = p.settings
  rules : p'.rules = p.rules
  roots : ∀ r' ∈ p'.roots, ∃ r ∈ p.roots, ScanRoot.Alike r r'

/-- The run can be planned again. -/
theorem plan_amended (hE : Aimed E t) (ht : t.Ordinary) (h : Amended E t t')
    {current : List String} {path : String} {o : Options} {p : Plan}
    (hplan : plan none t current path o = .ok p) :
    ∃ p', plan none t' current path o = .ok p' ∧ Plan.Alike p p' := by
  obtain ⟨hknown, root, hroot, hdescribe, hsettings, hroots, hrules⟩ := plan_eq_ok.mp hplan
  have hsteps := Project.steps_of_folder ht (Project.folder_of_rootOf ht hroot)
  obtain ⟨project', hdescribe', hproject⟩ := Project.describe_amended hE ht h hsteps hdescribe
  obtain ⟨roots', hroots', hsub⟩ := ScanRoot.ofProject_amended hE ht h hproject hroots
  refine ⟨⟨project', p.settings, p.ignored, roots', p.rules⟩, plan_eq_ok.mpr ⟨hknown, root,
    Project.rootOf_grown (h.grown hE ht) hroot, hdescribe', ?_, hroots', hrules⟩, hproject, rfl, rfl,
    hsub⟩
  rw [settingsOf_amended hE ht h hproject.root, hsettings]

end Run

end Checkup
