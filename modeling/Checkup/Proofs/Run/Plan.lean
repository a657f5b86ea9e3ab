import Checkup.Proofs.Project.Description
import Checkup.Proofs.Repair.Findings
import Checkup.Proofs.Run.Tasks

/-!
# The plan of a run and its tasks

A plan comes to a result when the project and its scan roots can be described. Its tasks are the
findings that can be repaired, by rules that have a repair.

* `plan_eq_ok`: what a plan is made of; `plan_none_of_plan`: the rules that are given do not matter to the
  rest of it.
* `rules_of_plan`, `mem_rules_of_plan`: the rules of a plan.
* `mem_ofProject_whole`, `mem_ofProject`: the scan roots of a project.
* `mem_findings_iff`: the findings of a plan.
* `mem_tasks_iff`: the tasks of a plan.
-/

namespace Checkup.Run

variable {t : Tree} {current : List String} {path : String} {o : Options} {p : Plan}

/-! ## The plan -/

/-- The category of the options is a known one, if there is one. -/
def KnownCategory (o : Options) : Prop :=
  ∀ name, o.category = some name → Category.isKnownName name = true

/-- The plan of a run whose category is known. -/
def knownPlan (t : Tree) (current : List String) (path : String) (o : Options) :
    Except RunFault Plan := do
  let project ← (Project.detect t current path).mapError RunFault.detection
  let found ← (settingsOf t project).mapError RunFault.settings
  let roots ← (ScanRoot.ofProject t project o.filter).mapError RunFault.access
  pure ⟨project, found.1, found.2, roots, rulesFor none (choice o found.1)⟩

theorem plan_eq_ok_known : plan none t current path o = .ok p ↔
    KnownCategory o ∧ knownPlan t current path o = .ok p := by
  unfold plan KnownCategory knownPlan
  cases o.category with
  | none => exact Iff.intro (fun h => ⟨fun _ h => (by cases h), h⟩) fun h => h.2
  | some name =>
    cases hname : Category.isKnownName name with
    | false =>
      refine iff_of_false (fun h => ?_) fun h => ?_
      · simp [hname, throw, throwThe, MonadExceptOf.throw, bind, Except.bind] at h
      · have htrue := h.1 name rfl
        rw [hname] at htrue
        cases htrue
    | true =>
      refine Iff.intro (fun h => ⟨fun _ h => (by cases h; exact hname), ?_⟩) fun h => ?_
      · simpa [hname] using h
      · simpa [hname] using h.2

/-- What a plan is made of. -/
theorem plan_eq_ok : plan none t current path o = .ok p ↔ KnownCategory o ∧ ∃ root,
    Project.rootOf t current path = .ok root ∧ Project.describe t root = .ok p.project ∧
      settingsOf t p.project = .ok (p.settings, p.ignored) ∧
      ScanRoot.ofProject t p.project o.filter = .ok p.roots ∧
      p.rules = Registry.chosen (choice o p.settings) := by
  rw [plan_eq_ok_known]
  refine and_congr_right fun _ => ?_
  unfold knownPlan Project.detect
  constructor
  · intro h
    obtain ⟨project, hproject, h⟩ := Except.bind_eq_ok.mp h
    obtain ⟨⟨settings, ignored⟩, hsettings, h⟩ := Except.bind_eq_ok.mp h
    obtain ⟨roots, hroots, h⟩ := Except.bind_eq_ok.mp h
    rw [Except.mapError_eq_ok] at hproject hsettings hroots
    obtain ⟨root, hroot, hdescribe⟩ := Except.bind_eq_ok.mp hproject
    cases h
    exact ⟨root, hroot, hdescribe, hsettings, hroots, rfl⟩
  · obtain ⟨project, settings, ignored, roots, rules⟩ := p
    rintro ⟨root, hroot, hdescribe, hsettings, hroots, hrules⟩
    dsimp only at hdescribe hsettings hroots hrules
    subst hrules
    rw [hroot]
    dsimp only [bind, Except.bind]
    rw [hdescribe]
    dsimp only [Except.mapError]
    rw [hsettings]
    dsimp only
    rw [hroots]
    rfl

/-- The rules that a run is given make no difference to the rest of its plan. -/
theorem plan_none_of_plan {given : Option (List Rule)} (h : plan given t current path o = .ok p) :
    plan none t current path o = .ok { p with rules := rulesFor none (choice o p.settings) } := by
  have hknown : knownPlan t current path o = (do
      let project ← (Project.detect t current path).mapError RunFault.detection
      let found ← (settingsOf t project).mapError RunFault.settings
      let roots ← (ScanRoot.ofProject t project o.filter).mapError RunFault.access
      pure ⟨project, found.1, found.2, roots, rulesFor given (choice o found.1)⟩ :
        Except RunFault Plan).map fun p => { p with rules := rulesFor none (choice o p.settings) } := by
    unfold knownPlan
    dsimp only [bind, Except.bind, pure, Except.pure]
    cases Project.detect t current path with
    | error fault => rfl
    | ok project =>
      dsimp only [Except.mapError]
      cases settingsOf t project with
      | error fault => rfl
      | ok found =>
        dsimp only
        cases ScanRoot.ofProject t project o.filter with
        | error fault => rfl
        | ok roots => rfl
  suffices heq : plan none t current path o = (plan given t current path o).map
      fun p => { p with rules := rulesFor none (choice o p.settings) } by
    rw [heq, h]
    rfl
  unfold plan
  cases o.category with
  | none => exact hknown
  | some name =>
    dsimp only
    cases Category.isKnownName name with
    | false => rfl
    | true => exact hknown

/-- The rules of a plan are chosen from the given ones, or from those of the registry. -/
theorem rules_of_plan {given : Option (List Rule)} (h : plan given t current path o = .ok p) :
    p.rules = rulesFor given (choice o p.settings) := by
  unfold plan at h
  extract_lets planned at h
  have hplanned : planned () = .ok p := by
    split at h
    · split at h
      · cases h
      · exact h
    · exact h
  obtain ⟨project, -, hrest⟩ := Except.bind_eq_ok.mp hplanned
  obtain ⟨⟨settings, ignored⟩, -, hrest⟩ := Except.bind_eq_ok.mp hrest
  obtain ⟨roots, -, hrest⟩ := Except.bind_eq_ok.mp hrest
  cases hrest
  rfl

theorem mem_rules_of_plan {given : Option (List Rule)} (h : plan given t current path o = .ok p) :
    ∀ rule ∈ p.rules, rule ∈ given.getD Registry.builtIn := by
  intro rule hrule
  rw [rules_of_plan h] at hrule
  cases given with
  | none => exact (Registry.mem_of_mem_choose hrule).1
  | some rules => exact (List.mem_filter.mp hrule).1

/-- What the scan root of a workspace is made of. -/
theorem ofWorkspace_eq_ok {project : Project} {w : Workspace} {r : ScanRoot} :
    ScanRoot.ofWorkspace t project w = .ok r ↔
      ¬ Manifest.IsTooDeep t (Path.steps w.absolutePath) ∧ ∃ typed,
      (if project.usesStaticTyping then Except.ok true
        else t.exists? (Path.steps w.absolutePath ++ ["tsconfig.json"])) = .ok typed ∧
      r = ⟨Path.steps w.absolutePath, { project with
        kind := w.kind
        name := w.name
        root := w.absolutePath
        version := Manifest.label? (Manifest.read t (Path.steps w.absolutePath)) "version"
        isMonorepo := false
        workspaces := none
        usesStaticTyping := typed
        frameworkVersion := Manifest.label? (Manifest.dependencies
          (Manifest.read t (Path.steps w.absolutePath))) "next"
        uiLibraryVersion := Manifest.label? (Manifest.dependencies
          (Manifest.read t (Path.steps w.absolutePath))) "react" }, w.kind, true, w.path⟩ := by
  unfold ScanRoot.ofWorkspace
  constructor
  · intro h
    obtain ⟨manifest, hmanifest, h⟩ := Except.bind_eq_ok.mp h
    obtain ⟨hdeep, rfl⟩ := Manifest.load_eq_ok_iff.mp hmanifest
    refine ⟨hdeep, ?_⟩
    cases htyping : project.usesStaticTyping with
    | true =>
      rw [htyping] at h
      cases h
      exact ⟨true, rfl, rfl⟩
    | false =>
      rw [htyping] at h
      obtain ⟨typed, htyped, h⟩ := Except.bind_eq_ok.mp h
      cases h
      exact ⟨typed, htyped, rfl⟩
  · rintro ⟨hdeep, typed, htyped, rfl⟩
    refine Except.bind_eq_ok.mpr ⟨_, Manifest.load_eq_ok_iff.mpr ⟨hdeep, rfl⟩, ?_⟩
    cases htyping : project.usesStaticTyping with
    | true =>
      rw [htyping] at htyped
      cases htyped
      rfl
    | false =>
      rw [htyping] at htyped
      exact Except.bind_eq_ok.mpr ⟨typed, htyped, rfl⟩

/-- The scan roots of a project are itself, under its kind or as a monorepo, and its workspaces. -/
theorem mem_ofProject_whole {project : Project} {filter : String} {roots : List ScanRoot}
    (h : ScanRoot.ofProject t project filter = .ok roots) {r : ScanRoot} (hr : r ∈ roots) :
    r = ScanRoot.whole project (if project.isMonorepo then .monorepo else project.kind) ∨
      ∃ w ∈ project.workspaceList, ScanRoot.isSelected filter w = true ∧
        ScanRoot.ofWorkspace t project w = .ok r := by
  unfold ScanRoot.ofProject at h
  cases hmonorepo : project.isMonorepo with
  | false =>
    rw [hmonorepo] at h
    cases h
    exact .inl (List.mem_singleton.mp hr)
  | true =>
    rw [hmonorepo] at h
    cases hfound : (ScanRoot.selected project filter).mapM (ScanRoot.ofWorkspace t project) with
    | error fault =>
      rw [hfound] at h
      cases h
    | ok found =>
      rw [hfound] at h
      cases h
      rcases List.mem_cons.mp hr with rfl | hr
      · exact .inl rfl
      · obtain ⟨w, hw, hof⟩ := Except.mem_of_mapM hfound hr
        obtain ⟨hw, hselected⟩ := List.mem_filter.mp hw
        exact .inr ⟨w, hw, hselected, hof⟩

theorem mem_ofProject {project : Project} {filter : String} {roots : List ScanRoot}
    (h : ScanRoot.ofProject t project filter = .ok roots) {r : ScanRoot} (hr : r ∈ roots) :
    (∃ kind, r = ScanRoot.whole project kind) ∨
      ∃ w ∈ project.workspaceList, ScanRoot.isSelected filter w = true ∧
        ScanRoot.ofWorkspace t project w = .ok r :=
  (mem_ofProject_whole h hr).imp_left fun h => ⟨_, h⟩

/-! ## The findings -/

/-- What an outcome reports is what the check found. -/
theorem mem_reported_iff {r : ScanRoot} {rule : Rule} {rules : List IgnoreRule} {f : Finding} :
    f ∈ Outcome.reported ⟨r, rule, rule.check (r.context rules) t⟩ ↔
      ∃ found, rule.check (r.context rules) t = .ok found ∧ ∃ g ∈ found, r.report g = f := by
  unfold Outcome.reported Outcome.findings
  dsimp only
  cases rule.check (r.context rules) t with
  | error fault => exact iff_of_false List.not_mem_nil fun ⟨_, h, _⟩ => by cases h
  | ok found =>
    constructor
    · exact fun hf => ⟨found, rfl, List.mem_map.mp hf⟩
    · rintro ⟨_, heq, hf⟩
      cases heq
      exact List.mem_map.mpr hf

/-- The findings of a plan. -/
theorem mem_findings_iff {f : Finding} : f ∈ findings (outcomes p t) ↔ ∃ r ∈ p.roots,
    ∃ rule ∈ p.rules, rule.info.applies r.kind = true ∧ ∃ found,
      rule.check (r.context p.ignoreRules) t = .ok found ∧ ∃ g ∈ found, r.report g = f := by
  unfold findings outcomes Plan.pairs
  rw [List.mem_flatMap]
  constructor
  · rintro ⟨outcome, houtcome, hf⟩
    obtain ⟨⟨r, rule⟩, hpair, rfl⟩ := List.mem_map.mp houtcome
    obtain ⟨_, hr, hpair⟩ := List.mem_flatMap.mp hpair
    obtain ⟨_, hrule, heq⟩ := List.mem_map.mp hpair
    cases heq
    obtain ⟨hrule, happlies⟩ := List.mem_filter.mp hrule
    exact ⟨r, hr, rule, hrule, happlies, mem_reported_iff.mp hf⟩
  · rintro ⟨r, hr, rule, hrule, happlies, hf⟩
    refine ⟨_, List.mem_map.mpr ⟨(r, rule), List.mem_flatMap.mpr ⟨r, hr, ?_⟩, rfl⟩,
      mem_reported_iff.mpr hf⟩
    exact List.mem_map.mpr ⟨rule, List.mem_filter.mpr ⟨hrule, happlies⟩, rfl⟩

/-! ## The tasks -/

/-- The finding of a task, as the run reports it. -/
def Task.reported (task : Task) : Finding := task.root.report task.finding

/-- The tasks of a plan. -/
def tasks (p : Plan) (t : Tree) : List Task := (outcomes p t).flatMap tasksOf

theorem mem_tasks_iff {task : Task} : task ∈ tasks p t ↔ task.root ∈ p.roots ∧ task.rule ∈ p.rules ∧
    task.rule.info.applies task.root.kind = true ∧ task.rule.canFix = true ∧
    task.finding.fixable = true ∧ ∃ found,
      task.rule.check (task.root.context p.ignoreRules) t = .ok found ∧ task.finding ∈ found := by
  obtain ⟨root, rule, finding⟩ := task
  unfold tasks outcomes Plan.pairs
  rw [List.mem_flatMap]
  constructor
  · rintro ⟨outcome, hmem, htask⟩
    obtain ⟨⟨root', rule'⟩, hpair, rfl⟩ := List.mem_map.mp hmem
    obtain ⟨root'', hroot, hpair⟩ := List.mem_flatMap.mp hpair
    obtain ⟨rule'', hrule, heq⟩ := List.mem_map.mp hpair
    obtain ⟨rfl, rfl⟩ := Prod.mk.inj heq
    obtain ⟨hrule, happlies⟩ := List.mem_filter.mp hrule
    unfold tasksOf at htask
    dsimp only at htask
    split at htask
    · rename_i hfix
      obtain ⟨f, hf, heq⟩ := List.mem_map.mp htask
      obtain ⟨rfl, rfl, rfl⟩ := Task.mk.inj heq
      obtain ⟨hf, hfixable⟩ := List.mem_filter.mp hf
      refine ⟨hroot, hrule, happlies, hfix, hfixable, ?_⟩
      unfold Outcome.findings at hf
      dsimp only at hf ⊢
      cases hcheck : rule''.check (root''.context p.ignoreRules) t with
      | error fault =>
        rw [hcheck] at hf
        cases hf
      | ok found =>
        rw [hcheck] at hf
        exact ⟨found, rfl, hf⟩
    · cases htask
  · rintro ⟨hroot, hrule, happlies, hfix, hfixable, found, hcheck, hmem⟩
    dsimp only at hroot hrule happlies hfix hfixable hcheck hmem
    refine ⟨⟨root, rule, rule.check (root.context p.ignoreRules) t⟩, List.mem_map.mpr
      ⟨(root, rule), List.mem_flatMap.mpr ⟨root, hroot, List.mem_map.mpr
        ⟨rule, List.mem_filter.mpr ⟨hrule, happlies⟩, rfl⟩⟩, rfl⟩, ?_⟩
    unfold tasksOf Outcome.findings
    dsimp only
    rw [if_pos hfix, hcheck]
    exact List.mem_map.mpr ⟨finding, List.mem_filter.mpr ⟨hmem, hfixable⟩, rfl⟩

/-- The finding of a task is reported by the run. -/
theorem reported_of_task {task : Task} (h : task ∈ tasks p t) :
    task.reported ∈ findings (outcomes p t) := by
  obtain ⟨hroot, hrule, happlies, -, -, found, hcheck, hfound⟩ := mem_tasks_iff.mp h
  exact mem_findings_iff.mpr ⟨task.root, hroot, task.rule, hrule, happlies, found, hcheck,
    task.finding, hfound, rfl⟩

theorem rule_of_task (hrules : p.rules = Registry.chosen (choice o p.settings)) {task : Task}
    (h : task ∈ tasks p t) : task.rule ∈ Registry.fixing := by
  obtain ⟨-, hrule, -, hfix, -⟩ := mem_tasks_iff.mp h
  rw [hrules] at hrule
  exact mem_fixing (Registry.mem_of_mem_choose hrule).1 hfix

end Checkup.Run
