import Checkup.Proofs.Run.Twice
import Checkup.Proofs.Rule.Places
import Checkup.Proofs.Run.Results

/-!
# Where reported files are

A check tells the path of a file from its scan root, a report from the project. Both are relative, and
they lead to the same place: the path of a workspace is put before the path of the file, and taking
`..` out of a path does not change where it leads.

* `Registry.relative_of_found`: the rules name files by relative paths.
* `ScanRoot.Reports`: a report about what a check of a scan root found.
* `Run.reported_in_project`: every report of a run is one of what a check found.
-/

namespace Checkup

namespace Path

theorem isAbsolute_normal {path : String} (h : isAbsolute path = false) :
    isAbsolute (normal path) = false := by
  have hsteps : ∀ name ∈ normalSteps false (steps path), IsStep name :=
    fun name hn => isStep_of_mem_steps (mem_normalSteps hn)
  unfold normal
  dsimp only
  rw [leadingSlashes_relative h, h, String.empty_append]
  split
  · rfl
  · exact isAbsolute_joinWith hsteps

end Path

/-! ## Files that rules find fault with -/

namespace Monorepo

/-- What a rule for monorepos finds is about a file of the root or of a workspace. -/
theorem file_of_found {rule : Rule} (hrule : rule ∈ rules) {c : Context} {t : Tree}
    {found : List Finding} (hfound : rule.check c t = .ok found) {f : Finding} (hf : f ∈ found) :
    f.file ∈ [Manifest.fileName, Project.orchestratorConfig] ∨
      ∃ w ∈ c.project.workspaceList, ∃ name ∈ Registry.namedInWorkspaces, f.file = fileIn w name := by
  simp only [rules, List.mem_cons, List.not_mem_nil, or_false] at hrule
  have hmem := (Except.mem_of_mem_ok hfound).mp hf
  rcases hrule with rfl | rfl | rfl | rfl | rfl | rfl
  · have hmem : f ∈ RunnerConfig.check c t := hmem
    unfold RunnerConfig.check at hmem
    split at hmem
    · cases Except.mem_ok_iff.mp hmem
    · obtain ⟨manifest, -, hf⟩ := Rule.mem_findingsIn_iff.mp hmem
      unfold RunnerConfig.findings at hf
      split at hf
      · obtain rfl := List.mem_singleton.mp hf
        exact .inl (List.mem_cons_of_mem _ (List.mem_singleton_self _))
      · cases hf
  · obtain ⟨-, w, hw, -, -, dependency, -, version, -, -, -, rfl⟩ := mem_protocol_iff.mp hmem
    exact .inr ⟨w, hw, "package.json", by decide, rfl⟩
  · have hf : f ∈ SharedCompilerConfig.check c t := Except.mem_ok_iff.mp hmem
    unfold SharedCompilerConfig.check at hf
    split at hf
    · obtain ⟨w, hw, hf⟩ := List.mem_flatMap.mp hf
      dsimp only at hf
      split at hf
      · cases hf
      · split at hf
        · cases hf
        · obtain rfl := List.mem_singleton.mp hf
          exact .inr ⟨w, hw, "tsconfig.json", by decide, rfl⟩
    · cases hf
  · obtain ⟨manifest, -, hf⟩ := Rule.mem_findingsIn_iff.mp hmem
    unfold RootDependencies.findings at hf
    split at hf
    · cases hf
    · dsimp only at hf
      split at hf
      · cases hf
      · obtain rfl := List.mem_singleton.mp hf
        exact .inl (List.mem_cons_self ..)
  · obtain ⟨config, -, hfound⟩ := Except.bind_eq_ok.mp hfound
    cases config with
    | none =>
      cases hfound
      cases hf
    | some config =>
      obtain ⟨declared, -, hfound⟩ := Except.bind_eq_ok.mp hfound
      cases hfound
      obtain ⟨script, -, rfl⟩ := List.mem_map.mp hf
      exact .inl (List.mem_cons_of_mem _ (List.mem_singleton_self _))
  · have hf : f ∈ WorkspaceNames.check c t := Except.mem_ok_iff.mp hmem
    unfold WorkspaceNames.check at hf
    split at hf
    · obtain ⟨w, hw, rfl⟩ := List.mem_map.mp hf
      exact .inr ⟨w, (List.mem_filter.mp hw).1, "package.json", by decide, rfl⟩
    · cases hf

end Monorepo

/-- The rules name files by relative paths. -/
theorem Registry.relative_of_found {rule : Rule} (hrule : rule ∈ builtIn) {c : Context} {t : Tree}
    (ht : t.Named) (hpaths : ∀ w ∈ c.project.workspaceList, Path.isAbsolute w.path = false)
    {found : List Finding} (hfound : rule.check c t = .ok found) {f : Finding} (hf : f ∈ found) :
    Path.isAbsolute f.file = false := by
  have hcases : rule ∈ Registry.local ∨ rule ∈ Monorepo.rules := by
    unfold builtIn at hrule
    unfold Registry.local
    simp only [List.mem_append] at hrule ⊢
    tauto
  rcases hcases with hlocal | hmonorepo
  · exact ((tells_local rule hlocal c t found ht hfound).each f hf).relative
  · have hfixed : ∀ name ∈ [Manifest.fileName, Project.orchestratorConfig] ++ namedInWorkspaces,
        Path.isAbsolute name = false := by decide
    rcases Monorepo.file_of_found hmonorepo hfound hf with hfile | ⟨w, hw, name, hname, hfile⟩
    · exact hfixed f.file (List.mem_append_left _ hfile)
    · rw [hfile]
      exact Path.isAbsolute_join_relative (hpaths w hw)
        (hfixed name (List.mem_append_right _ hname))

/-- A report `g` of a project about what a check of the scan root `r` found as `f`: the same, about a
file whose relative path leads from the project to where the relative path in `f` leads from the
root. -/
structure ScanRoot.Reports (project : Project) (r : ScanRoot) (f g : Finding) : Prop where
  same : g = { f with file := g.file }
  found : Path.isAbsolute f.file = false
  relative : Path.isAbsolute g.file = false
  place : Path.normalSteps true (Path.steps project.root ++ Path.steps g.file) =
    Path.normalSteps true (r.steps ++ Path.steps f.file)

namespace Run

variable {t : Tree} {root : Location} {p : Plan} {r : ScanRoot} {f : Finding}

theorem Planned.relative_report (hp : Planned t root p) (hr : IsRoot t p.project r)
    (hf : Path.isAbsolute f.file = false) : Path.isAbsolute (r.report f).file = false := by
  cases hr with
  | whole kind => exact hf
  | @workspace w hw r hof =>
    have hlocated := hp.located w hw
    show Path.isAbsolute (r.pathInProject f.file) = false
    unfold ScanRoot.pathInProject
    rw [(steps_ofWorkspace hof).2.2.2, if_neg hlocated.ne_empty]
    exact Path.isAbsolute_normal (Path.isAbsolute_join_relative hlocated.relative hf)

/-- What a scan root reports of a finding is about the file that was found. -/
theorem Planned.reports (hp : Planned t root p) (hr : IsRoot t p.project r)
    (hf : Path.isAbsolute f.file = false) : r.Reports p.project f (r.report f) := by
  refine ⟨rfl, hf, hp.relative_report hr hf, ?_⟩
  have hhere : ∀ steps : List String, "." ∉ steps → ∀ path, "." ∉ steps ++ Path.steps path :=
    fun steps h path => fun hmem =>
      (List.mem_append.mp hmem).elim h (Path.not_here_steps path)
  have hroot : "." ∉ r.steps := by
    cases hr with
    | whole kind => exact Path.not_here_steps _
    | workspace hw hof =>
      rw [(steps_ofWorkspace hof).1]
      exact Path.not_here_steps _
  rw [Path.normalSteps_eq (hhere _ (Path.not_here_steps _) _), Path.normalSteps_eq (hhere _ hroot _),
    Tree.lexical_append, Tree.lexical_append, hp.steps, Tree.lexical_of_plain hp.plain,
    List.nil_append]
  exact hp.lexical_pathInProject hr [] hf

/-- A workspace has no workspaces, and those of the project have relative paths. -/
theorem Planned.relative_workspaces (hp : Planned t root p) (hr : IsRoot t p.project r) :
    ∀ w ∈ r.project.workspaceList, Path.isAbsolute w.path = false :=
  fun w hw => (hp.located w (hr.whole_of_mem hw).1).relative

/-- What was found, with the scan root whose check found it, in the order of reports. -/
def origins (os : List Outcome) : List (ScanRoot × Finding) :=
  os.flatMap fun outcome => outcome.findings.map fun f => (outcome.root, f)

theorem findings_eq_origins (os : List Outcome) :
    findings os = (origins os).map fun origin => origin.1.report origin.2 := by
  unfold findings origins Outcome.reported
  rw [List.map_flatMap]
  simp only [List.map_map, Function.comp_def]

theorem mem_origins (h : (r, f) ∈ origins (outcomes p t)) : r ∈ p.roots ∧ ∃ rule ∈ p.rules,
    ∃ found, rule.check (r.context p.ignoreRules) t = .ok found ∧ f ∈ found := by
  obtain ⟨outcome, houtcome, hf⟩ := List.mem_flatMap.mp h
  obtain ⟨⟨root, rule⟩, hpair, rfl⟩ := List.mem_map.mp houtcome
  obtain ⟨g, hg, heq⟩ := List.mem_map.mp hf
  obtain ⟨rfl, rfl⟩ := Prod.mk.inj heq
  obtain ⟨hroot, hrule, -⟩ := mem_pairs_iff.mp hpair
  refine ⟨hroot, rule, hrule, ?_⟩
  unfold Outcome.findings at hg
  dsimp only at hg
  cases hcheck : rule.check (root.context p.ignoreRules) t with
  | error fault =>
    rw [hcheck] at hg
    cases hg
  | ok found =>
    rw [hcheck] at hg
    exact ⟨found, rfl, hg⟩

/-- In a tree without links, the findings of a run are reports of what the checks of its scan roots
found, one for each: under a relative path that leads from the project to the place of the path in the
scan root. -/
theorem reported_in_project (ht : t.Ordinary) {current : List String} {path : String} {o : Options}
    {d : Diagnosis} {t' : Tree} (h : run none t current path o = (.ok d, t')) :
    ∃ p, plan none t current path o = .ok p ∧ d.project = p.project ∧
      (∀ origin ∈ origins (outcomes p t), origin.1 ∈ p.roots ∧ ∃ rule ∈ Registry.builtIn, ∃ found,
        rule.check (origin.1.context p.ignoreRules) t = .ok found ∧ origin.2 ∈ found) ∧
      List.Forall₂ (fun origin g => origin.1.Reports d.project origin.2 g)
        (origins (outcomes p t)) d.findings := by
  obtain ⟨p, hplan, hd, -⟩ := run_eq_ok.mp h
  obtain ⟨root, -, hp⟩ := planned_of_plan ht hplan
  have hproject : d.project = p.project := by rw [hd]; rfl
  have hfindings : d.findings = findings (outcomes p t) := by rw [hd]; rfl
  have hfound : ∀ origin ∈ origins (outcomes p t), origin.1 ∈ p.roots ∧
      ∃ rule ∈ Registry.builtIn, ∃ found,
        rule.check (origin.1.context p.ignoreRules) t = .ok found ∧ origin.2 ∈ found := by
    rintro ⟨r, f⟩ horigin
    obtain ⟨hr, rule, hrule, hfound⟩ := mem_origins horigin
    exact ⟨hr, rule, hp.rules rule hrule, hfound⟩
  refine ⟨p, hplan, hproject, hfound, ?_⟩
  rw [hfindings, findings_eq_origins, hproject, List.forall₂_map_right_iff, List.forall₂_same]
  rintro ⟨r, f⟩ horigin
  obtain ⟨hr, rule, hrule, found, hcheck, hf⟩ := hfound (r, f) horigin
  have hroot := hp.roots r hr
  exact hp.reports hroot (Registry.relative_of_found hrule hp.ordinary.named
    (hp.relative_workspaces hroot) hcheck hf)

/-! ## A workspace behind a detour -/

/-- A monorepo that names its only workspace by way of another directory. -/
def detourTree : Tree := ⟨[(["r"], .folder),
  (["r", "package.json"], .file "\x7b\"workspaces\":[\"a/../b\"]\x7d".toUTF8),
  (["r", "a"], .folder),
  (["r", "b"], .folder),
  (["r", "b", "package.json"], .file "\x7b\x7d".toUTF8)]⟩

theorem ordinary_detourTree : detourTree.Ordinary := Tree.ordinary_of_entries (by decide)

/-- A run of the rules on the files of a project. -/
def detourOptions : Options := { category := some "node" }

/-- The monorepo, as it is described. -/
def detourProject : Project := ⟨.generic, "r", "/r", .unknown, true, false, none,
  some [⟨"b", "a/../b", "/r/a/../b", .generic, true⟩], none, none, none⟩

/-- The scan root of the workspace. -/
def detourRoot : ScanRoot := ⟨["r", "a", "..", "b"], { detourProject with
  name := "b", root := "/r/a/../b", isMonorepo := false, workspaces := none }, .generic, true, "a/../b"⟩

/-- The plan of the run. -/
def detourPlan : Plan := ⟨detourProject, .unset ["r"], none,
  [.whole detourProject .monorepo, detourRoot], Hygiene.rules⟩

theorem plan_detourTree : plan none detourTree [] "/r" detourOptions = .ok detourPlan := by
  refine plan_eq_ok.mpr ⟨fun name h => ?_, ["r"], ?_⟩
  · cases h
    decide
  · refine ⟨by decide +kernel, by decide +kernel, by decide +kernel, by decide +kernel, rfl⟩

/-- What is found wrong with the manifest of the workspace. -/
def detourFinding : Finding :=
  (Hygiene.EngineVersion.info.finding "package.json" "Missing engines.node field").asFixable

/-- What is found in the workspace by its detour is reported under the short path. -/
theorem reported_detour : detourTree.Ordinary ∧ ∃ d t',
    run none detourTree [] "/r" detourOptions = (.ok d, t') ∧ ∃ g ∈ d.findings,
      g.file = "b/package.json" ∧ detourRoot.Reports d.project detourFinding g := by
  obtain ⟨d, t', hrun, -, hfindings⟩ := exists_run plan_detourTree
  obtain ⟨p, hplan, -, -, hreports⟩ := reported_in_project ordinary_detourTree hrun
  cases plan_detourTree.symm.trans hplan
  have horigin : (origins (outcomes detourPlan detourTree))[3]? =
      some (detourRoot, detourFinding) := by decide +kernel
  have hmem := List.mem_of_getElem? horigin
  rw [hfindings, findings_eq_origins, List.forall₂_map_right_iff, List.forall₂_same] at hreports
  refine ⟨ordinary_detourTree, d, t', hrun, detourRoot.report detourFinding, ?_, by decide +kernel,
    hreports _ hmem⟩
  rw [hfindings, findings_eq_origins]
  exact List.mem_map.mpr ⟨(detourRoot, detourFinding), hmem, rfl⟩

end Run

end Checkup
