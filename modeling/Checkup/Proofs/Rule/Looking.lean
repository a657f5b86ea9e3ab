import Checkup.Proofs.Outcome
import Checkup.Rule.Registry
import Mathlib.Data.List.Basic

/-!
# What the rules look at

The built-in rules look at a scan root through a few files with fixed names, the files that their
patterns find, the loading states beside pages, and the manifests and compiler settings of workspaces.
If two trees show the same there, then every rule comes to the same findings.

* `Context.LooksAt`: the paths that a rule may look at.
* `Context.ShowsSame`: two trees that show the same there.
* `Registry.check_eq`: the checks of two such trees.
-/

namespace Checkup

theorem any_eq_of_mem {α : Type} {f g : α → Bool} {l : List α} (h : ∀ a ∈ l, f a = g a) :
    l.any f = l.any g := by
  rw [Bool.eq_iff_iff, List.any_eq_true, List.any_eq_true]
  exact exists_congr fun a => and_congr_right fun ha => by rw [h a ha]

/-! ## Paths that rules look at -/

namespace Registry

/-- The files that rules ask for by their names. -/
def named : List String :=
  Application.rootLayouts ++ Hygiene.SingleLockFile.lockFiles ++ Hygiene.NestedModules.folders ++
    Hygiene.EnvironmentExample.environments ++ Hygiene.EnvironmentExample.examples ++
    ["tsconfig.json", "tsconfig.base.json", "package.json", "turbo.json", ".gitignore"]

/-- The patterns by which rules find files. -/
def walked : List Pattern :=
  [.pageFiles, .markupPageFiles, .markupFiles, .serverFiles, .routeFiles, .sourceFiles,
    .extendedSourceFiles]

/-- The files that rules ask for in workspaces. -/
def namedInWorkspaces : List String := ["package.json", "tsconfig.json"]

end Registry

namespace Context

/-- A path of a scan root that a rule may look at. -/
inductive LooksAt (c : Context) (t : Tree) : String → Prop
  | named {path : String} (h : path ∈ Registry.named) : LooksAt c t path
  | found {p : Pattern} {path : String} (hp : p ∈ Registry.walked) (h : path ∈ c.findFiles t p) :
    LooksAt c t path
  | loading {path name : String} (h : path ∈ c.findFiles t .markupPageFiles)
    (hn : name ∈ Application.LoadingState.loadingFiles) :
    LooksAt c t (Path.join (Path.dirName path) name)
  | workspace {w : Workspace} {name : String} (hw : w ∈ c.project.workspaceList)
    (hn : name ∈ Registry.namedInWorkspaces) : LooksAt c t (Monorepo.fileIn w name)

/-- Two trees show the rules the same in a scan root. -/
structure ShowsSame (c : Context) (t t' : Tree) : Prop where
  fileExists {path : String} (h : c.LooksAt t path) : c.fileExists t' path = c.fileExists t path
  readText? {path : String} (h : c.LooksAt t path) : c.readText? t' path = c.readText? t path
  findFiles {p : Pattern} (h : p ∈ Registry.walked) : c.findFiles t' p = c.findFiles t p

variable {c : Context} {t t' : Tree} {path : String} {p : Pattern}

namespace ShowsSame

theorem readNonempty? (h : c.ShowsSame t t') (hpath : c.LooksAt t path) :
    c.readNonempty? t' path = c.readNonempty? t path := by
  rw [Context.readNonempty?, Context.readNonempty?, h.readText? hpath]

theorem members (h : c.ShowsSame t t') (hpath : c.LooksAt t path) :
    Rule.members c t' path = Rule.members c t path := by
  unfold Rule.members Context.readMembers Context.readJson
  rw [h.readText? hpath]

theorem findingsIn (h : c.ShowsSame t t') (hpath : c.LooksAt t path)
    (found : Json.Members → List Finding) :
    Rule.findingsIn c t' path found = Rule.findingsIn c t path found := by
  rw [Rule.findingsIn, Rule.findingsIn, h.members hpath]

/-- The texts of files that were found. -/
theorem readNonempty?_found (h : c.ShowsSame t t') (hp : p ∈ Registry.walked)
    (hpath : path ∈ c.findFiles t p) : c.readNonempty? t' path = c.readNonempty? t path :=
  h.readNonempty? (.found hp hpath)

theorem readAll (h : c.ShowsSame t t') (hp : p ∈ Registry.walked) {paths : List String}
    (hsub : ∀ path ∈ paths, path ∈ c.findFiles t p) : c.readAll t' paths = c.readAll t paths := by
  unfold Context.readAll
  rw [List.filterMap_congr fun path hpath => h.readNonempty?_found hp (hsub path hpath)]

theorem any_fileExists (h : c.ShowsSame t t') {paths : List String}
    (hsub : ∀ path ∈ paths, path ∈ Registry.named) :
    paths.any (c.fileExists t') = paths.any (c.fileExists t) :=
  any_eq_of_mem fun path hpath => h.fileExists (.named (hsub path hpath))

theorem filter_fileExists (h : c.ShowsSame t t') {paths : List String}
    (hsub : ∀ path ∈ paths, path ∈ Registry.named) :
    paths.filter (c.fileExists t') = paths.filter (c.fileExists t) :=
  List.filter_congr fun path hpath => h.fileExists (.named (hsub path hpath))

end ShowsSame

end Context

variable {c : Context} {t t' : Tree} {p : Pattern}

/-! ## Rules for applications -/

namespace Application

theorem forFiles_eq (h : c.ShowsSame t t') (hp : p ∈ Registry.walked)
    {report report' : String → String → List Finding}
    (hreport : ∀ path ∈ c.findFiles t p, report' path = report path) :
    forFiles p report' c t' = forFiles p report c t := by
  unfold forFiles
  rw [h.findFiles hp]
  refine List.flatMap_congr fun path hpath => ?_
  rw [h.readNonempty?_found hp hpath, hreport path hpath]

theorem check_rootLayout (h : c.ShowsSame t t') : RootLayout.check c t' = RootLayout.check c t := by
  unfold RootLayout.check
  rw [h.any_fileExists (by decide)]

theorem check_layoutTags (h : c.ShowsSame t t') : LayoutTags.check c t' = LayoutTags.check c t := by
  have hnamed : ∀ path ∈ rootLayouts, path ∈ Registry.named := by decide
  have hread : ∀ path ∈ rootLayouts, (c.readNonempty? t' path).map (path, ·) =
      (c.readNonempty? t path).map (path, ·) := fun path hpath => by
    rw [h.readNonempty? (.named (hnamed path hpath))]
  unfold LayoutTags.check
  rw [← List.head?_filterMap, List.filterMap_congr hread, List.head?_filterMap]

theorem check_loadingState (h : c.ShowsSame t t') :
    LoadingState.check c t' = LoadingState.check c t := by
  refine forFiles_eq h (by simp [Registry.walked]) fun path hpath => funext fun text => ?_
  rw [any_eq_of_mem fun name hname => h.fileExists (.loading hpath hname)]

theorem check_clientDirective (h : c.ShowsSame t t') :
    ClientDirective.check c t' = ClientDirective.check c t := by
  unfold ClientDirective.check
  rw [h.findFiles (by simp [Registry.walked])]
  refine List.flatMap_congr fun path hpath => ?_
  rw [h.readNonempty?_found (by simp [Registry.walked]) hpath]

theorem check_eq (h : c.ShowsSame t t') {rule : Rule} (hr : rule ∈ rules) :
    rule.check c t' = rule.check c t := by
  have hforFiles : ∀ {p report}, p ∈ Registry.walked → forFiles p report c t' = forFiles p report c t :=
    fun hp => forFiles_eq h hp fun _ _ => rfl
  simp only [rules, List.mem_cons, List.not_mem_nil, or_false] at hr
  rcases hr with rfl | rfl | rfl | rfl | rfl | rfl | rfl | rfl | rfl | rfl
  all_goals refine congrArg Except.ok ?_
  · exact check_rootLayout h
  · exact check_layoutTags h
  · exact hforFiles (by simp [Registry.walked])
  · exact check_clientDirective h
  · exact hforFiles (by simp [Registry.walked])
  · exact hforFiles (by simp [Registry.walked])
  · exact hforFiles (by simp [Registry.walked])
  · exact hforFiles (by simp [Registry.walked])
  · exact hforFiles (by simp [Registry.walked])
  · exact check_loadingState h

end Application

/-! ## Rules for monorepos -/

namespace Monorepo

theorem check_eq (h : c.ShowsSame t t') {rule : Rule} (hr : rule ∈ rules) :
    rule.check c t' = rule.check c t := by
  simp only [rules, List.mem_cons, List.not_mem_nil, or_false] at hr
  rcases hr with rfl | rfl | rfl | rfl | rfl | rfl
  · dsimp only [RunnerConfig.rule, RunnerConfig.check]
    rw [h.fileExists (.named (by decide)), h.findingsIn (.named (by decide))]
  · refine congrArg (Except.map List.flatten) (Except.mapM_congr fun w hw => ?_)
    exact h.findingsIn (.workspace hw (by decide)) _
  · refine congrArg Except.ok ?_
    unfold SharedCompilerConfig.check
    rw [h.fileExists (.named (by decide)), h.fileExists (.named (by decide)),
      List.flatMap_congr fun w hw => ?_]
    dsimp only
    rw [h.readNonempty? (.workspace hw (by decide))]
  · exact h.findingsIn (.named (by decide)) _
  · have hscripts : TaskCoverage.scripts c t' = TaskCoverage.scripts c t := by
      refine congrArg (Except.map List.flatten) (Except.mapM_congr fun w hw => ?_)
      rw [h.members (.workspace hw (by decide))]
    dsimp only [TaskCoverage.rule]
    unfold TaskCoverage.check
    rw [h.members (.named (by decide)), hscripts]
  · rfl

end Monorepo

/-! ## Hygiene -/

namespace Hygiene

theorem check_eq (h : c.ShowsSame t t') {rule : Rule} (hr : rule ∈ rules) :
    rule.check c t' = rule.check c t := by
  simp only [rules, List.mem_cons, List.not_mem_nil, or_false] at hr
  rcases hr with rfl | rfl | rfl | rfl | rfl | rfl | rfl
  · refine congrArg Except.ok ?_
    unfold SingleLockFile.check
    rw [h.filter_fileExists (by decide)]
  · refine congrArg Except.ok ?_
    unfold NestedModules.check
    rw [h.filter_fileExists (by decide)]
  · dsimp only [StrictTyping.rule, StrictTyping.check]
    rw [h.findingsIn (.named (by decide))]
  · exact h.findingsIn (.named (by decide)) _
  · refine congrArg Except.ok ?_
    unfold GitIgnore.check
    rw [h.readNonempty? (.named (by decide))]
  · refine congrArg Except.ok ?_
    unfold EnvironmentExample.check
    rw [h.any_fileExists (by decide), h.any_fileExists (by decide)]
  · have hfindings : UnusedDependencies.findings c t' = UnusedDependencies.findings c t := by
      unfold UnusedDependencies.findings UnusedDependencies.unused
      rw [h.findFiles (by simp [Registry.walked]),
        h.readAll (by simp [Registry.walked]) fun path hpath => List.mem_of_mem_take hpath]
    dsimp only [UnusedDependencies.rule, UnusedDependencies.check]
    rw [hfindings, h.findingsIn (.named (by decide))]

end Hygiene

/-! ## Dead code -/

namespace DeadCode

theorem imported_eq (h : c.ShowsSame t t') :
    Imports.imported c t' (c.findFiles t .sourceFiles) =
      Imports.imported c t (c.findFiles t .sourceFiles) := by
  unfold Imports.imported
  rw [List.flatMap_congr fun path hpath => ?_]
  rw [h.readNonempty?_found (by simp [Registry.walked]) hpath]

theorem textsOf_eq (h : c.ShowsSame t t') :
    UnusedExports.textsOf c t' (c.findFiles t .sourceFiles) =
      UnusedExports.textsOf c t (c.findFiles t .sourceFiles) :=
  List.filterMap_congr fun path hpath => by
    rw [h.readNonempty?_found (by simp [Registry.walked]) hpath]

theorem check_eq (h : c.ShowsSame t t') {rule : Rule} (hr : rule ∈ rules) :
    rule.check c t' = rule.check c t := by
  have hsources : c.findFiles t' .sourceFiles = c.findFiles t .sourceFiles :=
    h.findFiles (by simp [Registry.walked])
  simp only [rules, List.mem_cons, List.not_mem_nil, or_false] at hr
  rcases hr with rfl | rfl | rfl
  · refine congrArg Except.ok ?_
    unfold OrphanFiles.check
    rw [hsources]
    dsimp only
    rw [imported_eq h]
  · have hfindings : UnusedExports.findings c t' = UnusedExports.findings c t := by
      unfold UnusedExports.findings
      rw [hsources]
      dsimp only
      rw [textsOf_eq h]
    dsimp only [UnusedExports.rule, UnusedExports.check]
    rw [hfindings, h.members (.named (by decide))]
  · refine congrArg Except.ok ?_
    unfold UnusedComponents.check
    rw [hsources, h.findFiles (by simp [Registry.walked])]
    dsimp only
    rw [h.readAll (p := .sourceFiles) (by simp [Registry.walked]) fun _ hpath => hpath]

end DeadCode

/-! ## All rules -/

/-- The checks of two trees that show the rules the same come to the same. -/
theorem Registry.check_eq (h : c.ShowsSame t t') {rule : Rule} (hr : rule ∈ builtIn) :
    rule.check c t' = rule.check c t := by
  simp only [builtIn, List.mem_append] at hr
  rcases hr with ((hr | hr) | hr) | hr
  · exact Application.check_eq h hr
  · exact Monorepo.check_eq h hr
  · exact Hygiene.check_eq h hr
  · exact DeadCode.check_eq h hr

end Checkup
