import Checkup.Proofs.Run.Plan
import Checkup.Proofs.Run.Rereading
import Checkup.Proofs.Tree.Links

/-!
# What the tasks of a run are aimed at

The tasks of a run edit the manifests and compiler settings of the project and its workspaces, the
project's file of ignored paths, and the files with markup that findings name.

* `Target`: the edits that a run can make; `target_of_task`: there are no others.
* `aimed_target`: they are aimed at files in folders that are there.
* `Planned.shallow`: a plan comes from manifests that can be loaded.
-/

namespace Checkup

/-- The manifest of a workspace that was described can be loaded, at its place as well. -/
theorem Workspaces.IsFound.shallow {t : Tree} (ht : t.Ordinary) {root : List String} {w : Workspace}
    (h : IsFound t root w) : ¬ Json.TooDeepIn
      (t.content (Tree.lexical [] (Path.steps w.absolutePath) ++ [Manifest.fileName])) := by
  obtain ⟨d, hd, hat, hfolder⟩ := h
  rw [steps_absolutePath hd hat]
  obtain ⟨hasManifest, manifest, hexists, hload, -⟩ := describe_eq_ok.mp hat.2.1
  obtain ⟨l, haccess⟩ := Tree.access_of_isFolder hfolder
  obtain ⟨rfl, -⟩ := Tree.find_present ht (Tree.find_of_access haccess)
  have hfind := Tree.find_concat haccess (by decide : Manifest.fileName ≠ ".") (by decide)
    fun _ => ht.no_link
  have hplain : Tree.Plain (Tree.lexical [] d ++ [Manifest.fileName]) := by
    rw [← Tree.lexical_concat [] d (by decide) (by decide)]
    exact Tree.plain_lexical Tree.plain_nil _
  unfold Tree.exists? Tree.holdsAt Tree.access at hexists
  split at hfind
  · rw [hfind] at hexists
    cases hexists
  · split at hfind
    · rw [hfind] at hexists
      cases hexists
    · split at hfind
      · rename_i node _
        rw [hfind] at hexists
        cases hexists
        rw [← Tree.content_of_present ht hfind]
        exact (Manifest.load_eq_ok_iff.mp hload).1
      · rename_i hnone
        rintro ⟨text, htext, -⟩
        have hfits := Tree.fits_lexical ht hfind
        rw [Tree.lexical_concat [] d (by decide) (by decide)] at hfits
        rw [Tree.content_eq ht hplain hfits, hnone] at htext
        cases htext

namespace Run

variable {t : Tree} {root : Location} {project : Project}

/-- The directory of the project or of one of its workspaces. -/
def IsScanned (root : Location) (project : Project) (directory : Location) : Prop :=
  directory = root ∨ ∃ w ∈ project.workspaceList,
    directory = Tree.lexical [] (Path.steps w.absolutePath)

/-- The finding is that of a file that should have the client directive, and can be repaired. -/
def WantsDirective (f : Finding) : Prop :=
  f.rule = Application.ClientDirective.info.id ∧ f.fixable = true

/-- The edits that a run of a project in a directory can make, given its findings. -/
inductive Target (root : Location) (project : Project) (found : List Finding) : Edits
  | settings {directory : Location} (h : IsScanned root project directory) :
    Target root project found (directory ++ ["tsconfig.json"]) .makeStrict
  | manifest {directory : Location} (h : IsScanned root project directory) {a : Amendment}
    (ha : a.Suits "package.json") : Target root project found (directory ++ ["package.json"]) a
  | ignored (message : Label) :
    Target root project found (root ++ [".gitignore"]) (.ignore project.kind message)
  | markup {f : Finding} (hf : f ∈ found) (hw : WantsDirective f) {name : String}
    (hlast : (Tree.lexical root (Path.steps f.file)).getLast? = some name) (hname : IsMarkup name) :
    Target root project found (Tree.lexical root (Path.steps f.file)) .direct

/-! ## Scan roots -/

/-- The scan root is the project or one of its workspaces. -/
inductive IsRoot (t : Tree) (project : Project) : ScanRoot → Prop
  | whole (kind : Kind) : IsRoot t project (.whole project kind)
  | workspace {w : Workspace} (hw : w ∈ project.workspaceList) {r : ScanRoot}
    (hr : ScanRoot.ofWorkspace t project w = .ok r) : IsRoot t project r

/-- The plan is one for the project in a directory of a tree without links. -/
structure Planned (t : Tree) (root : Location) (p : Plan) : Prop where
  ordinary : t.Ordinary
  folder : t.node? root = some .folder
  steps : Path.steps p.project.root = root
  located : ∀ w ∈ p.project.workspaceList, Workspaces.Located root w
  shallow : ∀ w ∈ p.project.workspaceList, ¬ Json.TooDeepIn
    (t.content (Tree.lexical [] (Path.steps w.absolutePath) ++ [Manifest.fileName]))
  roots : ∀ r ∈ p.roots, IsRoot t p.project r
  rules : ∀ rule ∈ p.rules, rule ∈ Registry.builtIn

theorem planned_of_plan (ht : t.Ordinary) {current : List String} {path : String} {o : Options}
    {p : Plan} (h : plan none t current path o = .ok p) :
    ∃ root, Project.rootOf t current path = .ok root ∧ Planned t root p := by
  obtain ⟨-, root, hroot, hdescribe, -, hroots, -⟩ := plan_eq_ok.mp h
  have hfolder := Project.folder_of_rootOf ht hroot
  have hsteps := Project.steps_of_folder ht hfolder
  have hfound := fun w hw => Project.workspaces_found (w := w) ht.named hsteps hdescribe hw
  refine ⟨root, hroot, ht, hfolder, Project.steps_root hsteps hdescribe,
    fun w hw => (hfound w hw).located, fun w hw => (hfound w hw).shallow ht, ?_, mem_rules_of_plan h⟩
  · intro r hr
    rcases mem_ofProject hroots hr with ⟨kind, rfl⟩ | ⟨w, hw, -, hof⟩
    · exact .whole kind
    · exact .workspace hw hof

theorem steps_ofWorkspace {w : Workspace} {r : ScanRoot}
    (hr : ScanRoot.ofWorkspace t project w = .ok r) :
    r.steps = Path.steps w.absolutePath ∧ r.isWorkspace = true ∧ r.project.workspaces = none ∧
      r.relativePath = w.path := by
  obtain ⟨-, typed, -, rfl⟩ := ofWorkspace_eq_ok.mp hr
  exact ⟨rfl, rfl, rfl, rfl⟩

namespace IsRoot

variable {r : ScanRoot}

theorem whole_of_not_workspace (h : IsRoot t project r) (hr : r.isWorkspace = false) :
    ∃ kind, r = .whole project kind := by
  cases h with
  | whole kind => exact ⟨kind, rfl⟩
  | workspace _ hof =>
    rw [(steps_ofWorkspace hof).2.1] at hr
    cases hr

/-- Only the whole project has workspaces. -/
theorem whole_of_mem (h : IsRoot t project r) {w : Workspace} (hw : w ∈ r.project.workspaceList) :
    w ∈ project.workspaceList ∧ ∃ kind, r = .whole project kind := by
  cases h with
  | whole kind => exact ⟨hw, kind, rfl⟩
  | workspace _ hof =>
    unfold Project.workspaceList at hw
    rw [(steps_ofWorkspace hof).2.2.1] at hw
    cases hw

end IsRoot

theorem base_context (r : ScanRoot) (rules : List IgnoreRule) :
    (r.context rules).base = Tree.lexical [] r.steps := rfl

namespace Planned

variable {p : Plan} {r : ScanRoot}

theorem plain (h : Planned t root p) : Tree.Plain root := h.ordinary.plain h.folder

theorem base_whole (h : Planned t root p) (kind : Kind) (rules : List IgnoreRule) :
    ((ScanRoot.whole p.project kind).context rules).base = root := by
  have hsteps : (ScanRoot.whole p.project kind).steps = root := h.steps
  rw [base_context, hsteps, Tree.lexical_of_plain h.plain, List.nil_append]

theorem lexical_absolutePath (h : Planned t root p) {w : Workspace}
    (hw : w ∈ p.project.workspaceList) :
    Tree.lexical [] (Path.steps w.absolutePath) = Tree.lexical root (Path.steps w.path) := by
  rw [(h.located w hw).steps, Tree.lexical_append, Tree.lexical_of_plain h.plain, List.nil_append]

/-- The root of a scan is the directory of the project or of a workspace. -/
theorem base_isScanned (h : Planned t root p) (hr : IsRoot t p.project r) (rules : List IgnoreRule) :
    IsScanned root p.project (r.context rules).base := by
  cases hr with
  | whole kind => exact .inl (h.base_whole kind rules)
  | workspace hw hr =>
    refine .inr ⟨_, hw, ?_⟩
    rw [base_context, (steps_ofWorkspace hr).1]

/-- The path of a file that is reported leads to the file from the project. -/
theorem lexical_pathInProject (h : Planned t root p) (hr : IsRoot t p.project r)
    (rules : List IgnoreRule) {file : String} (hfile : Path.isAbsolute file = false) :
    Tree.lexical root (Path.steps (r.pathInProject file)) =
      Tree.lexical (r.context rules).base (Path.steps file) := by
  cases hr with
  | whole kind =>
    rw [h.base_whole kind rules]
    rfl
  | @workspace w hw r hr =>
    obtain ⟨hsteps, -, -, hpath⟩ := steps_ofWorkspace hr
    have hw' := h.located w hw
    have hjoin : Path.isAbsolute (Path.join w.path file) = false := by
      rw [Path.isAbsolute_join hw'.ne_empty hfile, hw'.relative]
    unfold ScanRoot.pathInProject
    rw [hpath, if_neg hw'.ne_empty, Path.lexical_steps_normal hjoin, Path.steps_join hfile,
      Tree.lexical_append, base_context, hsteps, h.lexical_absolutePath hw]

end Planned

/-! ## Edits of tasks -/

theorem isName_tsconfig : Tree.IsName "tsconfig.json" := by constructor <;> decide

theorem isName_package : Tree.IsName "package.json" := by constructor <;> decide

/-- The place of a workspace's manifest. -/
theorem place_manifest {c : Context} {w : Workspace} (hw : Workspaces.Located root w)
    (hbase : c.base = root) {l : Location}
    (h : c.place (Monorepo.fileIn w "package.json") = .ok l) :
    l = Tree.lexical root (Path.steps w.path) ++ ["package.json"] := by
  have hname := isName_package
  have hrelative : Path.isAbsolute (Monorepo.fileIn w "package.json") = false := by
    unfold Monorepo.fileIn
    rw [Path.isAbsolute_join hw.ne_empty (Path.isAbsolute_name (.of_name hname)), hw.relative]
  have hsteps : Path.steps (Monorepo.fileIn w "package.json") =
      Path.steps w.path ++ ["package.json"] := by
    unfold Monorepo.fileIn
    rw [Path.steps_join (Path.isAbsolute_name (.of_name hname)),
      Path.steps_of_isStep (.of_name hname)]
  rw [Context.place_relative hrelative h, hsteps, hbase, Tree.lexical_append, Tree.lexical,
    if_neg hname.ne_here, if_neg hname.ne_up, Tree.lexical]

/-- No rule finds the manifest of a workspace nested too deep. -/
theorem Planned.shallow_fileIn {p : Plan} (h : Planned t root p) {r : ScanRoot}
    (hr : IsRoot t p.project r) (rules : List IgnoreRule) {w : Workspace}
    (hw : w ∈ Monorepo.workspaces (r.context rules)) :
    ¬ (r.context rules).IsTooDeep t (Monorepo.fileIn w "package.json") := by
  obtain ⟨hw, kind, rfl⟩ := hr.whole_of_mem hw
  unfold Context.IsTooDeep
  cases hplace : ((ScanRoot.whole p.project kind).context rules).place
      (Monorepo.fileIn w "package.json") with
  | error fault =>
    rw [Context.readText?_eq h.ordinary, hplace]
    rintro ⟨_, htext, -⟩
    cases htext
  | ok l =>
    rw [Context.readText?_of_place h.ordinary hplace,
      place_manifest (h.located w hw) (h.base_whole kind rules) hplace, ← h.lexical_absolutePath hw]
    exact h.shallow w hw

variable {p : Plan} {l : Location} {a : Amendment} {task : Task}

section

variable {r : ScanRoot} {found : List Finding} {f : Finding}

/-- A finding on the dependency of a workspace is about the manifest in the directory of it. -/
theorem place_of_protocol (hp : Planned t root p) (hr : IsRoot t p.project r)
    (hf : f ∈ Monorepo.WorkspaceProtocol.check (r.context p.ignoreRules) t)
    (h : (r.context p.ignoreRules).place f.file = .ok l) : ∃ w ∈ p.project.workspaceList,
      l = Tree.lexical [] (Path.steps w.absolutePath) ++ ["package.json"] := by
  obtain ⟨-, w, hw, _, -, _, _, _, -, -, -, rfl⟩ := mem_protocol_iff.mp hf
  obtain ⟨hw, kind, rfl⟩ := hr.whole_of_mem hw
  refine ⟨w, hw, ?_⟩
  rw [hp.lexical_absolutePath hw]
  exact place_manifest (hp.located w hw) (hp.base_whole kind p.ignoreRules) h

/-- A finding on the client directive is about a file with markup, which the report names too. -/
theorem target_of_directive (hp : Planned t root p) (hr : IsRoot t p.project r)
    (hf : f ∈ Application.ClientDirective.check (r.context p.ignoreRules) t)
    (hreported : r.report f ∈ found)
    (h : (r.context p.ignoreRules).place f.file = .ok l) : Target root p.project found l .direct := by
  obtain ⟨path, hpath, -, _, -, -, _, -, heq⟩ := mem_directive_iff.mp hf
  have hfile : f.file = path := congrArg Finding.file heq
  have hwants : WantsDirective (r.report f) :=
    ⟨congrArg Finding.rule heq, congrArg Finding.fixable heq⟩
  clear heq
  subst hfile
  obtain ⟨folder, name, hentry, hfolder, hname, hmarkup⟩ :=
    Context.exists_of_mem_markupFiles hp.ordinary hpath
  have habs := Context.isAbsolute_entryPath hfolder hname
  have hsteps := Context.steps_entryPath folder hname
  rw [← hentry] at habs hsteps
  have hlast := Context.getLast?_place habs h hsteps hname.ne_up
  have hreport : (r.report f).file = r.pathInProject f.file := rfl
  rw [Context.place_relative habs h, ← hp.lexical_pathInProject hr p.ignoreRules habs,
    ← hreport] at hlast ⊢
  exact .markup hreported hwants hlast hmarkup

/-- The repair of a finding makes no other edits. -/
theorem target_of_found (hp : Planned t root p) (hr : IsRoot t p.project r) {rule : Rule}
    {fs : List Finding} (hcheck : rule.check (r.context p.ignoreRules) t = .ok fs) (hf : f ∈ fs)
    (hreported : r.report f ∈ found) (h : (Task.mk r rule f).IsEdit p.ignoreRules l a) :
    Target root p.project found l a := by
  have hscanned := hp.base_isScanned hr p.ignoreRules
  obtain ⟨file, hrepairs, hplace⟩ := h
  dsimp only at hrepairs hplace
  cases hrepairs with
  | strict =>
    rw [Context.place_name isName_tsconfig (by decide)] at hplace
    cases hplace
    exact .settings hscanned
  | engine =>
    rw [Context.place_name isName_package (by decide)] at hplace
    cases hplace
    exact .manifest hscanned rfl
  | ignore =>
    rw [Context.place_name Aimed.isName_gitignore (by decide)] at hplace
    cases hplace
    cases hcheck
    obtain ⟨hworkspace, -⟩ := mem_ignore_iff.mp hf
    obtain ⟨kind, rfl⟩ := hr.whole_of_not_workspace hworkspace
    rw [hp.base_whole kind]
    exact .ignored f.message
  | protocol hdependency =>
    obtain ⟨w, hw, rfl⟩ := place_of_protocol hp hr ((Except.mem_of_mem_ok hcheck).mp hf) hplace
    exact .manifest (.inr ⟨w, hw, rfl⟩) rfl
  | directive =>
    cases hcheck
    exact target_of_directive hp hr hf hreported hplace

end

/-- A run makes no other edits. -/
theorem target_of_task (hp : Planned t root p) (htask : task ∈ tasks p t)
    (h : task.IsEdit p.ignoreRules l a) : Target root p.project (findings (outcomes p t)) l a := by
  obtain ⟨hmem, -, -, -, -, fs, hcheck, hfs⟩ := mem_tasks_iff.mp htask
  exact target_of_found hp (hp.roots task.root hmem) hcheck hfs (reported_of_task htask) h

/-- The edits of a run are aimed at files in folders that are there. -/
theorem aimed_target (hp : Planned t root p) (found : List Finding) :
    Aimed (Target root p.project found) t where
  suits h := by
    cases h with
    | settings => exact ⟨_, List.getLast?_concat, rfl⟩
    | manifest _ ha => exact ⟨_, List.getLast?_concat, ha⟩
    | ignored => exact ⟨_, List.getLast?_concat, rfl⟩
    | markup _ _ hlast hname => exact ⟨_, hlast, hname⟩
  plain h := by
    have hscanned : ∀ {directory}, IsScanned root p.project directory → Tree.Plain directory := by
      rintro _ (rfl | ⟨w, -, rfl⟩)
      · exact hp.plain
      · exact Tree.plain_lexical Tree.plain_nil _
    have hname : ∀ {name}, Tree.IsName name → Tree.Plain [name] := by
      intro name hname n hn
      rw [List.mem_singleton.mp hn]
      exact ⟨hname.ne_here, hname.ne_up⟩
    cases h with
    | settings hs => exact (hscanned hs).append (hname isName_tsconfig)
    | manifest hs => exact (hscanned hs).append (hname isName_package)
    | ignored => exact hp.plain.append (hname Aimed.isName_gitignore)
    | markup => exact Tree.plain_lexical hp.plain _
  parent h ha := by
    obtain ⟨kind, message, rfl⟩ := Amendment.eq_ignore ha
    cases h with
    | manifest _ ha => exact absurd ha (by decide : "package.json" ≠ ".gitignore")
    | ignored =>
      rw [List.dropLast_concat]
      exact hp.folder

end Run

end Checkup
