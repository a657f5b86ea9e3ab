import Checkup.Proofs.Project.Detection
import Checkup.Proofs.Run.WriteSet
import Checkup.Proofs.Scan.Sandbox

/-!
# Where a run writes

Every repair keeps to the scan root in which it is made, links followed to their ends. The scan roots
are the project and the workspaces that are selected. Nothing makes a workspace lie in the project: its
path is put together on paper, and `..` in a pattern or a link to a directory leads out of it.

* `Confined`: a tree in which only what lies below some locations is different.
* `Run.performAll_confined`: tasks keep to their scan roots.
* `Run.run_contained`: a run keeps to the directories that it checks, and to the project if they all
  lie there.
* `Run.run_leaves_project`: a pattern by which a run changes a file beside the project.
-/

namespace Checkup

variable {t t' : Tree} {base : Location} {B : Location → Prop}

/-- The tree after changes that only concern what lies below some locations. -/
structure Confined (B : Location → Prop) (t t' : Tree) : Prop where
  keeps : t.Keeps t'
  inside : ∀ {l}, Changes t t' l → ∃ base, B base ∧ base <+: l

namespace Confined

theorem refl (ht : t.Founded) : Confined B t t := ⟨.refl ht, fun hl => absurd rfl hl⟩

theorem trans {t'' : Tree} (h : Confined B t t') (h' : Confined B t' t'') : Confined B t t'' := by
  refine ⟨h.keeps.trans h'.keeps, fun {l} hl => ?_⟩
  by_cases hsame : t'.node? l = t.node? l
  · exact h'.inside fun heq => hl (heq.trans hsame)
  · exact h.inside hsame

theorem mono {B' : Location → Prop} (hB : ∀ base, B base → B' base) (h : Confined B t t') :
    Confined B' t t' := by
  refine ⟨h.keeps, fun {l} hl => ?_⟩
  obtain ⟨base, hbase, hprefix⟩ := h.inside hl
  exact ⟨base, hB base hbase, hprefix⟩

end Confined

namespace Context.RootAt

variable {c : Context}

/-- The root of a scan stays where it is while files are written. -/
theorem keeps (h : c.RootAt t base) (hl : t.Loopless) (hk : t.Keeps t') : c.RootAt t' base where
  resolved := (hl.resolveSteps_eq hk.links c.root).trans h.resolved
  linkless q hq target hlink := h.linkless q hq target ((hk.links q target).mp hlink)
  there := hk.there h.there

theorem writeText_confined (h : c.RootAt t base) (hf : t.Founded) (hl : t.Loopless)
    (path text : String) : Confined (· = base) t (c.writeText t path text).2 := by
  refine ⟨?_, fun {l} hchange => ⟨base, rfl, ?_⟩⟩
  · unfold writeText
    cases hlocate : c.locate t path with
    | error fault => exact .refl hf
    | ok target => exact Tree.writeText_keeps hf (h.plain hlocate) (Prod.eta _).symm
  · refine h.inside_of_writeText hf (fun target hlocate => ?_) text hchange
    exact hl.linkless (h.locate_eq_ok.mp hlocate).2.1

theorem rewrite_confined (h : c.RootAt t base) (hf : t.Founded) (hl : t.Loopless) (file : String)
    (a : Amendment) : Confined (· = base) t (c.rewrite t file a).2 := by
  unfold rewrite
  by_cases hrefuses : a.Refuses (c.readText? t file)
  · rw [if_pos hrefuses]
    exact .refl hf
  · rw [if_neg hrefuses]
    cases a.apply (c.readText? t file) with
    | none => exact .refl hf
    | some text =>
      have hwrite := h.writeText_confined hf hl file text
      dsimp only
      generalize c.writeText t file text = written at hwrite ⊢
      obtain ⟨result, t'⟩ := written
      cases result with
      | ok done => exact hwrite
      | error fault => exact hwrite

end Context.RootAt

/-- The paths of the directories that a run with some filter checks. -/
def Project.scanned (p : Project) (filter : String) : List (List String) :=
  Path.steps p.root :: (ScanRoot.selected p filter).map fun w => Path.steps w.absolutePath

/-- A directory that a run checks lies at the location, links followed to their ends. -/
def Project.IsBase (p : Project) (t : Tree) (filter : String) (base : Location) : Prop :=
  ∃ steps ∈ p.scanned filter, t.access steps = .ok (base, .folder)

namespace Run

variable {current : List String} {path : String} {o : Options} {rules : List IgnoreRule}

/-! ## Tasks -/

/-- A task keeps to its scan root. -/
theorem perform_confined {task : Task} (hrule : task.rule ∈ Registry.fixing)
    (h : (task.root.context rules).RootAt t base) (hf : t.Founded) (hl : t.Loopless) :
    Confined (· = base) t (task.perform rules t).2 := by
  rcases repairs_or_idle (c := task.root.context rules) hrule task.finding with
    ⟨file, a, hrepairs⟩ | hidle
  · rw [perform_eq hrepairs t]
    exact h.rewrite_confined hf hl file a
  · have hnothing : task.perform rules t = .unchanged t := hidle t
    rw [hnothing]
    exact .refl hf

/-- Tasks keep to their scan roots. -/
theorem performAll_confined {tasks : List Task} (hrules : ∀ task ∈ tasks, task.rule ∈ Registry.fixing)
    (hroots : ∀ task ∈ tasks, ∃ base, B base ∧ (task.root.context rules).RootAt t base)
    (hf : t.Founded) (hl : t.Loopless) : Confined B t (performAll rules tasks t).2 := by
  induction tasks generalizing t with
  | nil => exact .refl hf
  | cons task rest ih =>
    obtain ⟨hrule, hrules⟩ := List.forall_mem_cons.mp hrules
    obtain ⟨⟨base, hbase, hroot⟩, hroots⟩ := List.forall_mem_cons.mp hroots
    have hfirst : Confined B t (task.perform rules t).2 := by
      refine (perform_confined hrule hroot hf hl).mono ?_
      rintro _ rfl
      exact hbase
    -- the other scan roots are still where they were, so the rest may go on from here
    have hrest : ∀ task' ∈ rest, ∃ base', B base' ∧
        (task'.root.context rules).RootAt (task.perform rules t).2 base' := by
      intro task' htask'
      obtain ⟨base', hbase', hroot'⟩ := hroots task' htask'
      exact ⟨base', hbase', hroot'.keeps hl hfirst.keeps⟩
    rw [performAll_cons]
    exact hfirst.trans (ih hrules hrest hfirst.keeps.founded (hl.of_sameLinks hfirst.keeps.links))

/-! ## Runs -/

/-- The scan roots of a project are directories that a run checks. -/
theorem base_of_mem_ofProject (hn : t.Named) (hl : t.Loopless) {root : Location}
    (hroot : Project.rootOf t current path = .ok root) {project : Project}
    (hdescribe : Project.describe t root = .ok project) {filter : String} {roots : List ScanRoot}
    (hroots : ScanRoot.ofProject t project filter = .ok roots) {r : ScanRoot} (hr : r ∈ roots) :
    ∃ base, project.IsBase t filter base ∧ t.access r.steps = .ok (base, .folder) := by
  have hsteps := Project.steps_of_rootOf hn hroot
  rcases mem_ofProject hroots hr with ⟨kind, rfl⟩ | ⟨w, hw, hselected, hof⟩
  · have haccess : t.access (Path.steps project.root) = .ok (root, .folder) := by
      rw [Project.steps_root hsteps hdescribe]
      exact Project.access_of_rootOf hl hroot
    exact ⟨root, ⟨_, List.mem_cons_self .., haccess⟩, haccess⟩
  · obtain ⟨base, haccess⟩ :=
      Tree.access_of_isFolder (Project.workspaces_found hn hsteps hdescribe hw).isFolder
    refine ⟨base, ⟨_, List.mem_cons_of_mem _ (List.mem_map.mpr ⟨w, ?_, rfl⟩), haccess⟩, ?_⟩
    · exact List.mem_filter.mpr ⟨hw, hselected⟩
    · rw [(steps_ofWorkspace hof).1]
      exact haccess

/-- A run leaves the tree as it is, or only changes what lies in the directories that it checks. -/
theorem run_confined (hn : t.Named) (hf : t.Founded) (hl : t.Loopless) {root : Location}
    (hroot : Project.rootOf t current path = .ok root) {result : Except RunFault Diagnosis}
    (h : run none t current path o = (result, t')) : t' = t ∨ ∃ project,
      Project.describe t root = .ok project ∧ Confined (project.IsBase t o.filter) t t' := by
  cases result with
  | error fault => exact .inl (tree_of_error h)
  | ok d =>
    obtain ⟨p, hplan, rfl, rfl⟩ := run_eq_ok.mp h
    obtain ⟨-, root', hroot', hdescribe, -, hroots, hrules⟩ := plan_eq_ok.mp hplan
    obtain rfl : root' = root := by
      rw [hroot'] at hroot
      exact Except.ok.inj hroot
    split
    · refine .inr ⟨p.project, hdescribe, performAll_confined ?_ ?_ hf hl⟩
      · exact fun task htask => rule_of_task hrules htask
      · intro task htask
        obtain ⟨base, hbase, haccess⟩ :=
          base_of_mem_ofProject hn hl hroot hdescribe hroots (mem_tasks_iff.mp htask).1
        exact ⟨base, hbase, Context.rootAt_of_access haccess⟩
    · exact .inl rfl

/-- A run of the built-in rules changes only what lies in the directories that it checks, links
followed to their ends. If these all lie in the project, it changes nothing beside the project. -/
theorem run_contained (hn : t.Named) (hf : t.Founded) (hl : t.Loopless) {root : Location}
    (hroot : Project.rootOf t current path = .ok root) (o : Options) :
    (∀ l, Changes t (run none t current path o).2 l → ∃ project,
        Project.describe t root = .ok project ∧
        ∃ base, project.IsBase t o.filter base ∧ base <+: l) ∧
      ∀ project, Project.describe t root = .ok project →
        (∀ w ∈ ScanRoot.selected project o.filter, ∀ base,
          t.access (Path.steps w.absolutePath) = .ok (base, .folder) → root <+: base) →
        ∀ l, Changes t (run none t current path o).2 l → root <+: l := by
  have hbases : ∀ l, Changes t (run none t current path o).2 l → ∃ project,
      Project.describe t root = .ok project ∧
      ∃ base, project.IsBase t o.filter base ∧ base <+: l := by
    intro l hchange
    rcases run_confined hn hf hl hroot (Prod.eta (run none t current path o)).symm with hsame | h
    · rw [hsame] at hchange
      exact absurd rfl hchange
    · obtain ⟨project, hdescribe, hconfined⟩ := h
      exact ⟨project, hdescribe, hconfined.inside hchange⟩
  refine ⟨hbases, fun project hdescribe hinside l hchange => ?_⟩
  obtain ⟨_, hdescribe', base, ⟨steps, hsteps, haccess⟩, hbelow⟩ := hbases l hchange
  rw [hdescribe] at hdescribe'
  cases hdescribe'
  rcases List.mem_cons.mp hsteps with rfl | hsteps
  · rw [Project.steps_root (Project.steps_of_rootOf hn hroot) hdescribe,
      Project.access_of_rootOf hl hroot] at haccess
    cases haccess
    exact hbelow
  · obtain ⟨w, hw, rfl⟩ := List.mem_map.mp hsteps
    exact (hinside w hw base haccess).trans hbelow

/-! ## Workspaces in the project and beside it -/

/-- A project whose manifest takes a directory for a workspace by a pattern, as it is written in
JSON. -/
def memberTree (directory : Location) (pattern : String) : Tree := ⟨[(["w"], .folder),
  (["w", "r"], .folder), (["w", "r", "package.json"], .file
    ("\x7b\"workspaces\":[\"" ++ pattern ++ "\"],\"engines\":\x7b\"node\":\"1\"\x7d\x7d").toUTF8),
  (directory, .folder), (directory ++ ["package.json"], .file "\x7b\x7d".toUTF8)]⟩

/-- A fixing run of the rules on hygiene. -/
def memberOptions : Options := { fix := true, category := some "node" }

/-- The project, as it is described with one workspace. -/
def memberProject (w : Workspace) : Project :=
  ⟨.generic, "r", "/w/r", .unknown, true, false, none, some [w], none, none, none⟩

/-- A workspace in the project. -/
def inTree : Tree := memberTree ["w", "r", "in"] "in"

def inWorkspace : Workspace := ⟨"in", "in", "/w/r/in", .generic, true⟩

theorem ordinary_inTree : inTree.Ordinary := Tree.ordinary_of_entries (by decide)

theorem run_contained_inTree : inTree.Ordinary ∧
    Project.rootOf inTree [] "/w/r" = .ok ["w", "r"] ∧
    ∀ l, Changes inTree (run none inTree [] "/w/r" memberOptions).2 l → ["w", "r"] <+: l := by
  have hroot : Project.rootOf inTree [] "/w/r" = .ok ["w", "r"] := by decide +kernel
  have hdescribe : Project.describe inTree ["w", "r"] = .ok (memberProject inWorkspace) := by
    decide +kernel
  have hw : inTree.access (Path.steps inWorkspace.absolutePath) =
      .ok (["w", "r", "in"], .folder) := by decide +kernel
  refine ⟨ordinary_inTree, hroot, (run_contained ordinary_inTree.named ordinary_inTree.founded
    ordinary_inTree.loopless hroot memberOptions).2 (memberProject inWorkspace) hdescribe ?_⟩
  intro w hmem base haccess
  obtain rfl : w = inWorkspace := List.mem_singleton.mp (List.mem_filter.mp hmem).1
  rw [hw] at haccess
  cases haccess
  exact ⟨["in"], rfl⟩

/-- A workspace beside the project. -/
def outTree : Tree := memberTree ["w", "out"] "../out"

def outWorkspace : Workspace := ⟨"out", "../out", "/w/r/../out", .generic, true⟩

def outRoot : ScanRoot := ⟨["w", "r", "..", "out"], { memberProject outWorkspace with
  name := "out", root := "/w/r/../out", isMonorepo := false, workspaces := none }, .generic, true,
  "../out"⟩

def outPlan : Plan := ⟨memberProject outWorkspace, .unset ["w", "r"], none,
  [.whole (memberProject outWorkspace) .monorepo, outRoot], Hygiene.rules⟩

theorem ordinary_outTree : outTree.Ordinary := Tree.ordinary_of_entries (by decide)

theorem plan_outTree : plan none outTree [] "/w/r" memberOptions = .ok outPlan := by
  refine plan_eq_ok.mpr ⟨fun name h => ?_, ["w", "r"], ?_⟩
  · cases h
    decide
  · refine ⟨by decide +kernel, by decide +kernel, by decide +kernel, by decide +kernel, rfl⟩

/-- What is to be done about the manifest of the workspace. -/
def outTask : Task := ⟨outRoot, Hygiene.EngineVersion.rule,
  (Hygiene.EngineVersion.info.finding "package.json" "Missing engines.node field").asFixable⟩

theorem mem_outTask : outTask ∈ tasks outPlan outTree := by
  have hmanifest : ((outRoot.context outPlan.ignoreRules).readMembers? outTree "package.json").map
      Hygiene.EngineVersion.isStated = some false := by decide +kernel
  have hfound : outTask.finding ∈ Hygiene.EngineVersion.check
      (outRoot.context outPlan.ignoreRules) outTree :=
    mem_engine_iff.mpr ⟨Option.map_eq_some_iff.mp hmanifest, rfl⟩
  refine mem_tasks_iff.mpr ⟨List.mem_of_getElem? (i := 1) rfl, List.mem_of_getElem? (i := 3) rfl,
    by decide, rfl, rfl, ?_⟩
  dsimp only [outTask, Hygiene.EngineVersion.rule]
  exact hfound

theorem isEdit_outTask :
    outTask.IsEdit outPlan.ignoreRules ["w", "out", "package.json"] .stateEngine :=
  ⟨"package.json", .engine, by decide⟩

/-- The run changes a file that does not lie in the project. -/
theorem run_leaves_project : ∃ d, (run none outTree [] "/w/r" memberOptions).1 = .ok d ∧
    Changes outTree (run none outTree [] "/w/r" memberOptions).2 ["w", "out", "package.json"] ∧
      ¬ ["w", "r"] <+: ["w", "out", "package.json"] := by
  have hwritable : outTree.Writable ["w", "out", "package.json"] :=
    ⟨⟨by decide, by decide⟩, .inl ⟨_, rfl⟩⟩
  have hcontent : outTree.content ["w", "out", "package.json"] = some "\x7b\x7d" := by
    decide
  have hs : ¬ Settled outTree ["w", "out", "package.json"] .stateEngine :=
    not_settled hwritable hcontent (by decide)
  obtain ⟨d, t', hrun, hchange⟩ := run_changes_of_task ordinary_outTree plan_outTree rfl
    mem_outTask isEdit_outTask hs
  rw [hrun]
  exact ⟨d, rfl, hchange, by decide⟩

end Run

end Checkup
