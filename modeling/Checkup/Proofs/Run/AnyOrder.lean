import Checkup.Proofs.Repair.IgnoredPaths
import Checkup.Proofs.Repair.Lasting
import Checkup.Proofs.Run.SingleRepair

/-!
# Repairs in any order

Several tasks of a run may amend one file: a manifest is amended by two rules, and may be seen from two
scan roots. Each task amends what the file says by then, so what the file says in the end follows from
the amendments of all tasks at its place. These write the same in every order, up to the order of the
entries that are added to the file of ignored paths, and none of them is lost.

* `amendmentOf`, `Task.amendmentAt`: the amendment of a task.
* `perform_overlaid`, `performAll_overlaid`: what stands at a location after tasks.
* `SameButOrder`: trees that are the same, up to the order of the entries.
* `tasks_in_any_order`: the tasks of a run in two orders.
-/

namespace Checkup

open Hygiene (StrictTyping.info EngineVersion.info GitIgnore.info GitIgnore.Entry GitIgnore.extend)
open Monorepo (WorkspaceProtocol.info)
open Application (ClientDirective.info)
open Amendment (layer overlay)

/-! ## The amendment of a task -/

/-- The file that a rule's repair of a finding amends, and how. -/
def amendmentOf (c : Context) (rule : Rule) (f : Finding) : Option (String × Amendment) :=
  if rule.info.id = StrictTyping.info.id then some ("tsconfig.json", .makeStrict)
  else if rule.info.id = EngineVersion.info.id then some ("package.json", .stateEngine)
  else if rule.info.id = GitIgnore.info.id then some (".gitignore", .ignore c.project.kind f.message)
  else if rule.info.id = WorkspaceProtocol.info.id then
    (dependencyOf c f).map fun dependency => (f.file, .localize dependency)
  else if rule.info.id = ClientDirective.info.id then some (f.file, .direct)
  else none

variable {c : Context} {t t' : Tree} {rule : Rule} {f : Finding} {file : String} {l : Location}
  {a : Amendment} {E : Edits}

theorem Repairs.amendmentOf_eq (h : Repairs c f rule file a) : amendmentOf c rule f = some (file, a) := by
  cases h with
  | strict => rfl
  | engine => rfl
  | ignore => rfl
  | @protocol dependency h =>
    have hprotocol : amendmentOf c Monorepo.WorkspaceProtocol.rule f =
        (dependencyOf c f).map fun dependency => (f.file, .localize dependency) := rfl
    rw [hprotocol, h]
    rfl
  | directive => rfl

theorem amendmentOf_eq_some (hrule : rule ∈ Registry.fixing) :
    amendmentOf c rule f = some (file, a) ↔ Repairs c f rule file a := by
  refine ⟨fun h => ?_, Repairs.amendmentOf_eq⟩
  unfold Registry.fixing at hrule
  simp only [List.mem_cons, List.not_mem_nil, or_false] at hrule
  rcases hrule with rfl | rfl | rfl | rfl | rfl
  · obtain ⟨rfl, rfl⟩ := Prod.mk.inj (Option.some.inj h)
    exact .directive
  · obtain ⟨dependency, hdependency, heq⟩ := Option.map_eq_some_iff.mp h
    obtain ⟨rfl, rfl⟩ := Prod.mk.inj heq
    exact .protocol hdependency
  · obtain ⟨rfl, rfl⟩ := Prod.mk.inj (Option.some.inj h)
    exact .strict
  · obtain ⟨rfl, rfl⟩ := Prod.mk.inj (Option.some.inj h)
    exact .engine
  · obtain ⟨rfl, rfl⟩ := Prod.mk.inj (Option.some.inj h)
    exact .ignore

namespace Run

variable {ignoreRules : List IgnoreRule} {task : Task} {written : Option String}

/-- The amendment that a task is to make at a location, if any. -/
def Task.amendmentAt (ignoreRules : List IgnoreRule) (l : Location) (task : Task) : Option Amendment :=
  (amendmentOf (task.root.context ignoreRules) task.rule task.finding).bind fun (file, a) =>
    match (task.root.context ignoreRules).place file with
    | .ok place => if place = l then some a else none
    | .error _ => none

theorem amendmentAt_eq_some (hrule : task.rule ∈ Registry.fixing) :
    task.amendmentAt ignoreRules l = some a ↔ task.IsEdit ignoreRules l a := by
  unfold Task.amendmentAt Task.IsEdit
  rw [Option.bind_eq_some_iff]
  constructor
  · rintro ⟨⟨file, found⟩, hamendment, h⟩
    dsimp only at h
    split at h
    · rename_i place hplace
      split at h
      · rename_i heq
        cases h
        exact ⟨file, (amendmentOf_eq_some hrule).mp hamendment, heq ▸ hplace⟩
      · cases h
    · cases h
  · rintro ⟨file, hrepairs, hplace⟩
    refine ⟨(file, a), hrepairs.amendmentOf_eq, ?_⟩
    dsimp only
    rw [hplace]
    exact if_pos rfl

/-! ## What stands at a location -/

/-- At a location a tree has what another one has there, but for what was written. -/
structure Overlaid (t t' : Tree) (l : Location) (written : Option String) : Prop where
  node : t'.node? l = (written.map fun s => Node.file s.toUTF8).or (t.node? l)
  content : t'.content l = written.or (t.content l)

/-- Where nothing can be written, nothing changes. -/
theorem node?_of_not_writable (hE : Aimed E t) (ht : t.Ordinary) (h : Amended E t t')
    (hw : ¬ t.Writable l) : t'.node? l = t.node? l := by
  induction h with
  | refl => rfl
  | @step t' k a s h hk hw' hs ih =>
    have hne : l ≠ k := by
      rintro rfl
      exact hw (((h.grown hE ht).writable_iff l).mp hw')
    rw [Tree.node?_put t' (hE.ne_nil hk), if_neg hne, ih]

/-- One more task writes its amendment at the location, if it has one. -/
theorem perform_overlaid (hE : Aimed E t) (ht : t.Ordinary) (hplain : Tree.Plain l)
    (hw : t.Writable l) (h : Amended E t t') (hrule : task.rule ∈ Registry.fixing)
    (hedits : ∀ l a, task.IsEdit ignoreRules l a → E l a) (hl : Overlaid t t' l written) :
    Overlaid t (task.perform ignoreRules t').2 l
      ((task.amendmentAt ignoreRules l).elim written (layer (t.content l) written)) := by
  have hgrown := h.grown hE ht
  have hE' := hE.of_grown hgrown
  cases hat : task.amendmentAt ignoreRules l with
  | none =>
    -- the task is about another file
    have hown : Aimed (task.IsEdit ignoreRules) t' := hE'.mono (hedits _ _)
    obtain ⟨hamended, -⟩ := perform_amended hown hgrown.new hrule fun _ _ h => h
    have hnode := hamended.node?_eq hown fun a hedit => by
      rw [← amendmentAt_eq_some hrule, hat] at hedit
      cases hedit
    have hcontent := Tree.content_congr hgrown.new (hamended.grown hown hgrown.new).new hplain hnode
    exact ⟨hnode.trans hl.node, hcontent.trans hl.content⟩
  | some a =>
    have hedit := (amendmentAt_eq_some hrule).mp hat
    have hmember := hedits l a hedit
    rw [Option.elim_some]
    by_cases hs : Settled t' l a
    · have hidle : a.apply (written.or (t.content l)) = none := by
        rw [← hl.content]
        cases ha : a.apply (t'.content l) with
        | none => rfl
        | some s => exact absurd ((hgrown.writable_iff l).mpr hw) (hs s ha)
      rw [Amendment.layer_idle hidle, (perform_of_settled hE' hgrown.new hedit hmember hs).1]
      exact hl
    · obtain ⟨s, ha, hw', hperform⟩ := perform_of_not_settled hE' hgrown.new hedit hmember hs
      have hcontent := hE'.content_put hgrown.new hmember hw' ha
      rw [hl.content] at ha
      rw [Amendment.layer_made ha, hperform]
      refine ⟨?_, hcontent⟩
      rw [Tree.node?_put t' (hE.ne_nil hmember), if_pos rfl]
      rfl

/-- The amendments that tasks are to make at a location. -/
def amendmentsAt (ignoreRules : List IgnoreRule) (l : Location) (tasks : List Task) : List Amendment :=
  tasks.filterMap (Task.amendmentAt ignoreRules l)

/-- Tasks write their amendments at the location, one after the other. -/
theorem performAll_overlaid (hE : Aimed E t) (ht : t.Ordinary) (hplain : Tree.Plain l)
    (hw : t.Writable l) {tasks : List Task} (hrules : ∀ task ∈ tasks, task.rule ∈ Registry.fixing)
    (hedits : ∀ task ∈ tasks, ∀ l a, task.IsEdit ignoreRules l a → E l a) :
    Overlaid t (performAll ignoreRules tasks t).2 l
      (overlay (t.content l) (amendmentsAt ignoreRules l tasks)) := by
  unfold overlay amendmentsAt
  suffices ∀ (tasks : List Task) (t' : Tree) (written : Option String),
      (∀ task ∈ tasks, task.rule ∈ Registry.fixing) →
      (∀ task ∈ tasks, ∀ l a, task.IsEdit ignoreRules l a → E l a) →
      Amended E t t' → Overlaid t t' l written →
      Overlaid t (performAll ignoreRules tasks t').2 l
        ((tasks.filterMap (Task.amendmentAt ignoreRules l)).foldl (layer (t.content l)) written) from
    this tasks t none hrules hedits .refl ⟨Option.none_or.symm, Option.none_or.symm⟩
  intro tasks
  induction tasks with
  | nil => exact fun _ _ _ _ _ h => h
  | cons task rest ih =>
    intro t' written hrules hedits h hl
    obtain ⟨hrule, hrules⟩ := List.forall_mem_cons.mp hrules
    obtain ⟨hedit, hedits⟩ := List.forall_mem_cons.mp hedits
    have hgrown := h.grown hE ht
    have hnext := h.trans (perform_amended (hE.of_grown hgrown) hgrown.new hrule hedit).1
    have hl' := perform_overlaid hE ht hplain hw h hrule hedit hl
    have hrest := ih _ _ hrules hedits hnext hl'
    rw [performAll_cons]
    cases hat : task.amendmentAt ignoreRules l with
    | none =>
      rw [hat] at hrest
      rw [List.filterMap_cons_none hat]
      exact hrest
    | some a =>
      rw [hat] at hrest
      rw [List.filterMap_cons_some hat, List.foldl_cons]
      exact hrest

/-! ## Tasks of a plan -/

/-- Two trees have the same at all locations, up to the order of the entries that were added to a file of
ignored paths. -/
def SameButOrder (t : Tree) (ignored : Location) (first second : Tree) : Prop :=
  ∀ l, first.node? l = second.node? l ∨ (l = ignored ∧ ∃ (old : String) (es es' : List GitIgnore.Entry),
    t.content l = some old ∧ es.Perm es' ∧
    first.node? l = some (.file (GitIgnore.extend old es).toUTF8) ∧
    second.node? l = some (.file (GitIgnore.extend old es').toUTF8))

variable {root : Location} {p : Plan} {first second : List Task}

/-- A task that completes the file of ignored paths does so for a complaint about it. -/
theorem lacks_of_task (hp : Planned t root p) (htask : task ∈ tasks p t) {kind : Kind} {message : Label}
    (hedit : task.IsEdit p.ignoreRules l (.ignore kind message)) : l = root ++ [".gitignore"] ∧
      kind = p.project.kind ∧ Lacks kind (t.content l) message := by
  have htarget := target_of_task hp htask hedit
  refine ⟨?_, kind_of_target htarget, ?_⟩
  · cases htarget with
    | manifest _ ha => exact absurd ha (by decide : "package.json" ≠ ".gitignore")
    | ignored => rfl
  · obtain ⟨-, -, -, -, -, found, hcheck, hfound⟩ := mem_tasks_iff.mp htask
    obtain ⟨r, rule, f⟩ := task
    obtain ⟨file, hrepairs, hplace⟩ := hedit
    dsimp only at hcheck hfound hrepairs hplace
    cases hrepairs
    cases hcheck
    rw [← Context.readText?_of_place hp.ordinary hplace]
    exact lacks_of_check hfound

/-- At the place of an edit the tasks write the same in another order, up to the order of entries. -/
theorem overlay_tasks (hp : Planned t root p) (hfirst : ∀ task ∈ first, task ∈ tasks p t)
    (hperm : first.Perm second) (htask : task ∈ first) (hedit : task.IsEdit p.ignoreRules l a) :
    overlay (t.content l) (amendmentsAt p.ignoreRules l first) =
        overlay (t.content l) (amendmentsAt p.ignoreRules l second) ∨
      (l = root ++ [".gitignore"] ∧ ∃ old es es', t.content l = some old ∧ es.Perm es' ∧
        overlay (t.content l) (amendmentsAt p.ignoreRules l first) = some (GitIgnore.extend old es) ∧
        overlay (t.content l) (amendmentsAt p.ignoreRules l second) = some (GitIgnore.extend old es')) := by
  have hE := aimed_target hp (findings (outcomes p t))
  have htarget := target_of_task hp (hfirst task htask) hedit
  obtain ⟨name, hname, hsuits⟩ := hE.suits htarget
  have hperm' := hperm.filterMap (Task.amendmentAt p.ignoreRules l)
  have hall : ∀ a ∈ amendmentsAt p.ignoreRules l first,
      ∃ task ∈ first, task.IsEdit p.ignoreRules l a := by
    intro a ha
    obtain ⟨task, htask, hat⟩ := List.mem_filterMap.mp ha
    exact ⟨task, htask, (amendmentAt_eq_some (rules_of_tasks hp task (hfirst task htask))).mp hat⟩
  have hsuit : ∀ a ∈ amendmentsAt p.ignoreRules l first, a.Suits name := by
    intro a ha
    obtain ⟨task, htask, hedit⟩ := hall a ha
    exact hE.suits_last hname (target_of_task hp (hfirst task htask) hedit)
  by_cases hignored : name = ".gitignore"
  · subst hignored
    obtain ⟨kind, message, rfl⟩ := Amendment.suits_ignored hsuits
    obtain ⟨hl, -, -⟩ := lacks_of_task hp (hfirst task htask) hedit
    have hlacks : ∀ a ∈ amendmentsAt p.ignoreRules l first, ∃ message,
        a = .ignore p.project.kind message ∧ Lacks p.project.kind (t.content l) message := by
      intro a ha
      obtain ⟨kind, message, rfl⟩ := Amendment.suits_ignored (hsuit a ha)
      obtain ⟨task, htask, hedit⟩ := hall _ ha
      obtain ⟨-, rfl, hlacks⟩ := lacks_of_task hp (hfirst task htask) hedit
      exact ⟨message, rfl, hlacks⟩
    exact (Amendment.overlay_perm_ignored hlacks hperm').imp_right fun hentries => ⟨hl, hentries⟩
  · exact .inl (Amendment.overlay_perm hignored hsuit hperm' _)

/-- The tasks in another order leave the same tree, up to the order of entries. -/
theorem performAll_perm (hp : Planned t root p) (hfirst : ∀ task ∈ first, task ∈ tasks p t)
    (hperm : first.Perm second) : SameButOrder t (root ++ [".gitignore"])
      (performAll p.ignoreRules first t).2 (performAll p.ignoreRules second t).2 := by
  intro l
  have ht := hp.ordinary
  have hrules : ∀ task ∈ first, task.rule ∈ Registry.fixing := fun task h =>
    rules_of_tasks hp task (hfirst task h)
  have hrules' : ∀ task ∈ second, task.rule ∈ Registry.fixing := fun task h =>
    hrules task (hperm.mem_iff.mpr h)
  -- the edits are just those of the tasks, so that other places keep what stands there
  let E : Edits := fun l a => ∃ task ∈ first, task.IsEdit p.ignoreRules l a
  have hE : Aimed E t := (aimed_target hp (findings (outcomes p t))).mono
    fun ⟨task, htask, hedit⟩ => target_of_task hp (hfirst task htask) hedit
  have hedits : ∀ task ∈ first, ∀ l a, task.IsEdit p.ignoreRules l a → E l a :=
    fun task htask _ _ hedit => ⟨task, htask, hedit⟩
  have hedits' : ∀ task ∈ second, ∀ l a, task.IsEdit p.ignoreRules l a → E l a :=
    fun task htask => hedits task (hperm.mem_iff.mpr htask)
  have hamended := (performAll_amended hE ht hrules hedits).1
  have hamended' := (performAll_amended hE ht hrules' hedits').1
  by_cases hw : t.Writable l
  · by_cases hany : ∃ a, E l a
    · obtain ⟨a, task, htask, hedit⟩ := hany
      have hplain := hE.plain ⟨task, htask, hedit⟩
      have hnode := (performAll_overlaid hE ht hplain hw hrules hedits).node
      have hnode' := (performAll_overlaid hE ht hplain hw hrules' hedits').node
      rcases overlay_tasks hp hfirst hperm htask hedit with
        heq | ⟨hl, old, es, es', hold, hes, hwritten, hwritten'⟩
      · rw [heq] at hnode
        exact .inl (hnode.trans hnode'.symm)
      · rw [hwritten] at hnode
        rw [hwritten'] at hnode'
        exact .inr ⟨hl, old, es, es', hold, hes, hnode, hnode'⟩
    · have hnone := not_exists.mp hany
      exact .inl ((hamended.node?_eq hE hnone).trans (hamended'.node?_eq hE hnone).symm)
  · exact .inl ((node?_of_not_writable hE ht hamended hw).trans
      (node?_of_not_writable hE ht hamended' hw).symm)

/-- What a task amends on its own is still amended after other tasks. -/
theorem task_lasts (hp : Planned t root p) (hfirst : ∀ task ∈ first, task ∈ tasks p t)
    (htask : task ∈ first) (hperform : task.perform p.ignoreRules t = (.ok true, t')) :
    ∃ file a, Repairs (task.root.context p.ignoreRules) task.finding task.rule file a ∧
      a.Lasts ((task.root.context p.ignoreRules).readText? t file)
        ((task.root.context p.ignoreRules).readText? (performAll p.ignoreRules first t).2 file) := by
  have ht := hp.ordinary
  have hE := aimed_target hp (findings (outcomes p t))
  have hrules : ∀ task ∈ first, task.rule ∈ Registry.fixing := fun task h =>
    rules_of_tasks hp task (hfirst task h)
  have hedits : ∀ task ∈ first, ∀ l a, task.IsEdit p.ignoreRules l a →
      Target root p.project (findings (outcomes p t)) l a :=
    fun task h _ _ hedit => target_of_task hp (hfirst task h) hedit
  obtain ⟨hamended, hsettled⟩ := performAll_amended hE ht hrules hedits
  have hgrown := hamended.grown hE ht
  have hsomething : ¬ task.ComesToNothing p.ignoreRules t := by
    rintro ⟨-, hfailed⟩
    rw [hperform] at hfailed
    cases hfailed
  obtain ⟨l, a, hedit⟩ : ∃ l a, task.IsEdit p.ignoreRules l a := by
    by_contra hnone
    push Not at hnone
    exact hsomething (perform_of_no_edit ht (hrules task htask) hnone)
  have hmember := hedits task htask l a hedit
  obtain ⟨s, ha, hw, -⟩ := perform_of_not_settled hE ht hedit hmember fun hs =>
    hsomething (perform_of_settled hE ht hedit hmember hs)
  have hafter : a.apply ((performAll p.ignoreRules first t).2.content l) = none := by
    by_contra hsome
    obtain ⟨s', hs'⟩ := Option.ne_none_iff_exists'.mp hsome
    exact hsettled task htask l a hedit s' hs' ((hgrown.writable_iff l).mpr hw)
  obtain ⟨name, hname, -⟩ := hE.suits hmember
  obtain ⟨file, hrepairs, hplace⟩ := hedit
  refine ⟨file, a, hrepairs, ?_⟩
  rw [Context.readText?_of_place ht hplace, Context.readText?_of_place hgrown.new hplace]
  refine (hamended.content hE ht (hE.plain hmember)).lasts (fun _ => hE.suits_last hname) ?_ hmember
    (by rw [ha]; exact Option.some_ne_none s) hafter
  intro kind message kind' message' h h'
  exact (kind_of_target h').trans (kind_of_target h).symm

/-- The tasks of a run on a tree without links, or some of them, leave the same tree in every order, up to
the order of the entries that are added to the file of ignored paths. What a task amends on its own is
still amended after all of them. -/
theorem tasks_in_any_order (ht : t.Ordinary) {current : List String} {path : String} {o : Options}
    (hplan : plan none t current path o = .ok p) (hfirst : ∀ task ∈ first, task ∈ tasks p t)
    (hperm : first.Perm second) :
    SameButOrder t (Path.steps p.project.root ++ [".gitignore"])
      (performAll p.ignoreRules first t).2 (performAll p.ignoreRules second t).2 ∧
    ∀ task ∈ first, ∀ t', task.perform p.ignoreRules t = (.ok true, t') →
      ∃ file a, Repairs (task.root.context p.ignoreRules) task.finding task.rule file a ∧
        a.Lasts ((task.root.context p.ignoreRules).readText? t file)
          ((task.root.context p.ignoreRules).readText? (performAll p.ignoreRules first t).2 file) := by
  obtain ⟨root, -, hp⟩ := planned_of_plan ht hplan
  rw [hp.steps]
  exact ⟨performAll_perm hp hfirst hperm, fun task htask _ hperform =>
    task_lasts hp hfirst htask hperform⟩

/-! ## A manifest with two repairs -/

/-- A package that depends on a version of another one, in a monorepo with a file of ignored paths. -/
def busyTree : Tree := dependentTree.put ["r", ".gitignore"] (.file "dist".toUTF8)

theorem ordinary_busyTree : busyTree.Ordinary := Tree.ordinary_of_entries (by decide)

/-- The root of the package. -/
def busyPackage : ScanRoot :=
  ⟨["r", "b"], ⟨.generic, "b", "/r/b", .unknown, false, false, none, none, none, none, none⟩, .generic,
    true, "b"⟩

/-- The plan of a run on the whole and on the package. -/
def busyPlan : Plan :=
  ⟨dependentProject, .unset ["r"], none, [dependentRoot, busyPackage], Registry.builtIn⟩

/-- The options of the run. -/
def busyOptions : Options := { filter := "b" }

theorem plan_busyTree : plan none busyTree [] "/r" busyOptions = .ok busyPlan := by
  refine plan_eq_ok.mpr ⟨fun name h => ?_, ["r"], ?_⟩
  · cases h
  · exact ⟨by decide +kernel, by decide +kernel, by decide +kernel, by decide +kernel, rfl⟩

/-- What is wrong with the manifest of the package. -/
def engineFinding : Finding :=
  (EngineVersion.info.finding "package.json" "Missing engines.node field").asFixable

/-- The tasks of the run, but for the one on the manifest of the whole. -/
def busyTasks : List Task :=
  [⟨dependentRoot, Monorepo.WorkspaceProtocol.rule, dependentFinding⟩,
    ⟨dependentRoot, Hygiene.GitIgnore.rule, lacking ⟨"node_modules", "node_modules"⟩⟩,
    ⟨dependentRoot, Hygiene.GitIgnore.rule, lacking ⟨".env", ".env files"⟩⟩,
    ⟨busyPackage, Hygiene.EngineVersion.rule, engineFinding⟩]

theorem mem_busyTasks : ∀ task ∈ busyTasks, task ∈ tasks busyPlan busyTree := by
  have hmem : ∀ {r : ScanRoot} {rule : Rule} {f : Finding},
      r ∈ busyPlan.roots → rule ∈ Registry.fixing → rule.info.applies r.kind = true →
      rule.canFix = true → f.fixable = true →
      f ∈ rule.check (r.context busyPlan.ignoreRules) busyTree →
      ⟨r, rule, f⟩ ∈ tasks busyPlan busyTree :=
    fun hr hrule happlies hfix hfixable hf =>
      mem_tasks_iff.mpr ⟨hr, builtIn_of_fixing hrule, happlies, hfix, hfixable, hf⟩
  have hprotocol : dependentFinding ∈ Monorepo.WorkspaceProtocol.rule.check
      (dependentRoot.context busyPlan.ignoreRules) busyTree := by decide +kernel
  have hignore : ∀ e ∈ Amendment.required .generic, lacking e ∈ Hygiene.GitIgnore.rule.check
      (dependentRoot.context busyPlan.ignoreRules) busyTree := by decide +kernel
  have hengine : engineFinding ∈ Hygiene.EngineVersion.rule.check
      (busyPackage.context busyPlan.ignoreRules) busyTree := by decide +kernel
  have hwhole : dependentRoot ∈ busyPlan.roots := List.mem_cons_self ..
  have hpackage : busyPackage ∈ busyPlan.roots := List.mem_of_getElem? (i := 1) rfl
  have hcompletes : ∀ e ∈ Amendment.required .generic,
      ⟨dependentRoot, Hygiene.GitIgnore.rule, lacking e⟩ ∈ tasks busyPlan busyTree :=
    fun e he => hmem hwhole (List.mem_of_getElem? (i := 4) rfl) rfl rfl rfl (hignore e he)
  unfold busyTasks
  refine List.forall_mem_cons.mpr ⟨?_, List.forall_mem_cons.mpr ⟨hcompletes _ (by decide),
    List.forall_mem_cons.mpr ⟨hcompletes _ (by decide), List.forall_mem_singleton.mpr ?_⟩⟩⟩
  · exact hmem hwhole (List.mem_of_getElem? (i := 1) rfl) rfl rfl rfl hprotocol
  · exact hmem hpackage (List.mem_of_getElem? (i := 3) rfl) rfl rfl rfl hengine

/-- The tasks can be done in the other order, and the manifest gets both repairs. -/
theorem tasks_in_any_order_busyTree :
    SameButOrder busyTree ["r", ".gitignore"]
      (performAll busyPlan.ignoreRules busyTasks busyTree).2
      (performAll busyPlan.ignoreRules busyTasks.reverse busyTree).2 ∧
    (∃ manifest, Amendment.membersOf ((dependentRoot.context busyPlan.ignoreRules).readText?
        (performAll busyPlan.ignoreRules busyTasks busyTree).2 "b/package.json") = some manifest ∧
      versionUnder? "a" manifest "dependencies" = some (.str "workspace:*")) ∧
    ∃ manifest, Amendment.membersOf ((busyPackage.context busyPlan.ignoreRules).readText?
        (performAll busyPlan.ignoreRules busyTasks busyTree).2 "package.json") = some manifest ∧
      engineVersion? manifest = some (.str ">=18") := by
  obtain ⟨hsame, hlast⟩ := tasks_in_any_order ordinary_busyTree plan_busyTree mem_busyTasks
    (List.reverse_perm busyTasks).symm
  refine ⟨hsame, ?_, ?_⟩
  · have hperform : (Task.perform busyPlan.ignoreRules
        ⟨dependentRoot, Monorepo.WorkspaceProtocol.rule, dependentFinding⟩ busyTree).1 = .ok true := by
      decide +kernel
    have hamendment : amendmentOf (dependentRoot.context busyPlan.ignoreRules)
        Monorepo.WorkspaceProtocol.rule dependentFinding = some ("b/package.json", .localize "a") := by
      decide +kernel
    have hplain : (Amendment.membersOf ((dependentRoot.context busyPlan.ignoreRules).readText?
        busyTree "b/package.json")).any (plainUnder "a" · "dependencies") = true := by
      decide +kernel
    obtain ⟨file, a, hrepairs, hlasts⟩ := hlast _ (List.mem_cons_self ..) _ (Prod.fst_eq_iff.mp hperform)
    obtain ⟨rfl, rfl⟩ := Prod.mk.inj (Option.some.inj (hamendment.symm.trans hrepairs.amendmentOf_eq))
    cases hlasts with
    | dependency h h' hversion =>
      rw [h] at hplain
      exact ⟨_, h', hversion "dependencies" (List.mem_cons_self ..) hplain⟩
  · have hperform : (Task.perform busyPlan.ignoreRules
        ⟨busyPackage, Hygiene.EngineVersion.rule, engineFinding⟩ busyTree).1 = .ok true := by
      decide +kernel
    have hamendment : amendmentOf (busyPackage.context busyPlan.ignoreRules)
        Hygiene.EngineVersion.rule engineFinding = some ("package.json", .stateEngine) := rfl
    obtain ⟨file, a, hrepairs, hlasts⟩ :=
      hlast _ (List.mem_of_getElem? (i := 3) rfl) _ (Prod.fst_eq_iff.mp hperform)
    obtain ⟨rfl, rfl⟩ := Prod.mk.inj (Option.some.inj (hamendment.symm.trans hrepairs.amendmentOf_eq))
    cases hlasts with
    | engine h hversion => exact ⟨_, h, hversion⟩

end Run

end Checkup
