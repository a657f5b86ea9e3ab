import Checkup.Proofs.Project.Reconfigured
import Checkup.Proofs.Rule.Distinct
import Checkup.Proofs.Run.Results
import Checkup.Proofs.Run.Stages

/-!
# Filters

A run may be narrowed to the rules of a category, to the workspaces that a text selects, and by rules
that the settings leave out. These act in different places: on the list of rules, on the scan roots,
and through the settings file, which lies in the tree that is checked. All the same a narrowed run
tells a part of what the full run tells, and nothing is told differently.

* `Registry.chosen_narrowed`: the rules of a narrowed run.
* `ScanRoot.ofProject_narrowed`: its scan roots.
* `Run.outcomes_narrowed`: its checks.
* `Run.results_filter`: the results of a part of the checks.
* `Run.run_narrowed`: what a narrowed run comes to.
-/

namespace Checkup

variable {t t' : Tree} {c : Category} {disabled disabled' left : List String} {filter : String}

/-- The options of a run, narrowed to a category and to the workspaces that a text selects. -/
def Options.narrowed (o : Options) (c : Category) (filter : String) : Options :=
  { o with category := some c.name, filter := filter }

/-! ## Rules -/

theorem Rule.firstOfEach_of_nodup {rules : List Rule} (h : (rules.map fun r => r.info.id).Nodup) :
    firstOfEach rules = rules := by
  induction rules with
  | nil => rfl
  | cons r rest ih =>
    rw [List.map_cons, List.nodup_cons] at h
    rw [firstOfEach, ih h.2, List.filter_eq_self.mpr fun other hother => ?_]
    exact bne_iff_ne.mpr fun heq => h.1 (List.mem_map.mpr ⟨other, hother, heq⟩)

/-- The rule is of a category, and it is not one of those left out. -/
def Rule.isOf (c : Category) (left : List String) (r : Rule) : Bool :=
  decide (r.info.category = c) && !left.contains r.info.id

namespace Registry

theorem chosen_eq_filter (choice : Choice) : chosen choice = builtIn.filter choice.lowered.admits :=
  Rule.firstOfEach_of_nodup ((List.filter_sublist.map _).nodup id_nodup_builtIn)

/-- The name of a category tells the rules of the category. -/
theorem category_name_iff (hc : c ∈ Category.known) {r : Rule} (hr : r ∈ builtIn) :
    r.info.category.name = c.name ↔ r.info.category = c := by
  have hknown : ∀ r ∈ builtIn, r.info.category ∈ Category.known := by decide
  refine ⟨fun h => ?_, fun h => h ▸ rfl⟩
  rw [← Category.ofName_name (hknown r hr), h, Category.ofName_name hc]

/-- A choice of one category that leaves out further rules is a part of the choice of all. -/
theorem chosen_narrowed (hc : c ∈ Category.known)
    (hdisabled : ∀ id, id ∈ disabled' ↔ id ∈ disabled ∨ id ∈ left) :
    chosen ⟨[c.name], disabled'⟩ = (chosen ⟨[], disabled⟩).filter (Rule.isOf c left) := by
  have hlower : ∀ c ∈ Category.known, Text.lower c.name = c.name := by decide
  rw [chosen_eq_filter, chosen_eq_filter, List.filter_filter]
  refine List.filter_congr fun r hr => ?_
  rw [Bool.eq_iff_iff]
  simp only [Choice.admits, Choice.lowered, Rule.isOf, List.map_cons, List.map_nil, hlower c hc,
    List.isEmpty_cons, List.isEmpty_nil, List.contains_iff_mem, List.mem_singleton, Bool.and_eq_true,
    Bool.or_eq_true, Bool.not_eq_true', decide_eq_true_eq, Bool.false_eq_true, false_or, true_or,
    and_true, Bool.eq_false_iff, ne_eq, hdisabled, not_or, category_name_iff hc hr]
  tauto

end Registry

/-! ## Scan roots -/

/-- The scan root is the project, or the text occurs in its name or its path. -/
def ScanRoot.passes (filter : String) (r : ScanRoot) : Bool :=
  !r.isWorkspace || r.project.name.contains filter || Text.contains r.relativePath filter

/-- A filter leaves the project and the workspaces in whose name or path it occurs. -/
theorem ScanRoot.ofProject_narrowed {project : Project} (hfilter : filter ≠ "")
    {roots : List ScanRoot} (hroots : ofProject t project "" = .ok roots) :
    ofProject t project filter = .ok (roots.filter (passes filter)) := by
  have hwhole : ∀ kind, passes filter (whole project kind) = true := fun _ => rfl
  unfold ofProject at hroots ⊢
  cases hmonorepo : project.isMonorepo with
  | false =>
    rw [hmonorepo] at hroots
    cases hroots
    rw [List.filter_cons_of_pos (hwhole project.kind)]
    rfl
  | true =>
    rw [hmonorepo] at hroots
    have hall : selected project "" = project.workspaceList :=
      List.filter_eq_self.mpr fun w _ => by simp [isSelected]
    rw [hall] at hroots
    cases hfound : project.workspaceList.mapM (ofWorkspace t project) with
    | error fault =>
      rw [hfound] at hroots
      cases hroots
    | ok found =>
      rw [hfound] at hroots
      cases hroots
      have hselected : (selected project filter).mapM (ofWorkspace t project) =
          .ok (found.filter (passes filter)) := by
        refine Except.mapM_filter hfound fun w _ r hr => ?_
        obtain ⟨-, _, -, rfl⟩ := Run.ofWorkspace_eq_ok.mp hr
        simp [passes, isSelected, hfilter]
      rw [hselected, List.filter_cons_of_pos (hwhole .monorepo)]
      rfl

theorem ScanRoot.ofProject_same (h : Tree.SameBut Settings.fileName t t') (project : Project)
    (filter : String) : ofProject t' project filter = ofProject t project filter := by
  have hworkspace : ofWorkspace t' project = ofWorkspace t project :=
    funext fun w => ofWorkspace_same h project w
  unfold ofProject
  rw [hworkspace]

namespace Run

variable {current : List String} {path : String} {o : Options} {p p' : Plan}

/-! ## Checks -/

/-- The outcome is one of a narrowed run: its rule is of a category and not left out, and its scan root
passes the filter. -/
def Outcome.isOf (c : Category) (left : List String) (filter : String) (o : Outcome) : Bool :=
  o.rule.isOf c left && o.root.passes filter

/-- The plan is a part of another one. -/
structure Plan.Narrows (c : Category) (left : List String) (filter : String) (p p' : Plan) : Prop where
  project : p'.project = p.project
  roots : p'.roots = p.roots.filter (ScanRoot.passes filter)
  rules : p'.rules = p.rules.filter (Rule.isOf c left)
  excluded : p'.settings.excluded = p.settings.excluded

theorem outcomesAt_narrowed {ignoreRules : List IgnoreRule} {rules : List Rule} {root : ScanRoot}
    (hroot : root.passes filter = true) (hcheck : ∀ rule ∈ rules,
      rule.check (root.context ignoreRules) t' = rule.check (root.context ignoreRules) t) :
    outcomesAt ignoreRules t' (rules.filter (Rule.isOf c left)) root =
      (outcomesAt ignoreRules t rules root).filter (Outcome.isOf c left filter) := by
  unfold outcomesAt
  rw [List.filter_map, List.filter_filter, List.filter_filter]
  have hkeep : ∀ rule ∈ rules, (rule.info.applies root.kind && rule.isOf c left) =
      ((Outcome.isOf c left filter ∘ fun rule => Outcome.mk root rule
        (rule.check (root.context ignoreRules) t)) rule && rule.info.applies root.kind) := by
    intro rule _
    simp only [Function.comp_apply, Outcome.isOf, hroot, Bool.and_true]
    exact Bool.and_comm _ _
  rw [List.filter_congr hkeep]
  refine List.map_congr_left fun rule hrule => ?_
  rw [hcheck rule (List.mem_filter.mp hrule).1]

/-- A narrowed plan makes a part of the checks, and they come to the same. -/
theorem outcomes_narrowed (h : p.Narrows c left filter p')
    (hcheck : ∀ root ∈ p.roots, ∀ rule ∈ p.rules, rule.check (root.context p.ignoreRules) t' =
      rule.check (root.context p.ignoreRules) t) :
    outcomes p' t' = (outcomes p t).filter (Outcome.isOf c left filter) := by
  have hignore : p'.ignoreRules = p.ignoreRules := by
    unfold Plan.ignoreRules
    rw [h.excluded]
  -- A scan root that does not pass contributes nothing, on either side.
  have hnone : ∀ root ∈ p.roots, root.passes filter = false →
      (outcomesAt p.ignoreRules t p.rules root).filter (Outcome.isOf c left filter) = [] := by
    intro root _ hroot
    refine List.filter_eq_nil_iff.mpr fun outcome houtcome => ?_
    obtain ⟨rule, -, rfl⟩ := List.mem_map.mp houtcome
    simp [Outcome.isOf, hroot]
  rw [outcomes_eq, outcomes_eq, h.roots, h.rules, hignore, List.filter_flatMap,
    ← flatMap_filter_of_nil hnone]
  refine List.flatMap_congr fun root hroot => ?_
  obtain ⟨hmem, hpasses⟩ := List.mem_filter.mp hroot
  exact outcomesAt_narrowed hpasses (hcheck root hmem)

/-! ## Results -/

/-- The result of the rules with an id in a part of some outcomes, beside their result in all. -/
structure IsPart (os : List Outcome) (keep : Outcome → Bool) (r r' : RuleResult) : Prop where
  rule : r'.rule = r.rule
  name : r'.name = r.name
  category : r'.category = r.category
  findings : r.findings = findings (ofId os r.rule)
  part : r'.findings = Run.findings ((ofId os r.rule).filter keep)
  passed : r'.passed = true ↔ r'.findings = []

/-- The results of a part of some outcomes are parts of their results. -/
theorem results_filter {os : List Outcome} {keep : Outcome → Bool}
    (hids : ∀ o ∈ os, ∀ o' ∈ os, o.rule.info.id = o'.rule.info.id → o.rule.info = o'.rule.info)
    {r' : RuleResult} (hr' : r' ∈ results (os.filter keep)) :
    ∃ r ∈ results os, IsPart os keep r r' := by
  have hpart := mem_results hr'
  have hmem : ∀ {os : List Outcome} {id : String} {o : Outcome}, (ofId os id).head? = some o →
      o ∈ os ∧ o.rule.info.id = id := by
    intro os id o ho
    obtain ⟨hos, hid⟩ := List.mem_filter.mp (List.mem_of_mem_head? ho)
    exact ⟨hos, of_decide_eq_true hid⟩
  obtain ⟨first', hfirst', hname', hcategory'⟩ := hpart.described
  obtain ⟨hkept, hid'⟩ := hmem hfirst'
  have hold := (List.mem_filter.mp hkept).1
  obtain ⟨r, hr, hrule⟩ : ∃ r ∈ results os, r.rule = r'.rule := by
    refine List.mem_map.mp ?_
    rw [rules_results, List.mem_eraseDups]
    exact List.mem_map.mpr ⟨first', hold, hid'⟩
  have hwhole := mem_results hr
  obtain ⟨first, hfirst, hname, hcategory⟩ := hwhole.described
  obtain ⟨hos, hid⟩ := hmem hfirst
  -- The first outcome kept need not be the first of all, but rules with one id have one name.
  have hinfo := hids first' hold first hos (hid'.trans (hrule.symm.trans hid.symm))
  refine ⟨r, hr, hrule.symm, ?_, ?_, hwhole.findings, ?_, hpart.passed⟩
  · rw [hname', hname, hinfo]
  · rw [hcategory', hcategory, hinfo]
  · rw [hpart.findings, hrule]
    unfold ofId
    rw [List.filter_filter, List.filter_filter]
    simp only [Bool.and_comm]

/-! ## Runs -/

/-- The checks of the rules come to the same in trees that differ in settings only. -/
theorem check_reconfigured (h : Tree.SameBut Settings.fileName t t')
    (hplan : plan none t current path o = .ok p) : ∀ root ∈ p.roots, ∀ rule ∈ p.rules,
      rule.check (root.context p.ignoreRules) t' = rule.check (root.context p.ignoreRules) t := by
  obtain ⟨-, directory, hdirectory, hdescribe, -, hroots, -⟩ := plan_eq_ok.mp hplan
  intro root hroot rule hrule
  have hsteps := Project.steps_of_folder h.grown.old (Project.folder_of_rootOf h.grown.old hdirectory)
  have hpaths : ∀ w ∈ root.project.workspaceList, Path.isAbsolute w.path = false := by
    intro w hw
    rcases mem_ofProject hroots hroot with ⟨kind, rfl⟩ | ⟨_, -, -, hof⟩
    · exact (Project.workspaces_found h.grown.old.named hsteps hdescribe hw).located.relative
    · obtain ⟨-, _, -, rfl⟩ := ofWorkspace_eq_ok.mp hof
      cases hw
  have hshows : (root.context p.ignoreRules).ShowsSame t t' := Context.showsSame_same h hpaths
  exact Registry.check_eq hshows (mem_rules_of_plan hplan rule hrule)

/-- With further rules left out by the settings, a run that is narrowed has a part of the plan. -/
theorem plan_narrowed (h : Reconfigured (rootAt current path) t t')
    (hcategory : o.category = none) (hfilter : o.filter = "")
    (hplan : plan none t current path o = .ok p) (hcategories : p.settings.categories = [])
    {settings : Settings} {ignored : Option SettingsFault}
    (hsettings : settingsOf t' p.project = .ok (settings, ignored))
    (hexcluded : settings.excluded = p.settings.excluded)
    (hdisabled : ∀ id, id ∈ settings.disabled ↔ id ∈ p.settings.disabled ∨ id ∈ left)
    (hc : c ∈ Category.known) (hne : filter ≠ "") :
    ∃ p', plan none t' current path (o.narrowed c filter) = .ok p' ∧
      p.Narrows c left filter p' := by
  have hknown : ∀ c ∈ Category.known, Category.isKnownName c.name = true := by decide
  obtain ⟨-, root, hroot, hdescribe, -, hroots, hrules⟩ := plan_eq_ok.mp hplan
  obtain rfl := eq_rootAt h.old hroot
  rw [hfilter] at hroots
  refine ⟨⟨p.project, settings, ignored, p.roots.filter (ScanRoot.passes filter),
    p.rules.filter (Rule.isOf c left)⟩, plan_eq_ok.mpr ⟨?_, rootAt current path, ?_, ?_, hsettings,
      ?_, ?_⟩, rfl, rfl, rfl, hexcluded⟩
  · intro name hname
    cases hname
    exact hknown c hc
  · exact Project.rootOf_grown h.sameBut.grown hroot
  · exact (Project.describe_reconfigured h).trans hdescribe
  · exact (ScanRoot.ofProject_same h.sameBut _ _).trans (ScanRoot.ofProject_narrowed hne hroots)
  · have hall : choice o p.settings = ⟨[], p.settings.disabled⟩ := by
      unfold choice
      rw [hcategory, hcategories]
    rw [hrules, hall, ← Registry.chosen_narrowed hc hdisabled]
    rfl

/-- A run without repairs that is narrowed to a category and to some workspaces, with further rules
left out by the settings, comes to a result. It has the findings of those checks of the full run that
are by rules of the category that are not left out, in the project or in workspaces in whose name or
path the filter occurs. Every result of a rule has that part of the findings of the rule, and it is
passed if that is nothing. -/
theorem run_narrowed (h : Reconfigured (rootAt current path) t t')
    (ho : (o.fix && !o.dryRun) = false) (hcategory : o.category = none) (hfilter : o.filter = "")
    {v : Visit} (hv : visit none t current path o = (.ok v, t))
    (hcategories : v.plan.settings.categories = [])
    {settings : Settings} {ignored : Option SettingsFault}
    (hsettings : settingsOf t' v.plan.project = .ok (settings, ignored))
    (hexcluded : settings.excluded = v.plan.settings.excluded)
    (hdisabled : ∀ id, id ∈ settings.disabled ↔ id ∈ v.plan.settings.disabled ∨ id ∈ left)
    (hc : c ∈ Category.known) (hne : filter ≠ "") :
    (run none t current path o).1 = .ok (v.diagnosis o) ∧
    (v.diagnosis o).findings = v.outcomes.flatMap Outcome.reported ∧
    ∃ d', (run none t' current path (o.narrowed c filter)).1 = .ok d' ∧
      d'.project = (v.diagnosis o).project ∧
      d'.findings =
        (v.outcomes.filter (Outcome.isOf c left filter)).flatMap Outcome.reported ∧
      d'.results.map (·.rule) = ((v.outcomes.filter (Outcome.isOf c left filter)).map fun outcome =>
        outcome.rule.info.id).eraseDups ∧
      ∀ r' ∈ d'.results, ∃ r ∈ (v.diagnosis o).results,
        IsPart v.outcomes (Outcome.isOf c left filter) r r' := by
  obtain ⟨hplan, houtcomes⟩ := (visit_eq_ok ho).mp hv
  obtain ⟨p', hplan', hnarrows⟩ := plan_narrowed h hcategory hfilter hplan hcategories hsettings
    hexcluded hdisabled hc hne
  have hsame : outcomes p' t' = v.outcomes.filter (Outcome.isOf c left filter) := by
    rw [outcomes_narrowed hnarrows (check_reconfigured h.sameBut hplan), houtcomes]
  have hids : ∀ o ∈ v.outcomes, ∀ o' ∈ v.outcomes, o.rule.info.id = o'.rule.info.id →
      o.rule.info = o'.rule.info := by
    have hbuiltIn : ∀ o ∈ v.outcomes, o.rule ∈ Registry.builtIn := by
      intro outcome houtcome
      obtain ⟨-, -, -, -, -, -, hrules⟩ := plan_eq_ok.mp hplan
      have hpair : (outcome.root, outcome.rule) ∈ v.plan.pairs :=
        checks_of_visit hv ▸ List.mem_map.mpr ⟨outcome, houtcome, rfl⟩
      have hrule := (mem_pairs_iff.mp hpair).2.1
      rw [hrules] at hrule
      exact (Registry.mem_of_mem_choose hrule).1
    exact fun o hmem o' hmem' hid => congrArg Rule.info (Registry.eq_of_id (hbuiltIn o hmem)
      (hbuiltIn o' hmem') hid)
  refine ⟨?_, rfl, _, congrArg Prod.fst (run_of_plan hplan'), ?_, ?_, ?_, ?_⟩
  · unfold run
    rw [hv]
  · exact hnarrows.project
  · exact congrArg findings hsame
  · exact hsame ▸ rules_results (outcomes p' t')
  · intro r' hr'
    exact results_filter hids (hsame ▸ hr')

/-! ## One of two packages -/

/-- A monorepo of two packages without settings. -/
def packagesTree : Tree :=
  ⟨[(["r"], .folder), (["r", "package.json"], .file "\x7b\"workspaces\":[\"a\",\"b\"]\x7d".toUTF8),
    (["r", "a"], .folder), (["r", "b"], .folder)]⟩

/-- The monorepo with settings that leave a rule out. -/
def leftOutTree : Tree := packagesTree.put ["r", ".repodoctor.yml"]
  (.file "rules: \x7bdisabled: node/engines-field\x7d".toUTF8)

theorem ordinary_packagesTree : packagesTree.Ordinary := Tree.ordinary_of_entries (by decide)

/-- The settings file is new, and there is room for it: no pattern has a wildcard. -/
theorem reconfigured_leftOutTree : Reconfigured (rootAt [] "/r") packagesTree leftOutTree where
  old := ordinary_packagesTree
  new := ordinary_packagesTree.put_file (by decide) (by decide) (by decide) (by decide) _
  same {l} hl := by
    rw [leftOutTree, Tree.node?_put _ (by decide), if_neg]
    rintro rfl
    exact hl (by decide)
  file _ := by
    refine ⟨by decide, "rules: \x7bdisabled: node/engines-field\x7d".toUTF8, ?_⟩
    rw [leftOutTree, Tree.node?_put _ (by decide), if_pos (by decide)]
  room _ _ := by
    have hpatterns : Workspaces.patterns packagesTree (rootAt [] "/r")
        (Manifest.read packagesTree (rootAt [] "/r")) = .ok ["a", "b"] := by decide +kernel
    have hplain : ∀ label ∈ ([.text "a", .text "b"] : List Label), ∀ pattern, label = .text pattern →
        ∀ s ∈ Workspaces.selection? pattern, s.wildcard = false := by
      simp only [List.forall_mem_cons, List.not_mem_nil, false_implies, implies_true, and_true,
        Label.text.injEq, forall_eq']
      decide +kernel
    intro found hfound pattern hpattern s hs hwildcard
    rw [hpatterns] at hfound
    cases hfound
    rw [hplain _ hpattern pattern rfl s hs] at hwildcard
    cases hwildcard

/-- A package of the monorepo. -/
def package (name : String) : Workspace := ⟨name, name, "/r/" ++ name, .generic, false⟩

/-- The monorepo, as it is described. -/
def packagesProject : Project :=
  ⟨.generic, "r", "/r", .unknown, true, false, none, some [package "a", package "b"], none, none, none⟩

/-- A package as a scan root. -/
def packageRoot (name : String) : ScanRoot :=
  ⟨["r", name], { packagesProject with
    name := name, root := "/r/" ++ name, isMonorepo := false, workspaces := none },
    .generic, true, name⟩

/-- The plan of the full run. -/
def packagesPlan : Plan :=
  ⟨packagesProject, .unset ["r"], none,
    [.whole packagesProject .monorepo, packageRoot "a", packageRoot "b"],
    Registry.chosen (choice {} (.unset ["r"]))⟩

theorem plan_packagesTree : plan none packagesTree [] "/r" {} = .ok packagesPlan := by
  refine plan_eq_ok.mpr ⟨fun name h => (by cases h), ["r"], ?_⟩
  exact ⟨by decide +kernel, by decide +kernel, by decide +kernel, by decide +kernel, rfl⟩

/-- The narrowed run comes to a result, and it has the findings of the rules that are left on the
project and on one package. -/
theorem run_narrowed_leftOutTree : ∃ v d', visit none packagesTree [] "/r" {} = (.ok v, packagesTree) ∧
    (run none leftOutTree [] "/r" { category := some "node", filter := "a" }).1 = .ok d' ∧
    d'.findings = (v.outcomes.filter (Outcome.isOf .node ["node/engines-field"] "a")).flatMap
      Outcome.reported ∧
    d'.findings.map (·.rule) = ["node/single-lock-file", "structure/gitignore"] := by
  have hv : visit none packagesTree [] "/r" {} =
      (.ok ⟨packagesPlan, outcomes packagesPlan packagesTree, []⟩, packagesTree) :=
    (visit_eq_ok rfl).mpr ⟨plan_packagesTree, rfl⟩
  have hsettings : settingsOf leftOutTree packagesProject =
      .ok (⟨["r"], ["node/engines-field"], [], [], none⟩, none) := by decide +kernel
  have hdisabled : ∀ id, id ∈ ["node/engines-field"] ↔
      id ∈ packagesPlan.settings.disabled ∨ id ∈ ["node/engines-field"] := by
    simp [packagesPlan, Settings.unset]
  have hfilter : "a" ≠ "" := by decide
  obtain ⟨-, -, d', hrun, -, hfindings, -⟩ := run_narrowed (c := .node) reconfigured_leftOutTree rfl
    rfl rfl hv rfl hsettings rfl hdisabled (by decide) hfilter
  refine ⟨_, d', hv, hrun, hfindings, ?_⟩
  rw [hfindings]
  decide +kernel

end Run

end Checkup
