import Checkup.Proofs.Repair.Promises
import Checkup.Proofs.Rule.Distinct
import Checkup.Proofs.Run.WriteSet

/-!
# Findings that are reported twice

No rule finds anything twice in one scan root, and no two rules of a run share an id. So two findings
that look the same come from two scan roots that see the same file: from two workspaces one of which
lies in the other, or from a workspace in the project's own directory. The one exception is a message
from which the name of a workspace cannot be read.

* `Doubled`: the findings that may be reported twice.
* `Run.findings_apart`: every other finding is reported once.
* `Run.findings_twice`: a finding in two workspaces, which counts twice.
-/

namespace Checkup

variable {t : Tree}

/-- The directory of a workspace. -/
def Workspace.location (w : Workspace) : Location :=
  Path.normalSteps true (Path.steps w.absolutePath)

/-- The findings that may be reported twice by a run with a filter. -/
inductive Doubled (d : Diagnosis) (filter : String) (f : Finding) : Prop
  /-- The file lies in two workspaces. -/
  | nested {w w' : Workspace} (hw : w ∈ ScanRoot.selected d.project filter)
    (hw' : w' ∈ ScanRoot.selected d.project filter) (hne : w ≠ w')
    (h : w.location <+: d.placeOf f) (h' : w'.location <+: d.placeOf f)
  /-- A workspace lies in the directory of the project. -/
  | here {w : Workspace} (hw : w ∈ ScanRoot.selected d.project filter)
    (h : w.location = Path.steps d.project.root)
  /-- The name of a workspace holds what a message says behind it. -/
  | unclear {w : Workspace} (hw : w ∈ d.project.workspaceList)
    (hname : w.name.contains advice = true)
    (hrule : f.rule = Monorepo.WorkspaceProtocol.info.id)

/-- Whether a finding may be reported twice is seen from what the report tells of it. -/
theorem Doubled.congr {d : Diagnosis} {filter : String} {f g : Finding} (hkey : f.key = g.key)
    (h : Doubled d filter f) : Doubled d filter g := by
  have hplace : d.placeOf f = d.placeOf g := by
    unfold Diagnosis.placeOf
    rw [Finding.file_eq_of_key hkey]
  cases h with
  | nested hw hw' hne h h' => exact .nested hw hw' hne (hplace ▸ h) (hplace ▸ h')
  | here hw h => exact .here hw h
  | unclear hw hname hrule => exact .unclear hw hname ((Finding.rule_eq_of_key hkey).symm.trans hrule)

/-- If the same can only be there twice for a reason, then what has no such reason is there once. -/
theorem count_le_one {α : Type} [DecidableEq α] {P : α → Prop} {l : List α} {a : α}
    (h : l.Pairwise fun x y => x = y → P x) (ha : ¬ P a) : l.count a ≤ 1 := by
  induction l with
  | nil => simp
  | cons x rest ih =>
    obtain ⟨hx, hrest⟩ := List.pairwise_cons.mp h
    by_cases hxa : x = a
    · subst hxa
      have hnone : rest.count x = 0 :=
        List.count_eq_zero.mpr fun hmem => ha (hx x hmem rfl)
      simp [hnone]
    · rw [List.count_cons_of_ne hxa]
      exact ih hrest

/-! ## Rules and their roots -/

/-- A finding carries the id of its rule. -/
theorem Registry.rule_of_found {r : Rule} (hr : r ∈ builtIn) {c : Context} {found : List Finding}
    (hfound : r.check c t = .ok found) {f : Finding} (hf : f ∈ found) : f.rule = r.info.id := by
  rcases finds_builtIn hr with rfl | hfinds
  · cases hfound
    exact (Hygiene.mem_lockFile hf).1
  · exact (hfinds c t found hfound f hf).rule

/-- A rule that looks at a workspace is none of those for monorepos. -/
theorem Registry.mem_local {r : Rule} (hr : r ∈ builtIn) {kind : Kind}
    (hkind : kind = .frameworkApp ∨ kind = .generic) (happlies : r.info.applies kind = true) :
    r ∈ Registry.local := by
  have hmonorepo : ∀ r ∈ Monorepo.rules, r.info.applies .frameworkApp = false ∧
      r.info.applies .generic = false := by decide
  unfold builtIn at hr
  unfold Registry.local
  simp only [List.mem_append] at hr ⊢
  rcases hr with ((hr | hr) | hr) | hr
  · exact .inl (.inl hr)
  · obtain ⟨hframework, hgeneric⟩ := hmonorepo r hr
    rcases hkind with rfl | rfl
    · rw [hframework] at happlies
      cases happlies
    · rw [hgeneric] at happlies
      cases happlies
  · exact .inl (.inr hr)
  · exact .inr hr

/-- The rules that look at a monorepo as a whole and at its workspaces. -/
theorem Registry.shared {r : Rule} (hr : r ∈ builtIn) {kind : Kind}
    (hkind : kind = .frameworkApp ∨ kind = .generic) (happlies : r.info.applies kind = true)
    (hwhole : r.info.applies .monorepo = true) :
    r = Hygiene.SingleLockFile.rule ∨ r = Hygiene.NestedModules.rule ∨
      r = Hygiene.EngineVersion.rule ∨ r = Hygiene.GitIgnore.rule := by
  have hlocal := mem_local hr hkind happlies
  unfold Registry.local at hlocal
  have hothers : ∀ r ∈ Application.rules ++ DeadCode.rules, r.info.applies .monorepo = false := by
    decide
  simp only [List.mem_append] at hlocal hothers
  rcases hlocal with (h | h) | h
  · rw [hothers r (.inl h)] at hwhole
    cases hwhole
  · simp only [Hygiene.rules, List.mem_cons, List.not_mem_nil, or_false] at h
    rcases h with rfl | rfl | rfl | rfl | rfl | rfl | rfl
    · exact .inl rfl
    · exact .inr (.inl rfl)
    · cases hwhole
    · exact .inr (.inr (.inl rfl))
    · exact .inr (.inr (.inr rfl))
    · cases hwhole
    · cases hwhole
  · rw [hothers r (.inr h)] at hwhole
    cases hwhole

namespace Run

variable {project : Project} {filter : String} {root : Location} {p : Plan}

/-! ## Two scan roots -/

/-- Two scan roots of one run, in order. -/
inductive Beside (t : Tree) (project : Project) (filter : String) : ScanRoot → ScanRoot → Prop
  | whole {w : Workspace} (hw : w ∈ ScanRoot.selected project filter) {r : ScanRoot}
    (hr : ScanRoot.ofWorkspace t project w = .ok r) :
    Beside t project filter (.whole project .monorepo) r
  | workspaces {w w' : Workspace} (hw : w ∈ ScanRoot.selected project filter)
    (hw' : w' ∈ ScanRoot.selected project filter) (hne : w ≠ w') {r r' : ScanRoot}
    (hr : ScanRoot.ofWorkspace t project w = .ok r)
    (hr' : ScanRoot.ofWorkspace t project w' = .ok r') : Beside t project filter r r'

theorem beside_of_workspaces {ws : List Workspace} {rs : List ScanRoot}
    (hws : ws ⊆ ScanRoot.selected project filter) (hne : ws.Pairwise (· ≠ ·))
    (h : List.Forall₂ (fun w r => ScanRoot.ofWorkspace t project w = .ok r) ws rs) :
    rs.Pairwise (Beside t project filter) := by
  induction h with
  | nil => exact .nil
  | @cons w r ws rs hr hrest ih =>
    obtain ⟨hw, hws⟩ := List.cons_subset.mp hws
    obtain ⟨hfirst, hne⟩ := List.pairwise_cons.mp hne
    refine List.pairwise_cons.mpr ⟨fun r' hr' => ?_, ih hws hne⟩
    obtain ⟨w', hw', hof⟩ := Except.mem_of_mapM (Except.mapM_eq_ok.mpr hrest) hr'
    exact .workspaces hw (hws hw') (hfirst w' hw') hr hof

theorem beside_of_ofProject (hlisted : project.Listed) {roots : List ScanRoot}
    (h : ScanRoot.ofProject t project filter = .ok roots) :
    roots.Pairwise (Beside t project filter) := by
  unfold ScanRoot.ofProject at h
  split at h
  · cases h
    exact List.pairwise_singleton _ _
  · cases hfound : (ScanRoot.selected project filter).mapM (ScanRoot.ofWorkspace t project) with
    | error fault =>
      rw [hfound] at h
      cases h
    | ok found =>
      rw [hfound] at h
      cases h
      refine List.pairwise_cons.mpr ⟨fun r hr => ?_, ?_⟩
      · obtain ⟨w, hw, hof⟩ := Except.mem_of_mapM hfound hr
        exact .whole hw hof
      · have hne : (ScanRoot.selected project filter).Pairwise (· ≠ ·) :=
          (hlisted.filter _).imp fun hpath heq => hpath (by rw [heq])
        exact beside_of_workspaces (List.Subset.refl _) hne (Except.mapM_eq_ok.mp hfound)

/-! ## Places of findings -/

variable {d : Diagnosis} {r r' : ScanRoot} {rule rule' : Rule} {f g : Finding}
  {found found' : List Finding}

theorem base_ofWorkspace {w : Workspace} (hr : ScanRoot.ofWorkspace t project w = .ok r)
    (rules : List IgnoreRule) : (r.context rules).base = w.location := by
  rw [base_context, (steps_ofWorkspace hr).1]
  exact (Path.normalSteps_eq (Path.not_here_steps _)).symm

/-- The place of a finding that a report names is the one where its root has the file. -/
theorem Planned.placeOf_report (hp : Planned t root p) (hproject : d.project = p.project)
    (hr : IsRoot t p.project r) (rules : List IgnoreRule) (hf : Path.Inside f.file) :
    d.placeOf (r.report f) = (r.context rules).base ++ Path.steps f.file := by
  rw [hp.placeOf_eq hproject, ← Tree.lexical_of_plain hf.plain]
  exact hp.lexical_pathInProject hr rules hf.relative

/-- A workspace is an application or a plain package, and rules for those look inside of it. -/
theorem Planned.tells_ofWorkspace (hp : Planned t root p)
    (hkinds : ∀ w ∈ p.project.workspaceList, w.kind = .frameworkApp ∨ w.kind = .generic)
    {w : Workspace} (hw : w ∈ p.project.workspaceList)
    (hr : ScanRoot.ofWorkspace t p.project w = .ok r) (hrule : rule ∈ Registry.builtIn)
    (happlies : rule.info.applies r.kind = true) {c : Context}
    (hfound : rule.check c t = .ok found) : Told (fun f => Path.Inside f.file) found := by
  have hkind : r.kind = w.kind := by
    obtain ⟨-, _, -, rfl⟩ := ofWorkspace_eq_ok.mp hr
    rfl
  rw [hkind] at happlies
  exact tells_local rule (Registry.mem_local hrule (hkinds w hw) happlies) c t found
    hp.ordinary.named hfound

/-! ## One rule in one root -/

/-- In a root a rule finds nothing twice, if the names of the workspaces are clear. -/
theorem Planned.reported_apart (hp : Planned t root p) (hlisted : p.project.Listed)
    (hkinds : ∀ w ∈ p.project.workspaceList, w.kind = .frameworkApp ∨ w.kind = .generic)
    (hr : IsRoot t p.project r) (hrule : rule ∈ Registry.builtIn)
    (happlies : rule.info.applies r.kind = true)
    (hclear : rule.info.id = Monorepo.WorkspaceProtocol.info.id → p.project.Clear)
    {rules : List IgnoreRule} (hfound : rule.check (r.context rules) t = .ok found) :
    (found.map r.report).Pairwise fun f g => f.key ≠ g.key := by
  rw [List.pairwise_map]
  cases hr with
  | whole kind => exact (told_builtIn hp.ordinary.named hlisted hrule hclear hfound).apart
  | @workspace w hw r hof =>
    have htold := hp.tells_ofWorkspace hkinds hw hof hrule happlies hfound
    refine htold.apart.imp_of_mem fun {f g} hf hg hne heq => hne ?_
    -- the files are known by their places
    have hfile : f.file = g.file := by
      have hf := htold.each f hf
      have hg := htold.each g hg
      have hplace := hp.lexical_pathInProject (.workspace hw hof) rules hf.relative
      have hplace' := hp.lexical_pathInProject (.workspace hw hof) rules hg.relative
      have hsame : r.pathInProject f.file = r.pathInProject g.file := Finding.file_eq_of_key heq
      rw [hsame, hplace', Tree.lexical_of_plain hf.plain, Tree.lexical_of_plain hg.plain] at hplace
      exact hf.eq_of_steps hg (List.append_cancel_left hplace).symm
    have hsame : f.rule = g.rule := congrArg Finding.Key.rule heq
    have hline : f.line = g.line := congrArg Finding.Key.line heq
    have hmessage : f.message = g.message := congrArg Finding.Key.message heq
    unfold Finding.key
    rw [hfile, hsame, hline, hmessage]

/-! ## One rule in two roots -/

/-- What a rule finds in nested folders lies two steps deep. -/
theorem length_of_nested {c : Context} (hf : f ∈ Hygiene.NestedModules.check c t) :
    (Path.steps f.file).length = 2 := by
  have hfolders : ∀ folder ∈ Hygiene.NestedModules.folders, (Path.steps folder).length = 2 := by
    decide
  obtain ⟨folder, hfolder, rfl⟩ := List.mem_map.mp hf
  exact hfolders folder (List.mem_filter.mp hfolder).1

/-- What a rule finds in a monorepo as a whole and in a workspace lies equally deep. -/
theorem length_of_shared (hrule : rule ∈ Registry.builtIn) {kind : Kind}
    (hkind : kind = .frameworkApp ∨ kind = .generic) (happlies : rule.info.applies kind = true)
    (hwhole : rule.info.applies .monorepo = true) {c c' : Context} (hc : c'.isWorkspace = true)
    (hfound : rule.check c t = .ok found) (hfound' : rule.check c' t = .ok found') (hf : f ∈ found)
    (hg : g ∈ found') : (Path.steps f.file).length = (Path.steps g.file).length := by
  have hf := (Except.mem_of_mem_ok hfound).mp hf
  have hg := (Except.mem_of_mem_ok hfound').mp hg
  rcases Registry.shared hrule hkind happlies hwhole with rfl | rfl | rfl | rfl
  · -- the lock files of a workspace do not count
    have hg : g ∈ Hygiene.SingleLockFile.check c' t := Except.mem_ok_iff.mp hg
    unfold Hygiene.SingleLockFile.check at hg
    rw [if_pos hc] at hg
    cases hg
  · rw [length_of_nested (Except.mem_ok_iff.mp hf), length_of_nested (Except.mem_ok_iff.mp hg)]
  · obtain ⟨-, rfl⟩ := mem_engine_iff.mp hf
    obtain ⟨-, rfl⟩ := mem_engine_iff.mp hg
    rfl
  · have hnone := (mem_ignore_iff.mp (Except.mem_ok_iff.mp hg)).1
    rw [hc] at hnone
    cases hnone

/-- Findings of one rule in two scan roots that look the same are about a file in both. -/
theorem Planned.doubled_of_beside (hp : Planned t root p) (hproject : d.project = p.project)
    (hkinds : ∀ w ∈ p.project.workspaceList, w.kind = .frameworkApp ∨ w.kind = .generic)
    (hbeside : Beside t p.project filter r r') (hrule : rule ∈ Registry.builtIn)
    (happlies : rule.info.applies r.kind = true) (happlies' : rule.info.applies r'.kind = true)
    {rules : List IgnoreRule} (hfound : rule.check (r.context rules) t = .ok found)
    (hfound' : rule.check (r'.context rules) t = .ok found') (hf : f ∈ found) (hg : g ∈ found')
    (hkey : (r.report f).key = (r'.report g).key) : Doubled d filter (r.report f) := by
  have hplace : d.placeOf (r.report f) = d.placeOf (r'.report g) := by
    unfold Diagnosis.placeOf
    rw [Finding.file_eq_of_key hkey]
  have hselected : ScanRoot.selected d.project filter = ScanRoot.selected p.project filter := by
    rw [hproject]
  cases hbeside with
  | @workspaces w w' hw hw' hne r r' hr hr' =>
    have hmem := (List.mem_filter.mp hw).1
    have hmem' := (List.mem_filter.mp hw').1
    have hin := (hp.tells_ofWorkspace hkinds hmem hr hrule happlies hfound).each f hf
    have hin' := (hp.tells_ofWorkspace hkinds hmem' hr' hrule happlies' hfound').each g hg
    rw [← hselected] at hw hw'
    refine .nested hw hw' hne ⟨Path.steps f.file, ?_⟩ ⟨Path.steps g.file, ?_⟩
    · rw [hp.placeOf_report hproject (.workspace hmem hr) rules hin, base_ofWorkspace hr]
    · rw [hplace, hp.placeOf_report hproject (.workspace hmem' hr') rules hin',
        base_ofWorkspace hr']
  | @whole w hw r' hr' =>
    have hmem := (List.mem_filter.mp hw).1
    have hkind : r'.kind = w.kind := by
      obtain ⟨-, _, -, rfl⟩ := ofWorkspace_eq_ok.mp hr'
      rfl
    rw [hkind] at happlies'
    have hlocal := tells_local rule (Registry.mem_local hrule (hkinds w hmem) happlies')
    have hin := (hlocal _ t found hp.ordinary.named hfound).each f hf
    have hin' := (hlocal _ t found' hp.ordinary.named hfound').each g hg
    have hlength := length_of_shared hrule (hkinds w hmem) happlies' happlies
      (steps_ofWorkspace hr').2.1 hfound hfound' hf hg
    rw [hp.placeOf_report hproject (.whole .monorepo) rules hin, hp.base_whole,
      hp.placeOf_report hproject (.workspace hmem hr') rules hin', base_ofWorkspace hr'] at hplace
    rw [← hselected] at hw
    refine .here hw ?_
    rw [hproject, hp.steps]
    exact (List.append_inj_left' hplace hlength).symm

/-! ## All findings -/

/-- What a run of a plan reports about one of its scan roots. -/
def foundIn (p : Plan) (t : Tree) (r : ScanRoot) : List Finding :=
  (p.rules.filter fun rule => rule.info.applies r.kind).flatMap fun rule =>
    Outcome.reported ⟨r, rule, rule.check (r.context p.ignoreRules) t⟩

/-- A run reports what it finds root by root. -/
theorem findings_eq : findings (outcomes p t) = p.roots.flatMap (foundIn p t) := by
  unfold findings outcomes Plan.pairs foundIn
  rw [List.flatMap_map, List.flatMap_assoc]
  simp only [List.flatMap_map]

/-- What one outcome reports is told apart, but for a message that cannot be read. -/
theorem Planned.doubled_of_outcome (hp : Planned t root p) (hproject : d.project = p.project)
    (hlisted : p.project.Listed)
    (hkinds : ∀ w ∈ p.project.workspaceList, w.kind = .frameworkApp ∨ w.kind = .generic)
    (hr : IsRoot t p.project r) (hrule : rule ∈ Registry.builtIn)
    (happlies : rule.info.applies r.kind = true) {rules : List IgnoreRule} :
    (Outcome.reported ⟨r, rule, rule.check (r.context rules) t⟩).Pairwise
      fun f g => f.key = g.key → Doubled d filter f := by
  by_cases hclear : rule.info.id = Monorepo.WorkspaceProtocol.info.id → p.project.Clear
  · unfold Outcome.reported Outcome.findings
    dsimp only
    cases hfound : rule.check (r.context rules) t with
    | error fault => exact .nil
    | ok found =>
      have hapart := hp.reported_apart hlisted hkinds hr hrule happlies hclear hfound
      exact hapart.imp fun hne heq => absurd heq hne
  · -- the name of some workspace cannot be read from the messages
    obtain ⟨hid, hunclear⟩ := Classical.not_imp.mp hclear
    unfold Project.Clear at hunclear
    push Not at hunclear
    obtain ⟨w, hw, hname⟩ := hunclear
    rw [← hproject] at hw
    have hname : w.name.contains advice = true := eq_true_of_ne_false hname
    refine List.pairwise_of_forall_mem_list fun f hf _ _ _ => .unclear hw hname ?_
    obtain ⟨found, hfound, g, hg, rfl⟩ := mem_reported_iff.mp hf
    exact (Registry.rule_of_found hrule hfound hg).trans hid

/-- Findings that look the same are of one rule. -/
theorem Planned.id_of_key (hp : Planned t root p) (hrule : rule ∈ p.rules) (hrule' : rule' ∈ p.rules)
    {c c' : Context} (hfound : rule.check c t = .ok found) (hfound' : rule'.check c' t = .ok found')
    (hf : f ∈ found) (hg : g ∈ found') (hkey : (r.report f).key = (r'.report g).key) :
    rule.info.id = rule'.info.id := by
  have hsame : f.rule = g.rule := congrArg Finding.Key.rule hkey
  rw [← Registry.rule_of_found (hp.rules rule hrule) hfound hf, hsame,
    Registry.rule_of_found (hp.rules rule' hrule') hfound' hg]

theorem mem_foundIn (hf : f ∈ foundIn p t r) : ∃ rule ∈ p.rules, rule.info.applies r.kind = true ∧
    ∃ found, rule.check (r.context p.ignoreRules) t = .ok found ∧ ∃ g ∈ found, r.report g = f := by
  obtain ⟨rule, hrule, hf⟩ := List.mem_flatMap.mp hf
  obtain ⟨hrule, happlies⟩ := List.mem_filter.mp hrule
  exact ⟨rule, hrule, happlies, mem_reported_iff.mp hf⟩

/-- Findings of a run look the same only if they may be reported twice. -/
theorem doubled_of_key (ht : t.Ordinary) {current : List String} {path : String} {o : Options}
    (hplan : plan none t current path o = .ok p) (hproject : d.project = p.project) :
    (findings (outcomes p t)).Pairwise fun f g => f.key = g.key → Doubled d o.filter f := by
  obtain ⟨-, root, hroot, hdescribe, -, hroots, hrules⟩ := plan_eq_ok.mp hplan
  obtain ⟨root', hroot', hp⟩ := planned_of_plan ht hplan
  obtain rfl : root = root' := Except.ok.inj (hroot.symm.trans hroot')
  have hsteps := Project.steps_of_folder ht hp.folder
  have hlisted := Project.listed ht.named hsteps hdescribe
  have hkinds := fun w hw => Project.kind_workspace ht.named hsteps hdescribe (w := w) hw
  have hids : p.rules.Pairwise fun rule rule' => rule.info.id ≠ rule'.info.id := by
    rw [hrules]
    exact List.pairwise_map.mp (Registry.id_nodup_choose _ _)
  rw [findings_eq]
  refine List.pairwise_flatMap.mpr ⟨fun r hr => ?_, (beside_of_ofProject hlisted hroots).imp ?_⟩
  · refine List.pairwise_flatMap.mpr ⟨fun rule hrule => ?_, (hids.filter _).imp_of_mem ?_⟩
    · obtain ⟨hrule, happlies⟩ := List.mem_filter.mp hrule
      exact hp.doubled_of_outcome hproject hlisted hkinds (hp.roots r hr) (hp.rules rule hrule)
        happlies
    · intro rule rule' hrule hrule' hne f hf g hg hkey
      obtain ⟨found, hfound, f, hmem, rfl⟩ := mem_reported_iff.mp hf
      obtain ⟨found', hfound', g, hmem', rfl⟩ := mem_reported_iff.mp hg
      exact absurd (hp.id_of_key (List.mem_filter.mp hrule).1 (List.mem_filter.mp hrule').1 hfound
        hfound' hmem hmem' hkey) hne
  · intro r r' hbeside f hf g hg hkey
    obtain ⟨rule, hrule, happlies, found, hfound, f, hmem, rfl⟩ := mem_foundIn hf
    obtain ⟨rule', hrule', happlies', found', hfound', g, hmem', rfl⟩ := mem_foundIn hg
    have hid := hp.id_of_key hrule hrule' hfound hfound' hmem hmem' hkey
    have hrule := hp.rules rule hrule
    obtain rfl := Registry.eq_of_id hrule (hp.rules rule' hrule') hid
    exact hp.doubled_of_beside hproject hkinds hbeside hrule happlies happlies' hfound hfound' hmem
      hmem' hkey

theorem exists_run {current : List String} {path : String} {o : Options}
    (hplan : plan none t current path o = .ok p) : ∃ d t', run none t current path o = (.ok d, t') ∧
      d.project = p.project ∧ d.findings = findings (outcomes p t) :=
  ⟨_, _, run_eq_ok.mpr ⟨p, hplan, rfl, rfl⟩, rfl, rfl⟩

/-- In a tree without links a run reports every finding once, and charges it once to the score,
unless its file lies in two of the workspaces, a workspace lies in the directory of the project, or
its message cannot be read. -/
theorem findings_apart (ht : t.Ordinary) {t' : Tree} {current : List String} {path : String}
    {o : Options} (h : run none t current path o = (.ok d, t')) :
    d.score = Score.ofFindings d.findings ∧
      ∀ f ∈ d.findings, ¬ Doubled d o.filter f → (d.findings.map Finding.key).count f.key = 1 := by
  obtain ⟨p, hplan, hd, -⟩ := run_eq_ok.mp h
  have hproject : d.project = p.project := by rw [hd]; rfl
  have hfindings : d.findings = findings (outcomes p t) := by rw [hd]; rfl
  have hpairs := doubled_of_key ht hplan hproject
  rw [← hfindings] at hpairs
  refine ⟨by rw [hd]; rfl, fun f hf hnot => ?_⟩
  have hkeys : (d.findings.map Finding.key).Pairwise fun k k' => k = k' →
      ∃ g ∈ d.findings, g.key = k ∧ Doubled d o.filter g := by
    rw [List.pairwise_map]
    exact hpairs.imp_of_mem fun {g g'} hg _ himp heq => ⟨g, hg, rfl, himp heq⟩
  have hle := count_le_one hkeys (a := f.key) fun ⟨g, _, hkey, hg⟩ => hnot (hg.congr hkey)
  have hpos := List.count_pos_iff.mpr (List.mem_map_of_mem (f := Finding.key) hf)
  omega

/-! ## A workspace in a workspace -/

/-- A monorepo with two applications, one of which lies in the source folder of the other. -/
def layoutTree : Tree := ⟨[(["r"], .folder),
  (["r", "package.json"], .file "\x7b\"workspaces\":[\"a\",\"a/src\"]\x7d".toUTF8),
  (["r", "a"], .folder),
  (["r", "a", "package.json"], .file "\x7b\"dependencies\":\x7b\"next\":\"1\"\x7d\x7d".toUTF8),
  (["r", "a", "src"], .folder),
  (["r", "a", "src", "package.json"], .file
    "\x7b\"dependencies\":\x7b\"next\":\"1\"\x7d\x7d".toUTF8),
  (["r", "a", "src", "app"], .folder),
  (["r", "a", "src", "app", "layout.tsx"], .file "<body>".toUTF8)]⟩

theorem ordinary_layoutTree : layoutTree.Ordinary := Tree.ordinary_of_entries (by decide)

/-- A run of the rules on applications in the workspaces that a filter selects. -/
def layoutOptions (filter : String) : Options := { category := some "nextjs", filter := filter }

def outerWorkspace : Workspace := ⟨"a", "a", "/r/a", .frameworkApp, true⟩

def innerWorkspace : Workspace := ⟨"src", "a/src", "/r/a/src", .frameworkApp, true⟩

/-- The monorepo, as it is described. -/
def layoutProject : Project := ⟨.generic, "r", "/r", .unknown, true, false, none,
  some [outerWorkspace, innerWorkspace], none, none, none⟩

/-- The scan root of one of the applications. -/
def layoutRoot (w : Workspace) : ScanRoot := ⟨Path.steps w.absolutePath, { layoutProject with
  kind := .frameworkApp, name := w.name, root := w.absolutePath, isMonorepo := false,
  workspaces := none, frameworkVersion := some "1" }, .frameworkApp, true, w.path⟩

/-- The plan of a run in some of the applications. -/
def layoutPlan (ws : List Workspace) : Plan := ⟨layoutProject, .unset ["r"], none,
  .whole layoutProject .monorepo :: ws.map layoutRoot, Application.rules⟩

/-- What the run finds wrong with the layout. -/
def layoutFinding : Finding :=
  Application.LayoutTags.info.finding "a/src/app/layout.tsx" "Root layout missing <html> tag"

/-- The run in a tree that is described as the monorepo. -/
theorem plan_layoutProject {filter : String} {ws : List Workspace}
    (hroot : Project.rootOf t [] "/r" = .ok ["r"])
    (hdescribe : Project.describe t ["r"] = .ok layoutProject)
    (hsettings : settingsOf t layoutProject = .ok (.unset ["r"], none))
    (hroots : ScanRoot.ofProject t layoutProject filter = .ok (layoutPlan ws).roots) :
    plan none t [] "/r" (layoutOptions filter) = .ok (layoutPlan ws) := by
  have hrules : Registry.chosen (choice (layoutOptions "") (.unset ["r"])) = Application.rules := rfl
  refine plan_eq_ok.mpr ⟨fun name h => ?_, ["r"], hroot, hdescribe, hsettings, hroots, hrules.symm⟩
  cases h
  decide

theorem plan_layoutTree {filter : String} {ws : List Workspace}
    (hroots : ScanRoot.ofProject layoutTree layoutProject filter = .ok (layoutPlan ws).roots) :
    plan none layoutTree [] "/r" (layoutOptions filter) = .ok (layoutPlan ws) :=
  plan_layoutProject (by decide +kernel) (by decide +kernel) (by decide +kernel) hroots

/-- Both applications have the layout among their own. -/
theorem reported_layoutFinding {w : Workspace} (hw : w ∈ [outerWorkspace, innerWorkspace])
    (rules : List IgnoreRule) : layoutFinding ∈ Outcome.reported ⟨layoutRoot w,
      Application.LayoutTags.rule,
      Application.LayoutTags.rule.check ((layoutRoot w).context rules) layoutTree⟩ := by
  have hall : ∀ w ∈ [outerWorkspace, innerWorkspace], layoutFinding ∈
      (Application.LayoutTags.check ((layoutRoot w).context []) layoutTree).map
        (layoutRoot w).report := by decide +kernel
  exact hall w hw

theorem mem_layoutFinding {w : Workspace} (hw : w ∈ [outerWorkspace, innerWorkspace])
    (ws : List Workspace) : layoutFinding ∈ foundIn (layoutPlan ws) layoutTree (layoutRoot w) :=
  List.mem_flatMap.mpr ⟨Application.LayoutTags.rule, List.mem_filter.mpr
    ⟨List.mem_of_getElem? (i := 1) rfl, rfl⟩, reported_layoutFinding hw _⟩

/-- A run in the inner application alone reports its layout once. -/
theorem findings_apart_layoutTree : layoutTree.Ordinary ∧ ∃ d t',
    run none layoutTree [] "/r" (layoutOptions "src") = (.ok d, t') ∧ layoutFinding ∈ d.findings ∧
      ¬ Doubled d "src" layoutFinding ∧
      (d.findings.map Finding.key).count layoutFinding.key = 1 := by
  have hroots : ScanRoot.ofProject layoutTree layoutProject "src" =
      .ok (layoutPlan [innerWorkspace]).roots := by decide +kernel
  obtain ⟨d, t', hrun, hproject, hfindings⟩ := exists_run (plan_layoutTree hroots)
  have hselected : ScanRoot.selected d.project "src" = [innerWorkspace] := by
    rw [hproject]
    decide +kernel
  have hlocation : innerWorkspace.location ≠ Path.steps d.project.root := by
    rw [hproject]
    decide +kernel
  have hmem : layoutFinding ∈ d.findings := by
    rw [hfindings, findings_eq]
    exact List.mem_flatMap.mpr ⟨layoutRoot innerWorkspace, List.mem_cons_of_mem _
      (List.mem_singleton_self _), mem_layoutFinding (by decide) _⟩
  have hnot : ¬ Doubled d "src" layoutFinding := by
    intro h
    cases h with
    | nested hw hw' hne =>
      rw [hselected, List.mem_singleton] at hw hw'
      exact hne (hw.trans hw'.symm)
    | here hw h =>
      rw [hselected, List.mem_singleton] at hw
      exact hlocation (hw ▸ h)
    | unclear _ _ hrule => exact absurd hrule (by decide)
  exact ⟨ordinary_layoutTree, d, t', hrun, hmem, hnot,
    (findings_apart ordinary_layoutTree hrun).2 layoutFinding hmem hnot⟩

/-- A run in both applications reports the layout twice. -/
theorem findings_twice : layoutTree.Ordinary ∧ ∃ d t',
    run none layoutTree [] "/r" (layoutOptions "") = (.ok d, t') ∧
      ¬ (d.findings.map Finding.key).Nodup := by
  have hroots : ScanRoot.ofProject layoutTree layoutProject "" =
      .ok (layoutPlan [outerWorkspace, innerWorkspace]).roots := by decide +kernel
  obtain ⟨d, t', hrun, hproject, hfindings⟩ := exists_run (plan_layoutTree hroots)
  refine ⟨ordinary_layoutTree, d, t', hrun, fun hnodup => ?_⟩
  -- the two scan roots come one after the other, each with its own findings
  rw [hfindings, findings_eq, List.nodup_iff_pairwise_ne, List.pairwise_map] at hnodup
  have hroots := List.Pairwise.of_cons (List.pairwise_flatMap.mp hnodup).2
  have hpair := List.rel_of_pairwise_cons hroots (List.mem_singleton_self (layoutRoot innerWorkspace))
  exact hpair _ (mem_layoutFinding (by decide) _) _ (mem_layoutFinding (by decide) _) rfl

end Run

end Checkup
