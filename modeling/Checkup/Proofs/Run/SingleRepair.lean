import Checkup.Proofs.Project.Listing
import Checkup.Proofs.Run.Idempotence
import Checkup.Proofs.Run.Outstanding

/-!
# The repair of a single finding

A finding of a rule with a repair asks for an amendment of one file. If the amendment is written, a
second check has only findings of the first one, and this finding is not among them, since it would ask
for the same amendment again. For the same reason a second repair has nothing to do.

* `Asks.repair_cases`: the amendment is written, or the repair fails.
* `Project.legible_of_blankless`: names of workspaces without blanks can be read off messages.
* `RepairsOnce`: what a repair does away with, what a second one does, and what one that does nothing
  leaves behind; `repair_once`: this holds in every context of a run.
-/

namespace Checkup

variable {E : Edits} {c : Context} {t t' : Tree} {rule : Rule} {f : Finding} {l : Location}
  {a : Amendment}

/-! ## One amendment -/

/-- The tree is another one in which an amendment was written. -/
structure Written (t : Tree) (l : Location) (a : Amendment) (t' : Tree) : Prop where
  ordinary : t'.Ordinary
  writable : t.Writable l
  step : ∃ s, a.apply (t.content l) = some s ∧ t' = t.put l (.file s.toUTF8) ∧ t'.content l = some s

/-- What was written asks for no more of it. -/
theorem Written.done (h : Written t l a t') : a.apply (t'.content l) = none := by
  obtain ⟨s, hs, -, hcontent⟩ := h.step
  rw [hcontent]
  exact Amendment.apply_done hs

theorem Written.not_refuses (h : Written t l a t') : ¬ a.Refuses (t'.content l) := by
  obtain ⟨s, hs, -, hcontent⟩ := h.step
  rw [hcontent]
  exact Amendment.not_refuses_apply hs

theorem Written.amended (h : Written t l a t') (hl : E l a) : Amended E t t' := by
  obtain ⟨s, hs, rfl, -⟩ := h.step
  exact .step .refl hl h.writable hs

namespace Asks

/-- The amendment is written, or the place for ignored paths is taken. -/
theorem repair_cases (h : Asks c t rule f l a) (ht : t.Ordinary) (hE : Aimed E t) (hl : E l a) :
    (∃ t', rule.repair c t f = (.ok true, t') ∧ Written t l a t') ∨
      (a.ruleId = Hygiene.GitIgnore.info.id ∧ ∃ fault, rule.repair c t f = (.error fault, t)) := by
  obtain ⟨s, hs⟩ := h.exists_apply
  rw [h.repairs.repair_eq]
  by_cases hw : t.Writable l
  · exact .inl ⟨_, Context.rewrite_of_writable ht h.place (hE.ne_nil hl) hw hs,
      (hE.grown_put ht hl hw hs).new, hw, s, hs, rfl, hE.content_put ht hl hw hs⟩
  · have hcomplaint := h.complaint c.project.kind fun _ => rfl
    have hsettled : Settled t l a := fun _ _ => hw
    obtain ⟨fault, hfault⟩ :=
      Context.rewrite_of_not_writable ht h.place (hE.folder ht hl hs) hw hs
    exact .inr ⟨(hcomplaint.of_settled ht (hE.plain hl) hsettled).1, _, hfault⟩

/-- Once the amendment is written, the finding is not found again. -/
theorem not_mem_of_written (h : Asks c t rule f l a) (hw : Written t l a t')
    (hlegible : c.project.Legible) (hrule : rule ∈ Registry.fixing) {found : List Finding}
    (hcheck : rule.check c t' = .ok found) : f ∉ found := by
  intro hf
  obtain ⟨l', a', h'⟩ := exists_asks hw.ordinary hlegible hrule hcheck hf
  obtain ⟨rfl, rfl⟩ := h.unique h'
  obtain ⟨s, hs⟩ := h'.exists_apply
  rw [hw.done] at hs
  cases hs

/-- Once the amendment is written, a second repair has nothing to do. -/
theorem repair_of_written (h : Asks c t rule f l a) (hw : Written t l a t') :
    rule.repair c t' f = (.ok false, t') := by
  rw [h.repairs.repair_eq, Context.rewrite_of_place hw.ordinary h.place, if_neg hw.not_refuses, hw.done]
  rfl

end Asks

/-! ## Checks after amendments -/

/-- A file of JSON is as readable as before amendments. -/
theorem Context.isTooDeep_amended (hE : Aimed E t) (ht : t.Ordinary) (h : Amended E t t')
    {path name : String} (hplace : c.place path = .ok l) (hlast : l.getLast? = some name)
    (hname : name = "package.json" ∨ name = "tsconfig.json") :
    c.IsTooDeep t' path ↔ c.IsTooDeep t path := by
  unfold Context.IsTooDeep
  rw [readText?_of_place ht hplace, readText?_of_place (h.grown hE ht).new hplace]
  exact (h.content hE ht (plain_place hplace)).tooDeepIn_iff fun _ ha =>
    Amendment.isOfJson_of_suits hname (hE.suits_last hlast ha)

/-- The workspaces' manifests can be loaded after amendments. -/
theorem Run.Planned.shallow_amended {root : Location} {p : Plan} (hp : Planned t root p)
    {r : ScanRoot} (hr : IsRoot t p.project r) (hE : Aimed E t) (h : Amended E t t')
    (rules : List IgnoreRule) {w : Workspace} (hw : w ∈ Monorepo.workspaces (r.context rules)) :
    ¬ (r.context rules).IsTooDeep t' (Monorepo.fileIn w "package.json") := by
  have hbefore := hp.shallow_fileIn hr rules hw
  obtain ⟨hw, kind, rfl⟩ := hr.whole_of_mem hw
  cases hplace : ((ScanRoot.whole p.project kind).context rules).place
      (Monorepo.fileIn w "package.json") with
  | error fault =>
    unfold Context.IsTooDeep
    rw [Context.readText?_eq (h.grown hE hp.ordinary).new, hplace]
    rintro ⟨_, htext, -⟩
    cases htext
  | ok l =>
    have hlast : l.getLast? = some "package.json" := by
      rw [place_manifest (hp.located w hw) (hp.base_whole kind rules) hplace, List.getLast?_concat]
    exact mt (Context.isTooDeep_amended hE hp.ordinary h hplace hlast (.inl rfl)).mp hbefore

/-- A check of a rule with a repair that comes to a result does so after amendments. -/
theorem Run.Planned.check_amended {root : Location} {p : Plan} (hp : Planned t root p) {r : ScanRoot}
    (hr : IsRoot t p.project r) (hE : Aimed E t) (h : Amended E t t') {rules : List IgnoreRule}
    (hrule : rule ∈ Registry.fixing) (hcheck : (rule.check (r.context rules) t).Returns) :
    (rule.check (r.context rules) t').Returns := by
  unfold Registry.fixing at hrule
  simp only [List.mem_cons, List.not_mem_nil, or_false] at hrule
  rcases hrule with rfl | rfl | rfl | rfl | rfl
  · exact ⟨_, rfl⟩
  · have hread : ∀ w ∈ r.project.workspaceList, (Rule.findingsIn (r.context rules) t'
        (Monorepo.fileIn w Manifest.fileName) (Monorepo.WorkspaceProtocol.findings (r.context rules)
          (Monorepo.fileIn w Manifest.fileName))).Returns := fun w hw =>
      Rule.findingsIn_returns.mpr (hp.shallow_amended hr hE h rules hw)
    obtain ⟨lists, hlists⟩ := Except.returns_mapM.mpr hread
    exact ⟨lists.flatten, congrArg (Except.map List.flatten) hlists⟩
  · have hsame := Context.isTooDeep_amended hE hp.ordinary h
      (Context.place_name isName_tsconfig (by decide) (r.context rules)) List.getLast?_concat (.inr rfl)
    have hcheck : (Hygiene.StrictTyping.check (r.context rules) t).Returns := hcheck
    show (Hygiene.StrictTyping.check (r.context rules) t').Returns
    unfold Hygiene.StrictTyping.check at hcheck ⊢
    split at hcheck
    · rw [if_pos ‹_›]
      exact ⟨_, rfl⟩
    · rw [if_neg ‹_›]
      exact Rule.findingsIn_returns.mpr (mt hsame.mp (Rule.findingsIn_returns.mp hcheck))
  · have hsame := Context.isTooDeep_amended hE hp.ordinary h
      (Context.place_name isName_package (by decide) (r.context rules)) List.getLast?_concat (.inl rfl)
    exact Rule.findingsIn_returns.mpr (mt hsame.mp (Rule.findingsIn_returns.mp hcheck))
  · exact ⟨_, rfl⟩

/-- A repair that does nothing leaves the tree as it is, whatever the tree and the finding. -/
theorem tree_of_idle (hrule : rule ∈ Registry.fixing) (h : rule.repair c t f = (.ok false, t')) :
    t' = t := by
  rcases repairs_or_idle (c := c) hrule f with ⟨file, a, hrepairs⟩ | hidle
  · rw [hrepairs.repair_eq] at h
    unfold Context.rewrite at h
    split at h
    · cases h
    · split at h
      · cases h
        rfl
      · unfold Repair.ofWrite at h
        split at h
        · cases h
        · cases h
  · rw [hidle] at h
    cases h
    rfl

/-! ## Repairs in the contexts of a run -/

/-- What a rule with a repair is to do about a finding of its check. -/
structure RepairsOnce (c : Context) (t : Tree) (rule : Rule) (found : List Finding) (f : Finding) :
    Prop where
  /-- A repair that succeeds does away with the finding, and brings up no other one. -/
  gone : ∀ t', rule.repair c t f = (.ok true, t') →
    ∃ found', rule.check c t' = .ok found' ∧ f ∉ found' ∧ ∀ g ∈ found', g ∈ found
  /-- A second repair has nothing to do. -/
  again : ∀ b t', rule.repair c t f = (.ok b, t') → rule.repair c t' f = (.ok false, t')
  /-- A repair that has nothing to do leaves the tree as it is, whatever the tree and the finding. -/
  idle : ∀ u g u', rule.repair c u g = (.ok false, u') → u' = u
  /-- A repair succeeds, but for one of ignored paths, which can fail and changes nothing then. -/
  done : (∃ t', rule.repair c t f = (.ok true, t')) ∨
    (f.rule = Hygiene.GitIgnore.info.id ∧ ∃ fault, rule.repair c t f = (.error fault, t))

/-- The workspaces of a project have names that can be read off messages, if these hold no blanks. -/
theorem Project.legible_of_blankless {root : Location} {project : Project} (ht : t.Named)
    (hroot : Workspaces.Steps root) (h : Project.describe t root = .ok project)
    (hblank : ∀ w ∈ project.workspaceList, ∀ ch ∈ w.name.nearest.toList, Text.isBlank ch = false) :
    project.Legible :=
  fun w hw => ⟨(Project.workspaces_found ht hroot h hw).name_ne_empty, hblank w hw⟩

namespace Run

variable {root : Location} {current : List String} {path : String} {o : Options} {p : Plan}
  {r : ScanRoot} {found : List Finding}

theorem Planned.repairsOnce (hp : Planned t root p) (hlegible : p.project.Legible) (hr : r ∈ p.roots)
    (hrule : rule ∈ Registry.fixing) (hcheck : rule.check (r.context p.ignoreRules) t = .ok found)
    (hf : f ∈ found) : RepairsOnce (r.context p.ignoreRules) t rule found f := by
  have hroot := hp.roots r hr
  have hlegible : (r.context p.ignoreRules).project.Legible := hroot.legible hlegible
  obtain ⟨l, a, hasks⟩ := exists_asks hp.ordinary hlegible hrule hcheck hf
  have hE := aimed_target hp [r.report f]
  have hl : Target root p.project [r.report f] l a :=
    target_of_found hp hroot hcheck hf (List.mem_singleton_self _) ⟨f.file, hasks.repairs, hasks.place⟩
  have hidle : ∀ u g u', rule.repair (r.context p.ignoreRules) u g = (.ok false, u') → u' = u :=
    fun _ _ _ h => tree_of_idle hrule h
  rcases hasks.repair_cases hp.ordinary hE hl with ⟨t', hrepair, hwritten⟩ | ⟨hid, fault, hfault⟩
  · refine ⟨fun _ h => ?_, fun _ _ h => ?_, hidle, .inl ⟨t', hrepair⟩⟩
    · rw [hrepair] at h
      cases h
      obtain ⟨found', hcheck'⟩ :=
        hp.check_amended hroot hE (hwritten.amended hl) hrule ⟨found, hcheck⟩
      refine ⟨found', hcheck', hasks.not_mem_of_written hwritten hlegible hrule hcheck', fun g hg => ?_⟩
      obtain ⟨before, hbefore, hmem⟩ :=
        hp.found_before hroot (.refl _) (hwritten.amended hl) hrule hcheck' hg
      rw [hcheck] at hbefore
      cases hbefore
      exact hmem
    · rw [hrepair] at h
      cases h
      exact hasks.repair_of_written hwritten
  · refine ⟨fun _ h => ?_, fun _ _ h => ?_, hidle, .inr ⟨hasks.rule.symm.trans hid, fault, hfault⟩⟩
    all_goals
      rw [hfault] at h
      cases h

/-- In every context of a run, a rule with a repair does away with what it finds, once. -/
theorem repair_once (ht : t.Ordinary) {given : Option (List Rule)}
    (hplan : plan given t current path o = .ok p)
    (hblank : ∀ w ∈ p.project.workspaceList, ∀ ch ∈ w.name.nearest.toList, Text.isBlank ch = false)
    (hr : r ∈ p.roots) (hrule : rule ∈ Registry.fixing)
    (hcheck : rule.check (r.context p.ignoreRules) t = .ok found) (hf : f ∈ found) :
    RepairsOnce (r.context p.ignoreRules) t rule found f := by
  have hplan := plan_none_of_plan hplan
  obtain ⟨-, root, hroot, hdescribe, -⟩ := plan_eq_ok.mp hplan
  have hsteps := Project.steps_of_folder ht (Project.folder_of_rootOf ht hroot)
  have hlegible := Project.legible_of_blankless ht.named hsteps hdescribe hblank
  obtain ⟨_, -, hp⟩ := planned_of_plan ht hplan
  exact hp.repairsOnce hlegible hr hrule hcheck hf

/-! ## A package that depends on another one -/

/-- A monorepo of two packages, one of which depends on a version of the other. -/
def dependentTree : Tree :=
  ⟨[(["r"], .folder), (["r", "package.json"], .file "\x7b\"workspaces\":[\"a\",\"b\"]\x7d".toUTF8),
    (["r", "a"], .folder), (["r", "b"], .folder),
    (["r", "b", "package.json"], .file "\x7b\"dependencies\":\x7b\"a\":\"1\"\x7d\x7d".toUTF8)]⟩

theorem ordinary_dependentTree : dependentTree.Ordinary := Tree.ordinary_of_entries (by decide)

/-- The package that depends on the other one. -/
def dependentPackage : Workspace := ⟨"b", "b", "/r/b", .generic, true⟩

/-- The monorepo, as it is described. -/
def dependentProject : Project :=
  ⟨.generic, "r", "/r", .unknown, true, false, none,
    some [⟨"a", "a", "/r/a", .generic, false⟩, dependentPackage], none, none, none⟩

/-- The plan of a run that leaves the packages out. -/
def dependentPlan : Plan :=
  ⟨dependentProject, .unset ["r"], none, [.whole dependentProject .monorepo], Monorepo.rules⟩

/-- The options of the run. -/
def dependentOptions : Options := { category := some "turbo", filter := "none" }

theorem plan_dependentTree : plan none dependentTree [] "/r" dependentOptions = .ok dependentPlan := by
  refine plan_eq_ok.mpr ⟨fun name h => ?_, ["r"], ?_⟩
  · cases h
    decide
  · exact ⟨by decide +kernel, by decide +kernel, by decide +kernel, by decide +kernel, rfl⟩

/-- The root of the scan. -/
def dependentRoot : ScanRoot := .whole dependentProject .monorepo

/-- The context of the scan. -/
def dependentContext : Context := dependentRoot.context dependentPlan.ignoreRules

/-- What is wrong with the version. -/
def dependentFinding : Finding := plainDependency dependentPackage "a" "1"

/-- The version is repaired and not found again, and a second repair has nothing to do. -/
theorem repair_once_dependentTree : ∃ t',
    Monorepo.WorkspaceProtocol.rule.repair dependentContext dependentTree dependentFinding =
      (.ok true, t') ∧
    (∃ found, Monorepo.WorkspaceProtocol.rule.check dependentContext t' = .ok found ∧
      dependentFinding ∉ found) ∧
    Monorepo.WorkspaceProtocol.rule.repair dependentContext t' dependentFinding = (.ok false, t') := by
  have hr : dependentRoot ∈ dependentPlan.roots := List.mem_singleton_self _
  have hrule : Monorepo.WorkspaceProtocol.rule ∈ Registry.fixing :=
    List.mem_cons_of_mem _ (List.mem_cons_self ..)
  have hblank : ∀ w ∈ dependentPlan.project.workspaceList, ∀ ch ∈ w.name.nearest.toList,
      Text.isBlank ch = false := by
    have hall : ∀ w ∈ dependentPlan.project.workspaceList,
        w.name.nearest.toList.all (!Text.isBlank ·) = true := by decide
    intro w hw ch hch
    exact (Bool.not_eq_true' _).mp (List.all_eq_true.mp (hall w hw) ch hch)
  have hfound : dependentFinding ∈ Monorepo.WorkspaceProtocol.rule.check dependentContext
      dependentTree := by decide +kernel
  obtain ⟨found, hcheck, hf⟩ := hfound
  have hother : dependentFinding.rule ≠ Hygiene.GitIgnore.info.id := by decide +kernel
  unfold dependentContext at hcheck ⊢
  have honce := repair_once ordinary_dependentTree plan_dependentTree hblank hr hrule hcheck hf
  obtain ⟨t', hrepair⟩ := honce.done.resolve_right fun h => hother h.1
  obtain ⟨found', hcheck', hnot, -⟩ := honce.gone t' hrepair
  exact ⟨t', hrepair, ⟨found', hcheck', hnot⟩, honce.again true t' hrepair⟩

end Run

end Checkup
