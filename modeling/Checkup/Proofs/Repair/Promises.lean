import Checkup.Proofs.Scan.Reading
import Checkup.Rule.Registry

/-!
# What findings promise

A finding carries the id of its rule and may say that it can be repaired. The rules whose findings
say so have a repair, with one exception: no rule deletes the lock files that are too many, although
the finding about them says that it can be repaired.

* `Reports`: findings of one rule, all of which say that they can be repaired, or none of which does.
* `finds_builtIn`: which of the two the built-in rules find.
-/

namespace Checkup

/-- The finding is one of a rule, and says whether it can be repaired. -/
structure Finding.IsOf (info : RuleInfo) (fixable : Bool) (f : Finding) : Prop where
  rule : f.rule = info.id
  fixable : f.fixable = fixable

/-- Findings of a rule that all say whether they can be repaired. -/
def Reports (info : RuleInfo) (fixable : Bool) (fs : List Finding) : Prop :=
  ∀ f ∈ fs, f.IsOf info fixable

/-- What a rule finds, whatever it checks. -/
def Rule.Finds (r : Rule) (fixable : Bool) : Prop :=
  ∀ c t found, r.check c t = .ok found → Reports r.info fixable found

variable {info : RuleInfo} {b : Bool} {f : Finding} {fs : List Finding}

namespace Finding.IsOf

theorem remark (info : RuleInfo) (file : String) (message : Label) :
    (info.remark file message).IsOf info false := ⟨rfl, rfl⟩

theorem finding (info : RuleInfo) (file message : String) :
    (info.finding file message).IsOf info false := remark info file message

theorem atLine (h : f.IsOf info b) (line : Nat) : (f.atLine line).IsOf info b := ⟨h.rule, h.fixable⟩

theorem asFixable (h : f.IsOf info b) : f.asFixable.IsOf info true := ⟨h.rule, rfl⟩

theorem withHelp (h : f.IsOf info b) (help : Label) : (f.withHelp help).IsOf info b := by
  unfold Finding.withHelp
  split
  · exact h
  · exact ⟨h.rule, h.fixable⟩

end Finding.IsOf

namespace Reports

theorem none : Reports info b [] := by
  intro f hf
  cases hf

theorem one (h : f.IsOf info b) : Reports info b [f] := by
  intro g hg
  obtain rfl := List.mem_singleton.mp hg
  exact h

theorem plain (file message : String) : Reports info false [info.finding file message] :=
  one (.finding info file message)

theorem atLine (file message : String) (line : Nat) :
    Reports info false [(info.finding file message).atLine line] :=
  one ((Finding.IsOf.finding info file message).atLine line)

theorem asFixable (file : String) (message : Label) :
    Reports info true [(info.remark file message).asFixable] :=
  one (Finding.IsOf.remark info file message).asFixable

theorem append {gs : List Finding} (hf : Reports info b fs) (hg : Reports info b gs) :
    Reports info b (fs ++ gs) := by
  intro f h
  rcases List.mem_append.mp h with h | h
  · exact hf f h
  · exact hg f h

theorem flatMap {α : Type} {l : List α} {g : α → List Finding} (h : ∀ a, Reports info b (g a)) :
    Reports info b (l.flatMap g) := by
  intro f hf
  obtain ⟨a, -, hf⟩ := List.mem_flatMap.mp hf
  exact h a f hf

theorem map {α : Type} {l : List α} {g : α → Finding} (h : ∀ a, (g a).IsOf info b) :
    Reports info b (l.map g) := by
  intro f hf
  obtain ⟨a, -, rfl⟩ := List.mem_map.mp hf
  exact h a

end Reports

theorem Rule.finds_ofCheck {check : Context → Tree → List Finding}
    (h : ∀ c t, Reports info b (check c t)) : (Rule.ofCheck info check).Finds b := by
  intro c t found hfound
  cases hfound
  exact h c t

/-- What is found by way of a JSON file is what is found in its members. -/
theorem reports_findingsIn {c : Context} {t : Tree} {path : String}
    {findings : Json.Members → List Finding} (h : ∀ members, Reports info b (findings members))
    (hfs : Rule.findingsIn c t path findings = .ok fs) : Reports info b fs := by
  intro f hf
  obtain ⟨members, -, hf⟩ := Rule.mem_findingsIn_iff.mp ((Except.mem_of_mem_ok hfs).mp hf)
  exact h members f hf

theorem Rule.Finds.withFix {r : Rule} (h : r.Finds b) (fix : Context → Tree → Finding → Repair) :
    (r.withFix fix).Finds b := h

/-! ## Applications -/

namespace Application

theorem reports_forFiles {p : Pattern} {report : String → String → List Finding}
    (h : ∀ path text, Reports info b (report path text)) (c : Context) (t : Tree) :
    Reports info b (forFiles p report c t) := by
  unfold forFiles
  refine .flatMap fun path => ?_
  split
  · exact .none
  · exact h path _

theorem reports_forLines {text : String} {report : Nat → List Char → List Finding}
    (h : ∀ number line, Reports info b (report number line)) :
    Reports info b (forLines text report) := by
  unfold forLines
  exact .flatMap fun (number, line) => h number line

theorem finds_rootLayout : RootLayout.rule.Finds false := by
  refine Rule.finds_ofCheck fun c t => ?_
  unfold RootLayout.check
  split
  · exact .none
  · exact .plain _ _

theorem finds_layoutTags : LayoutTags.rule.Finds false := by
  refine Rule.finds_ofCheck fun c t => ?_
  have htag : ∀ (p : Prop) [Decidable p] (path message : String),
      Reports LayoutTags.info false (if p then [] else [LayoutTags.info.finding path message]) := by
    intro p _ path message
    split
    · exact .none
    · exact .plain _ _
  unfold LayoutTags.check
  split
  · exact .none
  · exact .append (htag _ _ _) (htag _ _ _)

theorem finds_pageExport : PageExport.rule.Finds false := by
  refine Rule.finds_ofCheck (reports_forFiles fun path text => ?_)
  split
  · exact .none
  · exact .plain _ _

theorem finds_pageMetadata : PageMetadata.rule.Finds false := by
  refine Rule.finds_ofCheck (reports_forFiles fun path text => ?_)
  split
  · exact .none
  · exact .plain _ _

theorem finds_loadingState : LoadingState.rule.Finds false := by
  refine Rule.finds_ofCheck fun c t => reports_forFiles (fun path text => ?_) c t
  split
  · exact .plain _ _
  · exact .none

theorem finds_clientDirective : ClientDirective.rule.Finds true := by
  refine (Rule.finds_ofCheck fun c t => ?_).withFix _
  refine .flatMap fun path => ?_
  split
  · exact .none
  split
  · exact .none
  split
  · exact .none
  split
  · exact .none
  · exact .asFixable _ _

theorem finds_serverHooks : ServerHooks.rule.Finds false := by
  refine Rule.finds_ofCheck (reports_forFiles fun path text => ?_)
  split
  · exact .none
  refine reports_forLines fun number line => ?_
  split
  · exact .none
  · exact .atLine _ _ _

theorem finds_imageComponent : ImageComponent.rule.Finds false := by
  refine Rule.finds_ofCheck (reports_forFiles fun path text => reports_forLines fun number line => ?_)
  split
  · exact .atLine _ _ _
  · exact .none

theorem finds_linkComponent : LinkComponent.rule.Finds false := by
  refine Rule.finds_ofCheck (reports_forFiles fun path text => reports_forLines fun number line => ?_)
  split
  · exact .none
  split
  · exact .none
  · exact .atLine _ _ _

theorem finds_routeHandler : RouteHandler.rule.Finds false := by
  refine Rule.finds_ofCheck (reports_forFiles fun path text => ?_)
  split
  · exact .none
  · exact .plain _ _

end Application

/-! ## Monorepos -/

namespace Monorepo

theorem finds_runnerConfig : RunnerConfig.rule.Finds false := by
  intro c t found hfound
  dsimp only [RunnerConfig.rule, RunnerConfig.check] at hfound
  split at hfound
  · cases hfound
    exact .none
  refine reports_findingsIn (fun manifest => ?_) hfound
  unfold RunnerConfig.findings
  split
  · exact .plain _ _
  · exact .none

theorem finds_workspaceProtocol : WorkspaceProtocol.rule.Finds true := by
  intro c t found hfound f hf
  obtain ⟨-, w, -, hf⟩ := Except.mem_flatten_mapM_iff.mp ((Except.mem_of_mem_ok hfound).mp hf)
  obtain ⟨manifest, -, hf⟩ := Rule.mem_findingsIn_iff.mp hf
  refine (?_ : Reports WorkspaceProtocol.info true (WorkspaceProtocol.findings c _ manifest)) f hf
  refine .flatMap fun (dependency, version) => ?_
  dsimp only
  split
  · split
    · exact .asFixable _ _
    · exact .none
  · exact .none

theorem finds_sharedCompilerConfig : SharedCompilerConfig.rule.Finds false := by
  refine Rule.finds_ofCheck fun c t => ?_
  unfold SharedCompilerConfig.check
  split
  · refine .flatMap fun w => ?_
    dsimp only
    split
    · exact .none
    split
    · exact .none
    · exact .one (.remark ..)
  · exact .none

theorem finds_rootDependencies : RootDependencies.rule.Finds false := by
  intro c t found hfound
  refine reports_findingsIn (fun manifest => ?_) hfound
  unfold RootDependencies.findings
  split
  · exact .none
  dsimp only
  split
  · exact .none
  · exact .one ((Finding.IsOf.remark ..).withHelp _)

theorem finds_taskCoverage : TaskCoverage.rule.Finds false := by
  intro c t found hfound
  obtain ⟨config?, -, hfound⟩ := Except.bind_eq_ok.mp hfound
  cases config? with
  | none =>
    cases hfound
    exact .none
  | some config =>
    obtain ⟨declared, -, hfound⟩ := Except.bind_eq_ok.mp hfound
    cases hfound
    exact .map fun _ => .finding ..

theorem finds_workspaceNames : WorkspaceNames.rule.Finds false := by
  refine Rule.finds_ofCheck fun c t => ?_
  unfold WorkspaceNames.check
  split
  · exact .map fun _ => .remark ..
  · exact .none

end Monorepo

/-! ## Hygiene -/

namespace Hygiene

theorem finds_nestedModules : NestedModules.rule.Finds false :=
  Rule.finds_ofCheck fun _ _ => .map fun _ => (Finding.IsOf.finding ..).withHelp _

theorem finds_strictTyping : StrictTyping.rule.Finds true := by
  intro c t found hfound
  dsimp only [StrictTyping.rule, StrictTyping.check] at hfound
  split at hfound
  · cases hfound
    exact .none
  refine reports_findingsIn (fun settings => ?_) hfound
  unfold StrictTyping.findings
  split
  · exact .none
  · exact .asFixable _ _

theorem finds_engineVersion : EngineVersion.rule.Finds true := by
  intro c t found hfound
  refine reports_findingsIn (fun manifest => ?_) hfound
  unfold EngineVersion.findings
  split
  · exact .none
  · exact .asFixable _ _

theorem finds_gitIgnore : GitIgnore.rule.Finds true := by
  refine (Rule.finds_ofCheck fun c t => ?_).withFix _
  unfold GitIgnore.check
  split
  · exact .none
  split
  · exact .asFixable _ _
  · exact .map fun _ => (Finding.IsOf.finding ..).asFixable

theorem finds_environmentExample : EnvironmentExample.rule.Finds false := by
  refine Rule.finds_ofCheck fun c t => ?_
  unfold EnvironmentExample.check
  split
  · exact .plain _ _
  · exact .none

theorem finds_unusedDependencies : UnusedDependencies.rule.Finds false := by
  intro c t found hfound
  refine reports_findingsIn (fun manifest => ?_) hfound
  unfold UnusedDependencies.findings
  split
  · exact .none
  split
  · exact .none
  · exact .one ((Finding.IsOf.remark ..).withHelp _)

/-- The rule on lock files finds that there are too many of them, which it says can be repaired, or
that there is none, which it says cannot. -/
theorem mem_lockFile {c : Context} {t : Tree} (hf : f ∈ SingleLockFile.check c t) :
    f.rule = SingleLockFile.info.id ∧ (f.fixable = true ↔
      ∃ first second others, SingleLockFile.lockFiles.filter (c.fileExists t) =
        first :: second :: others) := by
  unfold SingleLockFile.check at hf
  split at hf
  · cases hf
  split at hf
  · rename_i hnone
    obtain rfl := List.mem_singleton.mp hf
    have hplain := (Finding.IsOf.finding SingleLockFile.info Manifest.fileName
      "No lock file found, run your package manager's install").withHelp
        (.text ("Run \x60" ++ SingleLockFile.installer c.project ++ " install\x60 to generate a lock file"))
    refine ⟨hplain.rule, iff_of_false (fun h => ?_) ?_⟩
    · rw [hplain.fixable] at h
      cases h
    · rintro ⟨first, second, others, heq⟩
      rw [hnone] at heq
      cases heq
  · cases hf
  · rename_i first others hmany hfiles
    obtain rfl := List.mem_singleton.mp hf
    have hfixable := ((Finding.IsOf.finding SingleLockFile.info first
      ("Multiple lock files found: " ++ Text.joinWith ", " (first :: others))).withHelp
        "Keep only the one matching your package manager").asFixable
    refine ⟨hfixable.rule, iff_of_true hfixable.fixable ?_⟩
    cases others with
    | nil => exact absurd rfl hmany
    | cons second others => exact ⟨first, second, others, hfiles⟩

end Hygiene

/-! ## Dead code -/

namespace DeadCode

theorem finds_orphanFiles : OrphanFiles.rule.Finds false := by
  refine Rule.finds_ofCheck fun c t => ?_
  unfold OrphanFiles.check
  dsimp only
  split
  · exact .none
  · exact .map fun _ => .finding ..

theorem finds_unusedExports : UnusedExports.rule.Finds false := by
  intro c t found hfound
  dsimp only [UnusedExports.rule, UnusedExports.check] at hfound
  cases hmembers : Rule.members c t Manifest.fileName with
  | error fault =>
    rw [hmembers] at hfound
    cases hfound
  | ok manifest =>
    rw [hmembers] at hfound
    cases hfound
    dsimp only
    split
    · exact .none
    unfold UnusedExports.findings
    dsimp only
    split
    · exact .none
    · exact .map fun _ => (Finding.IsOf.finding ..).atLine _

theorem finds_unusedComponents : UnusedComponents.rule.Finds false := by
  refine Rule.finds_ofCheck fun c t => ?_
  unfold UnusedComponents.check
  dsimp only
  split
  · exact .none
  · exact .map fun _ => .finding ..

end DeadCode

/-! ## All rules -/

/-- Every built-in rule but the one on lock files says of all it finds that it can be repaired, if
it has a repair, and of nothing otherwise. -/
theorem Registry.finds_builtIn {r : Rule} (hr : r ∈ builtIn) :
    r = Hygiene.SingleLockFile.rule ∨ r.Finds r.canFix := by
  have hcases : r ∈ Application.rules ∨ r ∈ Monorepo.rules ∨ r ∈ Hygiene.rules ∨
      r ∈ DeadCode.rules := by
    simpa only [builtIn, List.mem_append, or_assoc] using hr
  rcases hcases with hr | hr | hr | hr
  · simp only [Application.rules, List.mem_cons, List.not_mem_nil, or_false] at hr
    rcases hr with rfl | rfl | rfl | rfl | rfl | rfl | rfl | rfl | rfl | rfl
    · exact .inr Application.finds_rootLayout
    · exact .inr Application.finds_layoutTags
    · exact .inr Application.finds_pageExport
    · exact .inr Application.finds_clientDirective
    · exact .inr Application.finds_serverHooks
    · exact .inr Application.finds_pageMetadata
    · exact .inr Application.finds_imageComponent
    · exact .inr Application.finds_linkComponent
    · exact .inr Application.finds_routeHandler
    · exact .inr Application.finds_loadingState
  · simp only [Monorepo.rules, List.mem_cons, List.not_mem_nil, or_false] at hr
    rcases hr with rfl | rfl | rfl | rfl | rfl | rfl
    · exact .inr Monorepo.finds_runnerConfig
    · exact .inr Monorepo.finds_workspaceProtocol
    · exact .inr Monorepo.finds_sharedCompilerConfig
    · exact .inr Monorepo.finds_rootDependencies
    · exact .inr Monorepo.finds_taskCoverage
    · exact .inr Monorepo.finds_workspaceNames
  · simp only [Hygiene.rules, List.mem_cons, List.not_mem_nil, or_false] at hr
    rcases hr with rfl | rfl | rfl | rfl | rfl | rfl | rfl
    · exact .inl rfl
    · exact .inr Hygiene.finds_nestedModules
    · exact .inr Hygiene.finds_strictTyping
    · exact .inr Hygiene.finds_engineVersion
    · exact .inr Hygiene.finds_gitIgnore
    · exact .inr Hygiene.finds_environmentExample
    · exact .inr Hygiene.finds_unusedDependencies
  · simp only [DeadCode.rules, List.mem_cons, List.not_mem_nil, or_false] at hr
    rcases hr with rfl | rfl | rfl
    · exact .inr DeadCode.finds_orphanFiles
    · exact .inr DeadCode.finds_unusedExports
    · exact .inr DeadCode.finds_unusedComponents

end Checkup
