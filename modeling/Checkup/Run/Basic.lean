import Checkup.Rule.Registry
import Checkup.Run.Root
import Checkup.Score
import Checkup.Settings

/-!
# Checking a project

A run describes the project, reads its settings, checks every scan root by every rule that applies
to it, scores the findings, and repairs those that can be repaired if it is asked to. Checks only
read the tree, so they do not depend on their order; fixes are made one after the other.

* `tree_of_not_fixing`: a run that does not fix leaves the tree as it is.
-/

namespace Checkup

/-- What a run is asked for. -/
structure Options where
  fix : Bool := false
  /-- Count what could be fixed, and change nothing. -/
  dryRun : Bool := false
  category : Option String := none
  /-- Selects the workspaces of a monorepo; an empty text selects all. -/
  filter : String := ""
  deriving DecidableEq, Repr, Inhabited

/-- Why a run comes to no result. -/
inductive RunFault
  | unknownCategory (name : String)
  | detection (fault : DetectFault)
  | settings (fault : SettingsFault)
  | access (fault : Fault)
  deriving DecidableEq, Repr, Inhabited

/-- The text of a fault. -/
def RunFault.message : RunFault → String
  | unknownCategory name => "Unknown rule category: " ++ name
  | detection fault => fault.message
  | settings fault => fault.message
  | access fault => fault.message

/-- What one rule comes to in all roots. -/
structure RuleResult where
  rule : String
  name : String
  category : Category
  passed : Bool
  findings : List Finding
  deriving DecidableEq, Repr, Inhabited

namespace RuleResult

/-- The result of a rule that has not been tried yet. -/
def blank (info : RuleInfo) : RuleResult := ⟨info.id, info.name, info.category, true, []⟩

/-- The result with further findings. -/
def add (r : RuleResult) (found : List Finding) : RuleResult :=
  { r with passed := r.passed && found.isEmpty, findings := r.findings ++ found }

end RuleResult

/-- What a run comes to. -/
structure Diagnosis where
  score : Int
  grade : String
  findings : List Finding
  project : Project
  results : List RuleResult
  /-- How long the run took, in milliseconds. -/
  duration : Int
  /-- The number of repaired findings; none if no repair was asked for. -/
  fixedCount : Option Int
  deriving DecidableEq, Repr, Inhabited

namespace Run

/-! ## The plan of a run -/

/-- What a run is going to do. -/
structure Plan where
  project : Project
  settings : Settings
  /-- The fault for which the settings file was ignored. -/
  ignored : Option SettingsFault
  roots : List ScanRoot
  rules : List Rule
  deriving Inhabited

/-- The settings of a project; a faulty settings file counts as empty. -/
def settingsOf (t : Tree) (p : Project) : Except SettingsFault (Settings × Option SettingsFault) :=
  match Settings.load t [] p.root with
  | .ok settings => .ok (settings, none)
  | .error fault =>
    if fault.isTolerated then .ok (Settings.unset (Path.steps p.root), some fault) else .error fault

/-- The rules that the options and the settings choose. -/
def choice (o : Options) (s : Settings) : Registry.Choice :=
  ⟨match o.category with | some c => [c] | none => s.categories, s.disabled⟩

/-- The rules of a run: the chosen ones of the registry, or of the given rules. -/
def rulesFor (given : Option (List Rule)) (c : Registry.Choice) : List Rule :=
  match given with
  | none => Registry.chosen c
  | some rules => rules.filter c.admits

/-- The plan of a run for the project at a path. -/
def plan (given : Option (List Rule)) (t : Tree) (current : List String) (path : String)
    (o : Options) : Except RunFault Plan := do
  match o.category with
  | some name => if !Category.isKnownName name then throw (.unknownCategory name)
  | none => pure ()
  let project ← (Project.detect t current path).mapError .detection
  let (settings, ignored) ← (settingsOf t project).mapError .settings
  let roots ← (ScanRoot.ofProject t project o.filter).mapError .access
  pure ⟨project, settings, ignored, roots, rulesFor given (choice o settings)⟩

namespace Plan

/-- The rules on ignored paths. -/
def ignoreRules (p : Plan) : List IgnoreRule := IgnoreRule.ofLines p.settings.excluded

/-- The roots with the rules that apply to them, root by root. -/
def pairs (p : Plan) : List (ScanRoot × Rule) :=
  p.roots.flatMap fun root =>
    (p.rules.filter fun rule => rule.info.applies root.kind).map fun rule => (root, rule)

end Plan

/-! ## Checks -/

/-- What the check of a root by a rule comes to. -/
structure Outcome where
  root : ScanRoot
  rule : Rule
  result : Except RuleFault (List Finding)
  deriving Inhabited

namespace Outcome

/-- The findings, with paths in the root; none if the check failed. -/
def findings (o : Outcome) : List Finding := o.result.toOption.getD []

/-- The findings with paths taken from the project. -/
def reported (o : Outcome) : List Finding := o.findings.map o.root.report

end Outcome

/-- The outcomes of a plan. -/
def outcomes (p : Plan) (t : Tree) : List Outcome :=
  p.pairs.map fun (root, rule) => ⟨root, rule, rule.check (root.context p.ignoreRules) t⟩

/-- All findings of some outcomes, in order. -/
def findings (os : List Outcome) : List Finding := os.flatMap Outcome.reported

/-- The results so far, under the ids of their rules, with what one more outcome reports. -/
def addOutcome (results : List (String × RuleResult)) (o : Outcome) : List (String × RuleResult) :=
  let info := o.rule.info
  let result := (results.lookup info.id).getD (.blank info)
  Association.put results info.id (result.add o.reported)

/-- The results of the rules in some outcomes, in the order in which the rules come up. -/
def results (os : List Outcome) : List RuleResult := (os.foldl addOutcome []).map (·.2)

/-! ## Fixes -/

/-- A finding to be repaired by its rule in its root. -/
structure Task where
  root : ScanRoot
  rule : Rule
  finding : Finding
  deriving Inhabited

/-- The tasks that an outcome leaves. -/
def tasksOf (o : Outcome) : List Task :=
  if o.rule.canFix then (o.findings.filter (·.fixable)).map fun f => ⟨o.root, o.rule, f⟩ else []

/-- A task with what became of it: whether a file changed. -/
structure Attempt where
  task : Task
  result : Except RuleFault Bool
  deriving Inhabited

namespace Attempt

/-- A file was changed. -/
def succeeded (a : Attempt) : Bool :=
  match a.result with
  | .ok changed => changed
  | .error _ => false

end Attempt

/-- Does a task. -/
def Task.perform (ignoreRules : List IgnoreRule) (task : Task) (t : Tree) : Repair :=
  task.rule.repair (task.root.context ignoreRules) t task.finding

/-- Does tasks one after the other. -/
def performAll (ignoreRules : List IgnoreRule) : List Task → Tree → List Attempt × Tree
  | [], t => ([], t)
  | task :: rest, t =>
    let (result, t) := task.perform ignoreRules t
    let (later, t) := performAll ignoreRules rest t
    (⟨task, result⟩ :: later, t)

/-! ## Runs -/

/-- All that happens in a run. -/
structure Visit where
  plan : Plan
  outcomes : List Outcome
  attempts : List Attempt
  deriving Inhabited

namespace Visit

/-- The findings of a run. -/
def findings (v : Visit) : List Finding := Run.findings v.outcomes

/-- The number of findings that say they can be repaired. -/
def fixableCount (v : Visit) : Nat := (v.findings.filter (·.fixable)).length

/-- The number of tasks that changed a file. -/
def fixedCount (v : Visit) : Nat := (v.attempts.filter Attempt.succeeded).length

/-- The score of a run. -/
def score (v : Visit) : Nat := Score.ofFindings v.findings

/-- The grade of a run. -/
def grade (v : Visit) : String := Score.grade v.score

/-- What a run comes to. The clock stands still. -/
def diagnosis (v : Visit) (o : Options) : Diagnosis where
  score := v.score
  grade := v.grade
  findings := v.findings
  project := v.plan.project
  results := results v.outcomes
  duration := 0
  fixedCount := if o.fix then some v.fixedCount else none

end Visit

/-- Checks the project at a path, and repairs what it finds if the options say so. -/
def visit (given : Option (List Rule)) (t : Tree) (current : List String) (path : String)
    (o : Options) : Except RunFault Visit × Tree :=
  match plan given t current path o with
  | .error fault => (.error fault, t)
  | .ok p =>
    let found := outcomes p t
    if o.fix && !o.dryRun then
      let (attempts, after) := performAll p.ignoreRules (found.flatMap tasksOf) t
      (.ok ⟨p, found, attempts⟩, after)
    else (.ok ⟨p, found, []⟩, t)

theorem tree_of_not_fixing {given : Option (List Rule)} {t : Tree} {current : List String}
    {path : String} {o : Options} (h : (o.fix && !o.dryRun) = false) :
    (visit given t current path o).2 = t := by
  simp only [visit, h]
  split <;> rfl

end Run

/-- What a run on the project at a path comes to, and the tree after it. Without given rules it
takes those of the registry. -/
def run (given : Option (List Rule)) (t : Tree) (current : List String) (path : String)
    (o : Options) : Except RunFault Diagnosis × Tree :=
  match Run.visit given t current path o with
  | (.ok v, t) => (.ok (v.diagnosis o), t)
  | (.error fault, t) => (.error fault, t)

end Checkup
