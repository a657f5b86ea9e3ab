import Checkup.Run.Basic

/-!
# What a run records

The log records of a run, in the order in which things happen. They are derived from the visit, so
they have no influence on what a run comes to.
-/

namespace Checkup.Run

/-- The part of the program that the records of a run come from. -/
def logSource : String := "orchestrator"

/-- A record of a run. -/
def record (level : Log.Level) (message : String) : Log.Record := ⟨level, logSource, message⟩

/-- The record of a fault in a rule; it is an error for those who follow the details. -/
def faultRecord (detailed : Bool) (message : String) (fault : RuleFault) : Log.Record :=
  record (if detailed then .error else .warning) (message ++ ": " ++ fault.message)

/-- The records of planning. -/
def planRecords (p : Plan) (o : Options) : List Log.Record :=
  [record .info
      ("Starting doctor run for " ++ p.project.root ++ " (" ++ p.project.kind.name ++ ")")] ++
  (match p.ignored with
    | some fault => [record .warning ("Ignoring invalid configuration: " ++ fault.message)]
    | none => []) ++
  (if ScanRoot.selectsNone p.project o.filter then
    [record .warning ("No workspace matches '" ++ o.filter ++ "'")] else []) ++
  [record .debug ("Resolved " ++ toString p.roots.length ++ " scan roots"),
    record .debug ("Evaluating " ++ toString p.pairs.length ++ " rule/root pairs from " ++
      toString p.rules.length ++ " rules")]

/-- The record of a check, if it failed. -/
def outcomeRecord? (detailed : Bool) (o : Outcome) : Option Log.Record :=
  match o.result with
  | .ok _ => none
  | .error fault =>
    some (faultRecord detailed
      ("Rule " ++ o.rule.info.id ++ " failed on " ++ Path.absolute o.root.steps) fault)

/-- The record of a task, unless it changed nothing. -/
def attemptRecord? (detailed : Bool) (a : Attempt) : Option Log.Record :=
  let id := a.task.rule.info.id
  match a.result with
  | .error fault =>
    some (faultRecord detailed ("Fix for " ++ id ++ " failed on " ++ a.task.finding.file) fault)
  | .ok true =>
    some (record .info ("Fixed " ++ id ++ " in " ++ a.task.root.pathInProject a.task.finding.file))
  | .ok false => none

/-- The records of fixes, or of the decision to make none. -/
def fixRecords (detailed : Bool) (v : Visit) (o : Options) : List Log.Record :=
  if o.fix && o.dryRun then
    [record .info
      ("Dry-run: " ++ toString v.fixableCount ++ " fixable diagnostics left untouched")]
  else v.attempts.filterMap (attemptRecord? detailed)

/-- The records of a visit; `detailed` if the records for debugging are wanted. -/
def visitRecords (detailed : Bool) (v : Visit) (o : Options) : List Log.Record :=
  planRecords v.plan o ++ v.outcomes.filterMap (outcomeRecord? detailed) ++
    fixRecords detailed v o ++
    [record .info ("Doctor score for " ++ v.plan.project.name.shown ++ ": " ++ toString v.score ++
      " (" ++ v.grade ++ ")")]

/-- The options name a category that there is, or none. -/
def Options.isKnown (o : Options) : Bool := o.category.all Category.isKnownName

/-- The records of a run of the project at a path that does not come to a result. -/
def faultRecords (t : Tree) (current : List String) (path : String) (o : Options) :
    List Log.Record :=
  if !Options.isKnown o then []
  else
    Project.detectRecords t current path ++
      match Project.detect t current path with
      | .error _ => []
      | .ok project =>
        [record .info ("Starting doctor run for " ++ project.root ++ " (" ++ project.kind.name ++
          ")")]

/-- The records of a run of the project at a path. -/
def records (detailed : Bool) (given : Option (List Rule)) (t : Tree) (current : List String)
    (path : String) (o : Options) : List Log.Record :=
  match visit given t current path o with
  | (.ok v, _) => Project.detectRecords t current path ++ visitRecords detailed v o
  | (.error _, _) => faultRecords t current path o

end Checkup.Run
