import Checkup.Json.Printer
import Checkup.Run.Basic

/-!
# Results as JSON

The JSON form of projects, findings and whole results, with the members in the order in which they
are written.
-/

namespace Checkup

namespace Json

/-- A string, or null if there is none. -/
def ofLabel? : Option Label → Json
  | some l => .ofLabel l
  | none => .null

/-- An integer, or null if there is none. -/
def ofInt? : Option Int → Json
  | some n => .int n
  | none => .null

end Json

/-- The JSON form of a finding. -/
def Finding.toJson (f : Finding) : Json :=
  .obj [("rule_id", .str f.rule), ("file_path", .str f.file), ("severity", .str f.severity.word),
    ("message", .ofLabel f.message), ("help", .ofLabel f.help), ("line", .ofInt? f.line),
    ("auto_fixable", .bool f.fixable)]

/-- The JSON form of a workspace. -/
def Workspace.toJson (w : Workspace) : Json :=
  .obj [("name", .ofLabel w.name), ("path", .str w.path), ("absolute_path", .str w.absolutePath),
    ("kind", .str w.kind.name), ("has_manifest", .bool w.hasManifest)]

/-- The JSON form of a project. -/
def Project.toJson (p : Project) : Json :=
  .obj [("kind", .str p.kind.name), ("name", .ofLabel p.name), ("root", .str p.root),
    ("package_manager", .str p.packageManager.name), ("is_monorepo", .bool p.isMonorepo),
    ("uses_static_typing", .bool p.usesStaticTyping), ("version", .ofLabel? p.version),
    ("workspaces", match p.workspaces with
      | some ws => .arr (ws.map Workspace.toJson)
      | none => .null),
    ("framework_version", .ofLabel? p.frameworkVersion),
    ("ui_library_version", .ofLabel? p.uiLibraryVersion),
    ("orchestrator_version", .ofLabel? p.orchestratorVersion)]

/-- The JSON form of what a rule comes to. -/
def RuleResult.toJson (r : RuleResult) : Json :=
  .obj [("rule_id", .str r.rule), ("rule_name", .str r.name), ("category", .str r.category.name),
    ("passed", .bool r.passed), ("diagnostics", .arr (r.findings.map Finding.toJson))]

/-- The JSON form of a result. -/
def Diagnosis.toJson (d : Diagnosis) : Json :=
  .obj [("score", .int d.score), ("grade", .str d.grade),
    ("diagnostics", .arr (d.findings.map Finding.toJson)), ("project", d.project.toJson),
    ("rule_results", .arr (d.results.map RuleResult.toJson)), ("duration", .int d.duration),
    ("fixed_count", .ofInt? d.fixedCount)]

/-- The names of the kinds to which a rule applies, in order and each once. -/
def RuleInfo.kindNames (info : RuleInfo) : List String :=
  ((info.appliesTo.map Kind.name).mergeSort Tree.nameLE).eraseReps

/-- The JSON form of a rule's description. -/
def Rule.toJson (r : Rule) : Json :=
  .obj [("id", .str r.info.id), ("name", .str r.info.name), ("category", .str r.info.category.name),
    ("severity", .str r.info.severity.word), ("description", .str r.info.description),
    ("applies_to", .arr (r.info.kindNames.map .str)), ("fixable", .bool r.canFix),
    ("bias", .str r.info.bias)]

namespace Report

/-- A result as JSON text. -/
def json (d : Diagnosis) : String := d.toJson.pretty ++ "\n"

/-- The score alone, as a number or as JSON text with the grade. -/
def score (d : Diagnosis) (asJson : Bool) : String :=
  if asJson then
    (Json.obj [("score", .int d.score), ("grade", .str d.grade)]).compact ++ "\n"
  else Number.intText d.score ++ "\n"

end Report

end Checkup
