import Checkup.Pattern.Basic
import Checkup.Project.Detect
import Checkup.Rule.Basic

/-!
# Conventions of monorepos

Rules that look at the root of a monorepo: the task runner's configuration, and the manifests and
compiler settings of its workspaces.
-/

namespace Checkup.Monorepo

/-- The roots of monorepos. -/
def kinds : List Kind := [.monorepo]

/-- The path of a file in a workspace. -/
def fileIn (w : Workspace) (name : String) : String := Path.join w.path name

/-- The workspaces of the project a context belongs to. -/
def workspaces (c : Context) : List Workspace := c.project.workspaceList

namespace RunnerConfig

def info : RuleInfo where
  id := "turbo/has-turbo-json"
  name := "Has turbo.json"
  category := .turbo
  severity := .error
  description := "Turborepo projects must have a turbo.json configuration"
  help := "Create turbo.json with pipeline configuration at the project root"
  appliesTo := kinds

/-- A manifest without a configuration beside it depends on the task runner. -/
def findings (manifest : Json.Members) : List Finding :=
  if (Manifest.dependencies manifest).has (.text "turbo") then
    [info.finding Project.orchestratorConfig "Missing turbo.json configuration"]
  else []

/-- The project depends on the task runner and has no configuration of it. -/
def check (c : Context) (t : Tree) : Except RuleFault (List Finding) :=
  if c.fileExists t Project.orchestratorConfig then .ok []
  else Rule.findingsIn c t Manifest.fileName findings

def rule : Rule := ⟨info, check, none⟩

end RunnerConfig

namespace WorkspaceProtocol

def info : RuleInfo where
  id := "turbo/workspace-deps"
  name := "Workspace Protocol"
  category := .turbo
  severity := .warning
  description := "Workspace packages should use workspace:* protocol for internal deps"
  help := "Use \"workspace:*\" for local package dependencies instead of version numbers"
  appliesTo := kinds

/-- What a version begins with that refers to a workspace. -/
def protocol : String := "workspace:"

/-- The version that any version of a workspace meets. -/
def anyVersion : String := "workspace:*"

/-- The names of the workspaces. -/
def names (c : Context) : List Label := (workspaces c).map (·.name)

/-- The version of a dependency that is a string and does not refer to a workspace. -/
def plainVersion? (value : Json) : Option Label :=
  value.text?.filter fun version => !version.startsWith protocol

/-- What is said of a dependency with a version. -/
def message (dependency version : Label) : Label :=
  dependency ++ .text " should use \"workspace:*\" instead of \"" ++ version ++ .text "\""

/-- A manifest at a path has plain versions of workspaces. -/
def findings (c : Context) (path : String) (manifest : Json.Members) : List Finding :=
  (Manifest.dependencies manifest).flatMap fun (dependency, version) =>
    match plainVersion? version with
    | some version =>
      if (names c).contains dependency then
        [(info.remark path (message dependency version)).asFixable]
      else []
    | none => []

/-- A workspace depends on another one by a version number. -/
def check (c : Context) (t : Tree) : Except RuleFault (List Finding) :=
  ((workspaces c).mapM fun w =>
    let path := fileIn w Manifest.fileName
    Rule.findingsIn c t path (findings c path)).map List.flatten

/-- What a message begins with that names a dependency. -/
def dependencyIn : Pattern :=
  .sequence [.start, .keep (.run1 (!Text.isBlank ·)), .text " should use \"workspace:*\""]

/-- The dependency that a message names. It is kept from the beginning of the message on. -/
def namedIn? (message : Label) : Option Label :=
  (dependencyIn.firstKept? message.nearest.toList).map fun kept => message.take kept.length

/-- The section with a dependency's plain version replaced, if it has one. -/
def localizeSection (dependency : Label) (members : Json.Members) : Option Json.Members :=
  ((members.get? dependency).bind plainVersion?).map fun _ =>
    members.put dependency (.str anyVersion)

/-- The manifest with a dependency's plain version replaced in a section, if it has one there. -/
def localizeIn (dependency : Label) (manifest : Json.Members) (name : String) :
    Option Json.Members :=
  ((Manifest.section? manifest name).bind (localizeSection dependency)).map fun members =>
    manifest.put name (.obj members)

/-- The manifest with a dependency's plain versions replaced in all sections, and whether it has
any. -/
def localize (dependency : Label) (manifest : Json.Members) : Json.Members × Bool :=
  Manifest.dependencySections.foldl (fun (manifest, changed) name =>
    match localizeIn dependency manifest name with
    | some localized => (localized, true)
    | none => (manifest, changed)) (manifest, false)

/-- Replaces the versions of the dependency that the finding names. -/
def fix (c : Context) (t : Tree) (f : Finding) : Repair :=
  match namedIn? f.message with
  | none => .unchanged t
  | some dependency =>
    if !(names c).contains dependency then .unchanged t
    else
      .byMembers c t f.file fun manifest =>
        match localize dependency manifest with
        | (_, false) => .unchanged t
        | (localized, true) => .ofWrite (c.writeJson t f.file (.obj localized))

def rule : Rule := ⟨info, check, some fix⟩

end WorkspaceProtocol

namespace SharedCompilerConfig

def info : RuleInfo where
  id := "turbo/shared-tsconfig"
  name := "Shared TypeScript Config"
  category := .turbo
  severity := .warning
  description := "Workspace packages should extend a shared tsconfig"
  help := "Create a shared tsconfig.base.json at root and have workspaces extend it"
  appliesTo := kinds

/-- A workspace's compiler settings extend nothing although there are shared ones. -/
def check (c : Context) (t : Tree) : List Finding :=
  if c.fileExists t "tsconfig.json" || c.fileExists t "tsconfig.base.json" then
    (workspaces c).flatMap fun w =>
      let path := fileIn w "tsconfig.json"
      match c.readNonempty? t path with
      | none => []
      | some text =>
        if Text.contains text "\"extends\"" then []
        else [info.remark path (w.name ++ .text " tsconfig doesn't extend a shared base config")]
  else []

def rule : Rule := .ofCheck info check

end SharedCompilerConfig

namespace RootDependencies

def info : RuleInfo where
  id := "turbo/no-root-app-deps"
  name := "No Root App Dependencies"
  category := .turbo
  severity := .warning
  description := "Root package.json should only have devDependencies, not app-level deps"
  help := "Move application dependencies to workspace packages, keep only tooling in root"
  appliesTo := kinds

/-- The runtime dependencies that a monorepo's root may have. -/
def allowed : List String := ["turbo", "typescript"]

/-- A manifest of a root has runtime dependencies of its own. -/
def findings (manifest : Json.Members) : List Finding :=
  match Manifest.section? manifest "dependencies" with
  | none => []
  | some dependencies =>
    let found := dependencies.keys.filter (!(allowed.map .text).contains ·)
    if found.isEmpty then []
    else
      [(info.remark Manifest.fileName
        (.text ("Root has " ++ toString found.length ++ " application dependencies: ") ++
          firstFive found)).withHelp
        (.text "Move these to workspace packages; root should only have devDependencies")]

/-- The root has runtime dependencies of its own. -/
def check (c : Context) (t : Tree) : Except RuleFault (List Finding) :=
  Rule.findingsIn c t Manifest.fileName findings

def rule : Rule := ⟨info, check, none⟩

end RootDependencies

namespace TaskCoverage

def info : RuleInfo where
  id := "turbo/pipeline-coverage"
  name := "Pipeline Coverage"
  category := .turbo
  severity := .warning
  description := "All workspace scripts should be covered in turbo.json pipeline"
  help := "Add missing tasks to turbo.json to benefit from caching"
  appliesTo := kinds

/-- The scripts that should be tasks, in the order of reports. -/
def importantScripts : List String := ["build", "test", "lint", "dev"]

/-- The tasks of a configuration, under the newer name of the section or the older one. -/
def tasks (config : Json.Members) : List Label :=
  match ["tasks", "pipeline"].findSome? fun name : String => (config.get? name).filter Json.isGiven with
  | some (.obj members) => Json.Members.keys members
  | _ => []

/-- The scripts that a manifest has. -/
def scriptsOf (manifest : Json.Members) : List Label :=
  ((Manifest.section? manifest "scripts").map Json.Members.keys).getD []

/-- The scripts of the workspaces. -/
def scripts (c : Context) (t : Tree) : Except RuleFault (List Label) :=
  ((workspaces c).mapM fun w =>
    (Rule.members c t (fileIn w Manifest.fileName)).map fun manifest =>
      (manifest.map scriptsOf).getD []).map List.flatten

/-- Important scripts are no tasks of a configuration. -/
def findings (config : Json.Members) (declared : List Label) : List Finding :=
  let covered := tasks config
  (importantScripts.filter fun s =>
    declared.contains (.text s) && !covered.contains (.text s)).map fun s =>
      info.finding Project.orchestratorConfig
        ("Script \"" ++ s ++ "\" exists in workspaces but not in turbo pipeline")

/-- An important script of a workspace is no task. -/
def check (c : Context) (t : Tree) : Except RuleFault (List Finding) := do
  match ← Rule.members c t Project.orchestratorConfig with
  | none => pure []
  | some config => pure (findings config (← scripts c t))

def rule : Rule := ⟨info, check, none⟩

end TaskCoverage

namespace WorkspaceNames

def info : RuleInfo where
  id := "turbo/workspace-naming"
  name := "Consistent Workspace Naming"
  category := .turbo
  severity := .warning
  description := "Workspace packages should use consistent naming (e.g. @scope/name)"
  help := "Use @org/package-name format for workspace packages"
  appliesTo := kinds

/-- The name has a scope. -/
def isScoped (w : Workspace) : Bool := w.name.startsWith "@"

/-- A workspace's name has no scope although those of others have one. -/
def check (c : Context) (_ : Tree) : List Finding :=
  if (workspaces c).any isScoped then
    ((workspaces c).filter (!isScoped ·)).map fun w =>
      info.remark (fileIn w Manifest.fileName)
        (w.name ++ .text " is not scoped, other packages use @scope/name format")
  else []

def rule : Rule := .ofCheck info check

end WorkspaceNames

/-- The rules for monorepos, in their order. -/
def rules : List Rule :=
  [RunnerConfig.rule, WorkspaceProtocol.rule, SharedCompilerConfig.rule, RootDependencies.rule,
    TaskCoverage.rule, WorkspaceNames.rule]

end Checkup.Monorepo
