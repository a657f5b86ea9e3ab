import Checkup.Pattern.Files
import Checkup.Project.Manifest
import Checkup.Rule.Basic

/-!
# Hygiene of a repository

Rules about lock files, the manifest, compiler settings, ignored files and dependencies, for
projects of any kind.

* `GitIgnore.mem_missing_iff`: an entry is missing if it is required and occurs nowhere in the file.
-/

namespace Checkup.Hygiene

namespace SingleLockFile

def info : RuleInfo where
  id := "node/single-lock-file"
  name := "Single Lock File"
  category := .node
  severity := .error
  description := "Project should have only one package manager lock file"
  help := "Delete the extra lock files and stick to one package manager"
  appliesTo := Kind.known

/-- The lock files in the order of reports. -/
def lockFiles : List String :=
  ["package-lock.json", "yarn.lock", "pnpm-lock.yaml", "bun.lockb", "bun.lock"]

/-- The package manager to install with; the default one if none is known. -/
def installer (p : Project) : String :=
  if p.packageManager = .unknown then PackageManager.npm.name else p.packageManager.name

/-- A project has several lock files, or none. Workspaces have none of their own. -/
def check (c : Context) (t : Tree) : List Finding :=
  if c.isWorkspace then []
  else
    match lockFiles.filter (c.fileExists t) with
    | [] =>
      [(info.finding Manifest.fileName "No lock file found, run your package manager's install").withHelp
        (.text ("Run \x60" ++ installer c.project ++ " install\x60 to generate a lock file"))]
    | [_] => []
    | first :: others =>
      [((info.finding first
        ("Multiple lock files found: " ++ Text.joinWith ", " (first :: others))).withHelp
        "Keep only the one matching your package manager").asFixable]

def rule : Rule := .ofCheck info check

end SingleLockFile

namespace NestedModules

def info : RuleInfo where
  id := "node/no-nested-node-modules"
  name := "No Nested node_modules"
  category := .node
  severity := .warning
  description := "Nested node_modules directories can cause dependency resolution issues"
  help := "Remove nested node_modules and use workspace hoisting"
  appliesTo := Kind.known
  bias := "Only inspects a fixed set of common source folders (false negatives)."

/-- The folders that are looked for. -/
def folders : List String := ["src/node_modules", "lib/node_modules", "app/node_modules"]

/-- Installed packages lie in a source folder. -/
def check (c : Context) (t : Tree) : List Finding :=
  (folders.filter (c.fileExists t)).map fun folder =>
    (info.finding folder ("Nested node_modules at " ++ folder)).withHelp
      "Delete this directory, it was likely created by accident"

def rule : Rule := .ofCheck info check

end NestedModules

namespace StrictTyping

def info : RuleInfo where
  id := "node/tsconfig-strict"
  name := "TypeScript Strict Mode"
  category := .node
  severity := .warning
  description := "TypeScript strict mode catches more bugs at compile time"
  help := "Enable \"strict\": true in tsconfig.json compilerOptions"
  appliesTo := applicationKinds

/-- The compiler's settings. -/
def fileName : String := "tsconfig.json"

/-- The section of the settings that holds the options. -/
def sectionName : String := "compilerOptions"

/-- The option that is asked for. -/
def optionName : String := "strict"

/-- The options of some settings; none if they are no object. -/
def options? (settings : Json.Members) : Option Json.Members :=
  (settings.get? sectionName).bind Json.members?

/-- Settings do not ask the compiler to be strict. -/
def findings (settings : Json.Members) : List Finding :=
  if ((options? settings).bind (·.get? optionName)).any Json.isGiven then []
  else [(info.finding fileName "TypeScript strict mode is disabled").asFixable]

/-- The compiler is not asked to be strict. -/
def check (c : Context) (t : Tree) : Except RuleFault (List Finding) :=
  if !c.project.usesStaticTyping then .ok [] else Rule.findingsIn c t fileName findings

/-- The settings with the option set. -/
def makeStrict (settings : Json.Members) : Json.Members :=
  settings.put sectionName (.obj (((options? settings).getD []).put optionName (.bool true)))

/-- The option is set to true. -/
def isStrict (settings : Json.Members) : Bool :=
  match (options? settings).bind (·.get? optionName) with
  | some (.bool true) => true
  | _ => false

/-- Sets the option. -/
def fix (c : Context) (t : Tree) (_ : Finding) : Repair :=
  .byMembers c t fileName fun settings =>
    if isStrict settings then .unchanged t
    else .ofWrite (c.writeJson t fileName (.obj (makeStrict settings)))

def rule : Rule := ⟨info, check, some fix⟩

end StrictTyping

namespace EngineVersion

def info : RuleInfo where
  id := "node/engines-field"
  name := "Engines Field"
  category := .node
  severity := .warning
  description := "package.json should specify Node.js engine version for consistency"
  help := "Add \"engines\": \x7b \"node\": \">=18\" \x7d to package.json"
  appliesTo := Kind.known

/-- The section of the manifest with the versions of engines. -/
def sectionName : String := "engines"

/-- The engine whose version is asked for. -/
def engine : String := "node"

/-- The version that a fix writes. -/
def defaultVersion : String := ">=18"

/-- The manifest states a version of the engine. -/
def isStated (manifest : Json.Members) : Bool :=
  ((Manifest.section? manifest sectionName).bind (·.get? engine)).any Json.isGiven

/-- A manifest states no version of the engine. -/
def findings (manifest : Json.Members) : List Finding :=
  if isStated manifest then []
  else [(info.finding Manifest.fileName "Missing engines.node field").asFixable]

/-- The manifest states no version of the engine. -/
def check (c : Context) (t : Tree) : Except RuleFault (List Finding) :=
  Rule.findingsIn c t Manifest.fileName findings

/-- The manifest with the default version of the engine. -/
def state (manifest : Json.Members) : Json.Members :=
  manifest.put sectionName
    (.obj (((Manifest.section? manifest sectionName).getD []).put engine (.str defaultVersion)))

/-- States the default version. -/
def fix (c : Context) (t : Tree) (_ : Finding) : Repair :=
  .byMembers c t Manifest.fileName fun manifest =>
    if isStated manifest then .unchanged t
    else .ofWrite (c.writeJson t Manifest.fileName (.obj (state manifest)))

def rule : Rule := ⟨info, check, some fix⟩

end EngineVersion

namespace GitIgnore

def info : RuleInfo where
  id := "structure/gitignore"
  name := "Complete .gitignore"
  category := .node
  severity := .warning
  description := ".gitignore should cover common patterns"
  help := "Add missing entries to .gitignore"
  appliesTo := Kind.known
  bias := "Substring match, so a commented-out entry still counts as present (false negatives)."

/-- The file with the ignored paths. -/
def fileName : String := ".gitignore"

/-- An entry that the file should have, with what messages call it. -/
structure Entry where
  pattern : String
  label : String
  deriving DecidableEq, Repr, Inhabited

/-- The entries that the file of a project should have. -/
def required (p : Project) : List Entry :=
  [⟨"node_modules", "node_modules"⟩, ⟨".env", ".env files"⟩] ++
    (if p.kind = .frameworkApp then [⟨".next", ".next build dir"⟩] else [])

/-- The required entries that occur nowhere in a text. -/
def missing (p : Project) (text : String) : List Entry :=
  (required p).filter fun e => !Text.contains text e.pattern

/-- How a message names a missing entry. -/
def complaint (e : Entry) : String := "Missing " ++ e.label ++ " pattern"

/-- The project's file of ignored paths is not there, or lacks entries. -/
def check (c : Context) (t : Tree) : List Finding :=
  if c.isWorkspace then []
  else
    match c.readNonempty? t fileName with
    | none => [(info.finding fileName "No .gitignore file found").asFixable]
    | some text =>
      (missing c.project text).map fun e =>
        (info.finding fileName (complaint e ++ " in .gitignore")).asFixable

/-- Entries as lines. -/
def lines (entries : List Entry) : String := String.join (entries.map (·.pattern ++ "\n"))

/-- A text with further entries, which begin on a line of their own. -/
def extend (text : String) (entries : List Entry) : String :=
  text ++ (if Text.endsWith text.toList ['\n'] then "" else "\n") ++ lines entries

/-- Adds the entries that the finding names, or writes the file with all of them. -/
def fix (c : Context) (t : Tree) (f : Finding) : Repair :=
  match c.readNonempty? t fileName with
  | none => .ofWrite (c.writeText t fileName (lines (required c.project)))
  | some text =>
    match (missing c.project text).filter fun e => f.message.contains (complaint e) with
    | [] => .unchanged t
    | entries => .ofWrite (c.writeText t fileName (extend text entries))

def rule : Rule := (Rule.ofCheck info check).withFix fix

theorem mem_missing_iff {p : Project} {text : String} {e : Entry} :
    e ∈ missing p text ↔ e ∈ required p ∧ Text.contains text e.pattern = false := by
  simp [missing]

end GitIgnore

namespace EnvironmentExample

def info : RuleInfo where
  id := "structure/env-example"
  name := "Environment Example"
  category := .node
  severity := .warning
  description := "If .env exists, .env.example should too for team onboarding"
  help := "Create .env.example with placeholder values for all env vars"
  appliesTo := applicationKinds

/-- The files with environment variables. -/
def environments : List String := [".env", ".env.local"]

/-- The examples of such files. -/
def examples : List String := [".env.example", ".env.local.example"]

/-- There are environment variables and no example of them. -/
def check (c : Context) (t : Tree) : List Finding :=
  if environments.any (c.fileExists t) && !examples.any (c.fileExists t) then
    [info.finding ".env.example"
      "Has .env but no .env.example, teammates won't know which vars are needed"]
  else []

def rule : Rule := .ofCheck info check

end EnvironmentExample

namespace UnusedDependencies

def info : RuleInfo where
  id := "node/unused-deps"
  name := "No Unused Dependencies"
  category := .node
  severity := .warning
  description := "Dependencies in package.json should be actually imported in code"
  help := "Remove unused dependencies with 'npm uninstall <pkg>'"
  appliesTo := applicationKinds
  bias :=
    "Only the first 200 source files are searched and CLI-only packages are never imported (false positives)."

/-- Packages that tools or the framework use without an import. -/
def implicit : List String :=
  ["typescript", "@types/node", "@types/react", "@types/react-dom", "eslint", "prettier",
    "tailwindcss", "postcss", "autoprefixer", "next", "react", "react-dom", "turbo", "@next/font",
    "encoding", "bufferutil", "utf-8-validate"]

/-- The number of files that are searched. -/
def maxFiles : Nat := 200

/-- The package of a dependency: a name with a scope stands for itself, another one up to its first
slash. -/
def packageOf (dependency : Label) : Label :=
  if dependency.startsWith "@" then dependency else dependency.upTo '/'

/-- The texts that show the use of a package. -/
def traces (package : String) : List String :=
  ["\"" ++ package ++ "\"", "'" ++ package ++ "'", "from \"" ++ package, "from '" ++ package,
    "require(\"" ++ package, "require('" ++ package]

/-- A text shows the use of a dependency. What is no text occurs in none. -/
def isUsedIn (text : String) (dependency : Label) : Bool :=
  match packageOf dependency with
  | .text package => (traces package).any (Text.contains text)
  | .loose .. => false

/-- The dependencies that should show up in the sources and do not. -/
def unused (c : Context) (t : Tree) (dependencies : Json.Members) : List Label :=
  let text := c.readAll t ((c.findFiles t .extendedSourceFiles).take maxFiles)
  dependencies.keys.filter fun d => !(implicit.map .text).contains d && !isUsedIn text d

/-- Dependencies of a manifest do not show up in the sources. -/
def findings (c : Context) (t : Tree) (manifest : Json.Members) : List Finding :=
  match Manifest.section? manifest "dependencies" with
  | none => []
  | some dependencies =>
    match unused c t dependencies with
    | [] => []
    | found =>
      [(info.remark Manifest.fileName
        (.text (toString found.length ++ " potentially unused deps: ") ++ firstFive found)).withHelp
        (.text "Check: " ++ Label.joinWith ", " found)]

/-- Dependencies do not show up in the sources. -/
def check (c : Context) (t : Tree) : Except RuleFault (List Finding) :=
  Rule.findingsIn c t Manifest.fileName (findings c t)

def rule : Rule := ⟨info, check, none⟩

end UnusedDependencies

/-- The rules on hygiene, in their order. -/
def rules : List Rule :=
  [SingleLockFile.rule, NestedModules.rule, StrictTyping.rule, EngineVersion.rule, GitIgnore.rule,
    EnvironmentExample.rule, UnusedDependencies.rule]

end Checkup.Hygiene
