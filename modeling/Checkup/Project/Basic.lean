import Checkup.Text.Label

/-!
# Projects and workspaces

The description of the project in a directory that all rules share.
-/

namespace Checkup

/-- What a project or workspace is. -/
inductive Kind
  | generic
  | frameworkApp
  | monorepo
  | other (name : String)
  deriving DecidableEq, Repr, Inhabited

namespace Kind

/-- The name of a kind. -/
def name : Kind → String
  | generic => "generic"
  | frameworkApp => "framework-app"
  | monorepo => "monorepo"
  | other n => n

/-- The kinds that detection tells apart. -/
def known : List Kind := [generic, frameworkApp, monorepo]

/-- The kind that a name names. -/
def ofName (n : String) : Kind := (known.find? fun k => k.name = n).getD (other n)

end Kind

/-- The program that installs a project's dependencies. -/
inductive PackageManager
  | npm
  | pnpm
  | yarn
  | bun
  | unknown
  | other (name : String)
  deriving DecidableEq, Repr, Inhabited

namespace PackageManager

/-- The name of a package manager. -/
def name : PackageManager → String
  | npm => "npm"
  | pnpm => "pnpm"
  | yarn => "yarn"
  | bun => "bun"
  | unknown => "unknown"
  | other n => n

/-- The package managers that detection tells apart. -/
def known : List PackageManager := [npm, pnpm, yarn, bun, unknown]

/-- The package manager that a name names. -/
def ofName (n : String) : PackageManager := (known.find? fun m => m.name = n).getD (other n)

end PackageManager

/-- A package inside a monorepo. `path` is relative to the project, `absolutePath` is where it
lies. -/
structure Workspace where
  name : Label
  path : String
  absolutePath : String
  kind : Kind
  hasManifest : Bool
  deriving DecidableEq, Repr, Inhabited

/-- A project as detection describes it. -/
structure Project where
  kind : Kind
  name : Label
  root : String
  packageManager : PackageManager
  isMonorepo : Bool
  usesStaticTyping : Bool
  version : Option Label
  workspaces : Option (List Workspace)
  frameworkVersion : Option Label
  uiLibraryVersion : Option Label
  orchestratorVersion : Option Label
  deriving DecidableEq, Repr, Inhabited

/-- The workspaces of a project; none if it is no monorepo. -/
def Project.workspaceList (p : Project) : List Workspace := p.workspaces.getD []

end Checkup
