import Checkup.Finding
import Checkup.Project.Detect
import Checkup.Scan.Context

/-!
# Scan roots

The directories of a project on which rules are run: the project itself, and for a monorepo also its
workspaces.

* `ofProject_of_not_monorepo`: a project that is no monorepo is its only scan root.
-/

namespace Checkup

/-- A directory on which rules are run. -/
structure ScanRoot where
  /-- The steps of its path from the root directory. -/
  steps : List String
  project : Project
  kind : Kind
  isWorkspace : Bool
  /-- Its path relative to the project; empty for the project itself. -/
  relativePath : String
  deriving DecidableEq, Repr, Inhabited

namespace ScanRoot

/-- The view that rules get of the root. -/
def context (r : ScanRoot) (ignoreRules : List IgnoreRule) : Context :=
  .forRoot r.steps r.project r.isWorkspace r.relativePath ignoreRules

/-- The path of a file in the root, taken from the project. -/
def pathInProject (r : ScanRoot) (file : String) : String :=
  if r.relativePath = "" then file else Path.normal (Path.join r.relativePath file)

/-- The finding with its path taken from the project. -/
def report (r : ScanRoot) (f : Finding) : Finding := { f with file := r.pathInProject f.file }

/-- The project as a scan root of some kind. -/
def whole (p : Project) (kind : Kind) : ScanRoot := ⟨Path.steps p.root, p, kind, false, ""⟩

/-- A workspace as a scan root; it has a description of its own. -/
def ofWorkspace (t : Tree) (p : Project) (w : Workspace) : Except Fault ScanRoot := do
  let steps := Path.steps w.absolutePath
  let manifest ← Manifest.load t steps
  let dependencies := Manifest.dependencies manifest
  let typed ← if p.usesStaticTyping then pure true else t.exists? (steps ++ ["tsconfig.json"])
  pure {
    steps := steps
    project := { p with
      kind := w.kind
      name := w.name
      root := w.absolutePath
      version := Manifest.label? manifest "version"
      isMonorepo := false
      workspaces := none
      usesStaticTyping := typed
      frameworkVersion := Manifest.label? dependencies "next"
      uiLibraryVersion := Manifest.label? dependencies "react" }
    kind := w.kind
    isWorkspace := true
    relativePath := w.path }

/-- The filter selects a workspace: it is empty, or it occurs in its name or path. -/
def isSelected (filter : String) (w : Workspace) : Bool :=
  filter = "" || w.name.contains filter || Text.contains w.path filter

/-- The workspaces that a filter selects. -/
def selected (p : Project) (filter : String) : List Workspace :=
  p.workspaceList.filter (isSelected filter)

/-- The scan roots of a project: itself, and the selected workspaces of a monorepo. -/
def ofProject (t : Tree) (p : Project) (filter : String) : Except Fault (List ScanRoot) :=
  if !p.isMonorepo then .ok [whole p p.kind]
  else ((selected p filter).mapM (ofWorkspace t p)).map (whole p .monorepo :: ·)

/-- A monorepo has no workspace that the filter selects. -/
def selectsNone (p : Project) (filter : String) : Bool :=
  p.isMonorepo && filter != "" && (selected p filter).isEmpty

theorem ofProject_of_not_monorepo {t : Tree} {p : Project} {filter : String}
    (h : p.isMonorepo = false) : ofProject t p filter = .ok [whole p p.kind] := by
  simp [ofProject, h]

end ScanRoot

end Checkup
