import Checkup.Project.Workspaces
import Checkup.Log.Record

/-!
# Describing the project in a directory

The kind of a project follows from its files: a configuration of the task runner makes it a
monorepo, a dependency on the framework an application.
-/

namespace Checkup

namespace Project

/-- The configuration of the task runner for monorepos. -/
def orchestratorConfig : String := "turbo.json"

/-- The lock files, in the order in which they decide the package manager. -/
def lockFiles : List (String × PackageManager) :=
  [("pnpm-lock.yaml", .pnpm), ("yarn.lock", .yarn), ("bun.lockb", .bun), ("bun.lock", .bun),
    ("package-lock.json", .npm)]

/-- The package manager of the first lock file that is there. -/
def detectPackageManager (t : Tree) (root : List String) :
    List (String × PackageManager) → Except Fault PackageManager
  | [] => .ok .unknown
  | (file, manager) :: rest => do
    if ← t.exists? (root ++ [file]) then pure manager else detectPackageManager t root rest

/-- The manifest or a file beside it declares the project a monorepo. -/
def declaresMonorepo (t : Tree) (root : List String) (manifest : Json.Members) :
    Except Fault Bool := do
  if ← t.exists? (root ++ [orchestratorConfig]) then pure true
  else if (manifest.get? "workspaces").any Json.isGiven then pure true
  else t.exists? (root ++ [Workspaces.listingName])

/-- The project in a directory without links in its path. -/
def describe (t : Tree) (root : Location) : Except DetectFault Project := do
  let manifest ← (Manifest.load t root).mapError .access
  let dependencies := Manifest.dependencies manifest
  let hasOrchestrator ← (t.exists? (root ++ [orchestratorConfig])).mapError .access
  let isMonorepo ← (declaresMonorepo t root manifest).mapError .access
  let workspaces ←
    if isMonorepo then do pure (some (← Workspaces.discover t root manifest)) else pure none
  let packageManager ← (detectPackageManager t root lockFiles).mapError .access
  let typed ← (t.exists? (root ++ ["tsconfig.json"])).mapError .access
  pure {
    kind :=
      if hasOrchestrator then .monorepo
      else if dependencies.has Workspaces.frameworkDependency then .frameworkApp
      else .generic
    name := (Manifest.label? manifest "name").getD (.text (root.getLast?.getD ""))
    root := Path.absolute root
    packageManager := packageManager
    isMonorepo := isMonorepo
    usesStaticTyping := typed
    version := Manifest.label? manifest "version"
    workspaces := workspaces
    frameworkVersion := Manifest.label? dependencies "next"
    uiLibraryVersion := Manifest.label? dependencies "react"
    orchestratorVersion := Manifest.label? dependencies "turbo" }

/-- The directory a path leads to, which must be there. -/
def rootOf (t : Tree) (current : List String) (path : String) : Except DetectFault Location := do
  let root ← (t.resolve current path).mapError .access
  if !(← (t.exists? root).mapError .access) then throw (.notFound path)
  if !(← (t.isFolder? root).mapError .access) then throw (.notDirectory path)
  pure root

/-- The project in the directory a path leads to. -/
def detect (t : Tree) (current : List String) (path : String) : Except DetectFault Project := do
  describe t (← rootOf t current path)

/-- The part of the program that detection's records come from. -/
def logSource : String := "detector"

/-- What the search for the workspaces of a project records, whether or not it succeeds. -/
def workspaceRecords (t : Tree) (root : Location) (manifest : Json.Members) : List Log.Record :=
  match declaresMonorepo t root manifest with
  | .ok true =>
    (if Workspaces.hasBadListing t root manifest then
      [⟨.debug, logSource, "Ignoring unparsable " ++ Workspaces.listingName ++ ": "⟩] else []) ++
    (match Workspaces.discover t root manifest with
      | .ok found =>
        [⟨.debug, logSource, "Discovered " ++ toString found.length ++ " workspaces under " ++
          Path.absolute root⟩]
      | .error _ => [])
  | _ => []

/-- What detection of the project at a path records, whether or not it succeeds. -/
def detectRecords (t : Tree) (current : List String) (path : String) : List Log.Record :=
  match rootOf t current path with
  | .error _ => []
  | .ok root =>
    match Manifest.load t root with
    | .error _ => []
    | .ok manifest => workspaceRecords t root manifest

end Project

end Checkup
