import Checkup.Project.Basic
import Checkup.Project.Manifest
import Checkup.Yaml.Document

/-!
# Workspaces of a monorepo

A project declares its workspaces by patterns: a directory, or a directory and a star for all
directories in it. The manifest's patterns come before those of a separate listing.
-/

namespace Checkup

/-- Why a project cannot be described. -/
inductive DetectFault
  | notFound (path : String)
  | notDirectory (path : String)
  | access (fault : Fault)
  | listing (fault : Yaml.Error)
  /-- A workspace pattern is an absolute path outside of the project. -/
  | outsideProject
  deriving DecidableEq, Repr, Inhabited

/-- The text of a fault. -/
def DetectFault.message : DetectFault → String
  | notFound path => "Project path not found: " ++ path
  | notDirectory path => "Project path is not a directory: " ++ path
  | access fault => fault.message
  | listing _ => "a value in the workspace listing does not exist"
  | outsideProject => "a workspace lies outside of the project"

namespace Workspaces

/-- The name of the file that lists workspace patterns. -/
def listingName : String := "pnpm-workspace.yaml"

/-- The dependency that makes a package an application of the framework. -/
def frameworkDependency : String := "next"

/-! ## Patterns -/

/-- The patterns that a manifest declares; none if it declares nothing. -/
def declaredPatterns? (manifest : Json.Members) : Option (List Label) :=
  match manifest.get? "workspaces" with
  | none => none
  | some declared =>
    if !declared.isGiven then none
    else
      let listed := match declared with
        | .obj members => Json.Members.get? members "packages"
        | other => some other
      match listed with
      | some (.arr items) => some (items.filterMap Json.text?)
      | _ => some []

/-- The strings in the sequence that a listing has under `packages`. -/
def listedPatterns (d : Yaml.Document) : List Label :=
  (((d.member? d.root "packages").bind d.items?).getD []).filterMap fun item =>
    match item with
    | .str s => some s
    | _ => none

/-- The listing of a directory, if it can be read. -/
def listing? (t : Tree) (root : List String) : Option (Except Yaml.Error Yaml.Document) :=
  match t.readText (root ++ [listingName]) with
  | .error _ => none
  | .ok text => some (Yaml.Document.ofText text.toList)

/-- The listing is looked at, but is not well formed. -/
def hasBadListing (t : Tree) (root : List String) (manifest : Json.Members) : Bool :=
  (declaredPatterns? manifest).isNone &&
    match listing? t root with
    | some (.error .malformed) => true
    | _ => false

/-- The workspace patterns of a project. A listing that is not well formed has none. -/
def patterns (t : Tree) (root : List String) (manifest : Json.Members) :
    Except Yaml.Error (List Label) :=
  match declaredPatterns? manifest with
  | some declared => .ok declared
  | none =>
    match listing? t root with
    | none => .ok []
    | some (.error .malformed) => .ok []
    | some (.error fault) => .error fault
    | some (.ok d) => .ok (listedPatterns d)

/-! ## Directories of a pattern -/

/-- A pattern in its normal spelling: a directory, and whether all directories in it are meant. -/
structure Selection where
  base : String
  wildcard : Bool
  deriving DecidableEq, Repr

/-- The endings that stand for all directories in a directory, the longest first. -/
def wildcards : List String := ["/**", "/*", "**", "*"]

/-- Splits a wildcard from the end of a pattern. -/
def splitWildcard (pattern : String) : Selection :=
  match wildcards.find? fun ending => Text.endsWith pattern.toList ending.toList with
  | some ending =>
    let base := pattern.toList.take (pattern.length - ending.length)
    ⟨String.ofList (Text.dropTrailing (· == '/') base), true⟩
  | none => ⟨pattern, false⟩

/-- Reads a pattern: blanks and slashes around it and a `./` before it mean nothing; an empty or
negated pattern selects nothing. -/
def selection? (pattern : String) : Option Selection :=
  let pattern := Text.trim (· == '/') (Text.trimBlank pattern)
  if pattern = "" || Text.startsWith pattern "!" then none
  else
    some (splitWildcard
      (if Text.startsWith pattern "./" then String.ofList (pattern.toList.drop 2) else pattern))

/-- A directory of this name may be a workspace under a wildcard. -/
def isOpenName (name : String) : Bool := !Text.startsWith name "." && name != "node_modules"

/-- The directories that a wildcard stands for, in the order of their names; none if one of the
entries cannot be looked at. -/
def directoriesIn (t : Tree) (base : List String) : Except Fault (List (List String)) := do
  match ← t.access base with
  | (location, .folder) =>
    let names := t.children location
    let found ← names.mapM fun name => do pure (name, ← t.isFolder? (base ++ [name]))
    pure ((found.filter fun (name, isFolder) => isFolder && isOpenName name).map fun (name, _) =>
      base ++ [name])
  | _ => throw .notFolder

/-- The directories that a pattern stands for. Only a directory whose name is too long is a fault,
and a wildcard below a name that no file can have. -/
def matching (t : Tree) (root : List String) (s : Selection) :
    Except DetectFault (List (List String)) :=
  let base := Path.stepsFrom root s.base
  if s.wildcard then
    if '\x00' ∈ s.base.toList then .error (.access .nulByte)
    else
      match directoriesIn t base with
      | .ok found => .ok found
      | .error _ => .ok []
  else if '\x00' ∈ s.base.toList then .ok []
  else
    match t.isFolder? base with
    | .ok true => .ok [base]
    | .ok false => .ok []
    | .error fault => .error (.access fault)

/-- The directories that a pattern selects, none of them from a root directory of its own. -/
def select (t : Tree) (root : List String) (s : Selection) :
    Except DetectFault (List (List String)) := do
  let found ← matching t root s
  if Path.hasOwnRoot s.base && !found.isEmpty then throw .outsideProject else pure found

/-- The directories of a pattern that is no text. No directory of a tree has such a name, so there are
none; but a wildcard has the contents of its directory listed, whose name must have bytes that stand
for it. What is cut off from the ends of a pattern is text, so the nearest text tells whether there
is a wildcard. -/
def selectLoose (points : List Nat) : Except DetectFault (List (List String)) :=
  match selection? (String.ofList (Text.nearestText points)) with
  | some ⟨_, true⟩ =>
    if points.any fun n => Text.isHalf n && !Text.isByteHalf n then .error (.access .notEncodable)
    else if 0 ∈ points then .error (.access .nulByte)
    else .ok []
  | _ => .ok []

/-- The directories of a pattern. -/
def directoriesOf (t : Tree) (root : List String) :
    Label → Except DetectFault (List (List String))
  | .text pattern =>
    match selection? pattern with
    | some s => select t root s
    | none => .ok []
  | .loose points _ => selectLoose points

/-- The path of a directory relative to the project. -/
def relativePath (root directory : List String) : Except DetectFault String :=
  if root.isPrefixOf directory then .ok (Path.relative (directory.drop root.length))
  else .error .outsideProject

/-! ## Describing a workspace -/

/-- What a package with these dependencies is. -/
def packageKind (manifest : Json.Members) : Kind :=
  if (Manifest.dependencies manifest).has frameworkDependency then .frameworkApp else .generic

/-- The workspace in a directory. -/
def describe (t : Tree) (root directory : List String) (path : String) :
    Except DetectFault Workspace := do
  let hasManifest ← (t.exists? (directory ++ [Manifest.fileName])).mapError .access
  let manifest ← if hasManifest then (Manifest.load t directory).mapError .access else pure []
  pure {
    name := (Manifest.label? manifest "name").getD (.text (directory.getLast?.getD ""))
    path := path
    absolutePath := Path.absolute (root ++ Path.steps path)
    kind := packageKind manifest
    hasManifest := hasManifest }

/-- Adds the workspaces in some directories to those found before. A path is taken once, and the
project itself is none of its workspaces. -/
def addAll (t : Tree) (root : List String) :
    List Workspace → List (List String) → Except DetectFault (List Workspace)
  | found, [] => .ok found
  | found, directory :: rest => do
    let path ← relativePath root directory
    if path = "." || found.any (·.path == path) then addAll t root found rest
    else
      let workspace ← describe t root directory path
      addAll t root (found ++ [workspace]) rest

/-- Adds the workspaces of some patterns to those found before. -/
def addPatterns (t : Tree) (root : List String) :
    List Workspace → List Label → Except DetectFault (List Workspace)
  | found, [] => .ok found
  | found, pattern :: rest => do
    let found ← addAll t root found (← directoriesOf t root pattern)
    addPatterns t root found rest

/-- The workspaces of a project, pattern by pattern. -/
def discover (t : Tree) (root : List String) (manifest : Json.Members) :
    Except DetectFault (List Workspace) := do
  let patterns ← (patterns t root manifest).mapError .listing
  addPatterns t root [] patterns

end Workspaces

end Checkup
