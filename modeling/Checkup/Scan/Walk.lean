import Checkup.Pattern.Files
import Checkup.Scan.Context

/-!
# Finding files

The walk of a scan root lists the files below it in the order of their names, folder by folder. It
does not enter folders of other tools, hidden folders and ignored ones, nor folders too deep down. A
link counts as what it leads to, and one that leads nowhere counts as a file.
-/

namespace Checkup

namespace Context

/-- The folders that are never entered. -/
def skippedFolders : List String :=
  ["node_modules", ".next", ".git", "dist", "build", ".turbo", ".pnpm-store", "coverage", ".cache",
    ".vercel", "__pycache__"]

/-- The greatest depth of folders below the root in which files are found. -/
def defaultDepth : Nat := 6

/-- A folder of this name is not entered. -/
def isSkippedName (name : String) : Bool :=
  skippedFolders.contains name || Text.startsWith name "."

/-- The path of a file in the root, taken from the project. -/
def projectPath (c : Context) (path : String) : String :=
  if c.relativeRoot = "" then path else c.relativeRoot ++ "/" ++ path

/-- An ignore rule matches the path. -/
def isIgnored (c : Context) (path : String) (isFolder : Bool) : Bool :=
  ignoredBy c.ignoreRules (c.projectPath path) isFolder

/-- What an entry of a folder is to the walk. -/
inductive Entry
  | folder
  | file
  /-- The entry cannot be looked at. -/
  | unknown
  deriving DecidableEq

/-- The entry at some steps is listed as a file in its folder. -/
def isListedFile (t : Tree) (steps : List String) : Bool :=
  match t.access steps.dropLast with
  | .ok (location, .folder) =>
    match t.node? (location ++ steps.getLast?.toList) with
    | some (.file _) => true
    | _ => false
  | _ => false

/-- What the entry at some steps is. A file is known from the listing of its folder, even if its path
is too long for an access; a folder with such a path could not be listed. -/
def entryKind (t : Tree) (steps : List String) : Entry :=
  match t.access steps with
  | .ok (_, .folder) => .folder
  | .ok _ => .file
  | .error .missing => .file
  | .error .nameTooLong => if isListedFile t steps then .file else .unknown
  | .error _ => .unknown

/-- The names in a folder; none if it cannot be listed. -/
def namesIn (t : Tree) (steps : List String) : List String :=
  match t.access steps with
  | .ok (location, .folder) => t.children location
  | _ => []

/-- The path of an entry in a folder of the root. -/
def entryPath (folder name : String) : String := if folder = "" then name else folder ++ "/" ++ name

/-- The accepted files in a folder and below it. `left` is the number of levels that may still be
entered, the folder itself included. -/
def walk (c : Context) (t : Tree) (accepts : String → Bool) :
    Nat → List String → String → List String
  | 0, _, _ => []
  | left + 1, steps, folder =>
    (namesIn t steps).flatMap fun name =>
      let path := entryPath folder name
      match entryKind t (steps ++ [name]) with
      | .unknown => []
      | .folder =>
        if isSkippedName name || c.isIgnored path true then []
        else walk c t accepts left (steps ++ [name]) path
      | .file => if accepts path && !c.isIgnored path false then [path] else []

/-- The accepted files of the root down to a depth. -/
def findFilesTo (c : Context) (t : Tree) (accepts : String → Bool) (depth : Int) : List String :=
  c.walk t accepts (depth + 1).toNat c.root ""

/-- The files of the root that a pattern occurs in. -/
def findFiles (c : Context) (t : Tree) (p : Pattern) : List String :=
  c.findFilesTo t p.accepts defaultDepth

end Context

end Checkup
