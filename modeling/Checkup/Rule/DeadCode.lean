import Checkup.Imports
import Checkup.Project.Manifest
import Checkup.Rule.Basic

/-!
# Dead code

Rules that look for files, exports and components that nothing uses. They go by texts and paths and
would rather stay silent: imports count for every file they could mean, the numbers of findings are
bounded, and nothing is said of large projects.

* `OrphanFiles.mem_orphans_iff`: an orphan is no entry point, and no spelling of it is imported.
-/

namespace Checkup.DeadCode

/-- Nothing is said of projects with more source files. -/
def maxFiles : Nat := 300

namespace OrphanFiles

def info : RuleInfo where
  id := "dead/orphan-files"
  name := "Orphan Files"
  category := .dead
  severity := .warning
  description := "Files not imported by any other file in the project"
  help := "Delete orphan files or import them where needed"
  appliesTo := applicationKinds
  bias :=
    "Path-alias and package-name imports are not resolved; results are suppressed when 30% or more of files look orphaned and capped at 20."

/-- The paths by which a file can be imported. -/
def spellings (path : String) : List String :=
  let base := Imports.withoutExtension path
  [path, base, base ++ "/index"]

/-- The files among some that are no entry points and that nothing imports. -/
def orphans (files imported : List String) : List String :=
  files.filter fun path =>
    !Pattern.isEntryPoint path && !(spellings path).any imported.contains

/-- So many orphans mean that imports were not understood: three in ten files or more. This is told in
whole numbers, which comes to the same as a rounded product unless there are `2^48` files. -/
def areTooMany (orphans files : List String) : Bool := 3 * files.length ≤ 10 * orphans.length

/-- The greatest number of findings. -/
def maxFindings : Nat := 20

/-- Nothing imports a file. -/
def check (c : Context) (t : Tree) : List Finding :=
  let files := c.findFiles t .sourceFiles
  let found := orphans files (Imports.imported c t files)
  if areTooMany found files then []
  else
    (found.take maxFindings).map fun path =>
      info.finding path "File appears unused, not imported anywhere"

def rule : Rule := .ofCheck info check

theorem mem_orphans_iff {files imported : List String} {path : String} :
    path ∈ orphans files imported ↔
      path ∈ files ∧ Pattern.isEntryPoint path = false ∧ ∀ s ∈ spellings path, s ∉ imported := by
  simp [orphans]

end OrphanFiles

namespace UnusedExports

def info : RuleInfo where
  id := "dead/unused-exports"
  name := "Unused Exports"
  category := .dead
  severity := .warning
  description := "Exported functions/types that aren't imported anywhere"
  help := "Remove unused exports or make them private"
  appliesTo := applicationKinds
  bias :=
    "Counts whole-word occurrences, so a same-named identifier elsewhere hides an unused export (false negatives); publishable libraries and projects over 300 files are skipped."

/-- An exported name with the place of its declaration. -/
structure Export where
  name : List Char
  file : String
  line : Nat
  deriving DecidableEq, Repr, Inhabited

/-- Names that the framework looks up by convention. -/
def reserved : List String :=
  ["default", "metadata", "GET", "POST", "PUT", "DELETE", "PATCH", "HEAD", "OPTIONS"]

/-- The members of a manifest that make a package a library for others. -/
def libraryMembers : List String := ["main", "module", "exports", "types", "typings"]

/-- The manifest is that of a library. -/
def isLibrary (manifest : Json.Members) : Bool :=
  libraryMembers.any fun name => (manifest.get? name).any Json.isGiven

/-- The exports in a file's text. -/
def exportsIn (file text : String) : List Export :=
  (Text.numberedLines text.toList).flatMap fun (number, line) =>
    Pattern.exportDeclarations.filterMap fun declaration =>
      (declaration.firstKept? line).map fun name => ⟨name, file, number⟩

/-- The export is of a kind that is expected to be used. -/
def isCounted (e : Export) : Bool :=
  !reserved.contains (String.ofList e.name) && !Pattern.barrelFiles.accepts e.file

/-- The files among some that are readable and not empty, with their texts. -/
def textsOf (c : Context) (t : Tree) (files : List String) : List (String × String) :=
  files.filterMap fun path => (c.readNonempty? t path).map (path, ·)

/-- The exports in some files whose names occur only once in all of them. -/
def unused (files : List (String × String)) : List Export :=
  let words := files.flatMap fun file => Pattern.wordsOf file.2.toList
  (files.flatMap fun file => exportsIn file.1 file.2).filter fun e =>
    isCounted e && decide (words.count e.name ≤ 1)

/-- The greatest number of findings. -/
def maxFindings : Nat := 15

/-- What is said of an unused export. -/
def message (name : List Char) : String := "Export \"" ++ String.ofList name ++ "\" appears unused"

/-- Nothing but its declaration names an export of the sources. -/
def findings (c : Context) (t : Tree) : List Finding :=
  let files := c.findFiles t .sourceFiles
  if maxFiles < files.length then []
  else
    ((unused (textsOf c t files)).take maxFindings).map fun e =>
      (info.finding e.file (message e.name)).atLine e.line

/-- Nothing but its declaration names an export of a package that is no library. -/
def check (c : Context) (t : Tree) : Except RuleFault (List Finding) :=
  (Rule.members c t Manifest.fileName).map fun manifest =>
    if manifest.any isLibrary then [] else findings c t

def rule : Rule := ⟨info, check, none⟩

end UnusedExports

namespace UnusedComponents

def info : RuleInfo where
  id := "dead/unused-components"
  name := "Unused Components"
  category := .dead
  severity := .warning
  description := "React components defined but never imported/used"
  help := "Remove unused components or use them in your pages"
  appliesTo := [.frameworkApp]
  bias := "Relies on PascalCase file names matching the component name (false negatives otherwise)."

/-- The component that a file holds by its name. -/
def componentOf (path : String) : String := Path.stem (Path.baseName path)

/-- The number of uses of a component in a text. -/
def uses (text : List Char) (component : String) : Nat :=
  ((Pattern.componentUse component).all text).length

/-- What is said of an unused component. -/
def message (component : String) : String := "Component \"" ++ component ++ "\" appears unused"

/-- A component is used once at most. -/
def check (c : Context) (t : Tree) : List Finding :=
  let files := c.findFiles t .sourceFiles
  if maxFiles < files.length then []
  else
    let text := (c.readAll t files).toList
    let components := (c.findFiles t .markupFiles).filter Pattern.componentFiles.accepts
    (components.filter fun path => decide (uses text (componentOf path) ≤ 1)).map fun path =>
      info.finding path (message (componentOf path))

def rule : Rule := .ofCheck info check

end UnusedComponents

/-- The rules on dead code, in their order. -/
def rules : List Rule := [OrphanFiles.rule, UnusedExports.rule, UnusedComponents.rule]

end Checkup.DeadCode
