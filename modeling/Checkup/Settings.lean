import Checkup.Project.Manifest
import Checkup.Yaml.Document

/-!
# Settings of a project

The settings file names rules to leave out, categories to keep, paths to ignore and the number of
workers. A project without the file has no settings; a file that cannot be read, is not well formed
or holds no mapping is refused.

* `ofDocument_of_not_given`: an empty file says nothing.
-/

namespace Checkup

open Number (Binary64)

/-- What a settings file says. -/
structure Settings where
  root : Location
  disabled : List String
  categories : List String
  excluded : List String
  workers : Option Int
  deriving DecidableEq, Repr, Inhabited

/-- Why there are no settings. -/
inductive SettingsFault
  | unreadable (file : String) (fault : Fault)
  | malformed (file : String)
  | notMapping
  | notText
  /-- The text is well formed, but a value in it does not exist. -/
  | badValue (fault : Yaml.Error)
  | access (fault : Fault)
  deriving DecidableEq, Repr, Inhabited

namespace Settings

/-- The name of the settings file. -/
def fileName : String := ".repodoctor.yml"

/-- The settings of a project that has none. -/
def unset (root : Location) : Settings := ⟨root, [], [], [], none⟩

/-! ## Values -/

/-- The value says something: it is not null, false, zero or empty. -/
def isGiven : Yaml.Value → Bool
  | .null => false
  | .bool b => b
  | .int n => n != 0
  | .float x => !x.isZero
  | .str s => s != .text ""
  | .bytes bs => !bs.isEmpty
  | .moment => true
  | .seq items => !items.isEmpty
  | .map pairs => !pairs.isEmpty
  | .set keys => !keys.isEmpty
  | .pairs entries => !entries.isEmpty

/-- The text of an item of a list: a string, or a number in digits. An integer may be too long to be
written. A string that is no text counts as the nearest one. -/
def itemText? : Yaml.Value → Except Yaml.Error (Option String)
  | .str s => .ok (some s.nearest)
  | .int n =>
    let text := Number.intText n
    if Number.maxDecimalDigits < (Number.intText n.natAbs).length then .error .noSuchValue
    else .ok (some text)
  | .float x => .ok (some (x.text Binary64.plainLayout))
  | _ => .ok none

/-- The texts of a value in a document: one string, or the strings and numbers of a sequence. -/
def texts (d : Yaml.Document) : Option Yaml.Value → Except Yaml.Error (List String)
  | some (.str s) => .ok [s.nearest]
  | some (.bytes bs) => .ok (bs.map toString)
  | some value => (((d.items? value).getD []).mapM itemText?).map fun found => found.filterMap id
  | none => .ok []

/-- An integer, or a string that reads as one. -/
def integer? : Option Yaml.Value → Option Int
  | some (.int n) => some n
  | some (.str s) => Number.parseInt? 10 s.nearest.toList
  | _ => none

/-- The settings that the mapping at the root of a document states. Fewer than one worker counts as
nothing said. -/
def ofMapping (root : Location) (d : Yaml.Document) : Except Yaml.Error Settings := do
  let rules := d.member? d.root "rules"
  let disabled ← texts d (rules.bind (d.member? · "disabled"))
  let categories ← texts d (rules.bind (d.member? · "categories"))
  let excluded ← texts d (d.member? d.root "exclude_paths")
  pure {
    root := root
    disabled := disabled
    categories := categories.map Text.lower
    excluded := excluded
    workers := (integer? (d.member? d.root "workers")).filter (1 ≤ ·) }

/-- The settings that the document of the file states. -/
def ofDocument (root : Location) (d : Yaml.Document) : Except SettingsFault Settings :=
  if !isGiven d.root then .ok (unset root)
  else
    match d.root with
    | .map _ => (ofMapping root d).mapError .badValue
    | _ => .error .notMapping

/-! ## Files -/

/-- The text of the settings file says nothing at all. -/
def isBlankText (text : String) : Bool := text.toList.all Text.isBlank

/-- The settings in a text; `file` is the name of the file it comes from. -/
def ofText (root : Location) (file text : String) : Except SettingsFault Settings :=
  if isBlankText text then .ok (unset root)
  else
    match Yaml.Document.ofText text.toList with
    | .error .malformed => .error (.malformed file)
    | .error fault => .error (.badValue fault)
    | .ok d => ofDocument root d

/-- The settings in the file at a location. -/
def ofFile (t : Tree) (file : Location) : Except SettingsFault Settings :=
  let name := file.getLast?.getD ""
  match t.readText file with
  | .error .notText => .error .notText
  | .error fault => .error (.unreadable name fault)
  | .ok text => ofText file.dropLast name text

/-- The path of the settings file for a path: in the directory it leads to, the file itself, or
beside the file it leads to. -/
def filePath (t : Tree) (current : List String) (path : String) : Except Fault (List String) := do
  let steps := Path.stepsFrom current path
  let isFolder ← if '\x00' ∈ path.toList then pure false else t.isFolder? steps
  if isFolder then pure (steps ++ [fileName])
  else if steps.getLast? = some fileName then pure steps
  else pure (steps.dropLast ++ [fileName])

/-- The settings that hold for a path. -/
def load (t : Tree) (current : List String) (path : String) : Except SettingsFault Settings := do
  let steps ← (filePath t current path).mapError .access
  if steps.any fun step => step.toList.contains '\x00' then throw (.access .nulByte)
  let file ← (t.resolveSteps steps).mapError .access
  if ← (t.exists? file).mapError .access then ofFile t file else pure (unset file.dropLast)

theorem ofDocument_of_not_given {root : Location} {d : Yaml.Document}
    (h : isGiven d.root = false) : ofDocument root d = .ok (unset root) := by
  simp [ofDocument, h]

end Settings

namespace SettingsFault

/-- The text of a fault. -/
def message : SettingsFault → String
  | unreadable file fault => "Failed to read " ++ file ++ ": " ++ fault.message
  | malformed file => "Failed to parse " ++ file ++ ": it is not well-formed YAML"
  | notMapping => Settings.fileName ++ " must contain a mapping at the root"
  | notText => Fault.notText.message
  | badValue _ => "a value in " ++ Settings.fileName ++ " does not exist"
  | access fault => fault.message

/-- A run goes on without settings after this fault. -/
def isTolerated : SettingsFault → Bool
  | unreadable .. | malformed _ | notMapping => true
  | _ => false

end SettingsFault

end Checkup
