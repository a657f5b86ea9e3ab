import Checkup.Ignore.Rule
import Checkup.Json.Parser
import Checkup.Json.Printer
import Checkup.Project.Basic
import Checkup.Tree.Edit

/-!
# Scan contexts

A context is the view of one scan root that rules get. Paths in it are relative to the root. Reading
a text never fails and reading JSON fails only if it is nested too deep; neither reading nor writing
leaves the root, whatever links there are on the way.

* `readText?_eq_some`: a text is read only from a location in the root.
* `locate_in_root`: a path that is located lies in the root.
-/

namespace Checkup

/-- A scan root with the project it belongs to. -/
structure Context where
  /-- The steps of the root's path from the root directory, as they were given. -/
  root : List String
  project : Project
  isWorkspace : Bool
  /-- The path of the root relative to the project. -/
  relativeRoot : String
  ignoreRules : List IgnoreRule
  deriving Inhabited

namespace Context

/-- The context of a scan root; slashes around its path relative to the project mean nothing. -/
def forRoot (root : List String) (project : Project) (isWorkspace : Bool) (relativeRoot : String)
    (ignoreRules : List IgnoreRule) : Context :=
  ⟨root, project, isWorkspace, Text.trim (· == '/') relativeRoot, ignoreRules⟩

/-- The location of a path, which must be the root or lie below it. -/
def locate (c : Context) (t : Tree) (path : String) : Except Fault Location := do
  let root ← t.resolveSteps c.root
  let target ← t.resolve root path
  if root.isPrefixOf target then pure target else throw (.outsideRoot path)

/-- The path leads to something in the root. -/
def fileExists (c : Context) (t : Tree) (path : String) : Bool :=
  match c.locate t path with
  | .ok target => (t.exists? target).toOption.getD false
  | .error _ => false

/-- The text of a file in the root; none if there is no readable one. -/
def readText? (c : Context) (t : Tree) (path : String) : Option String :=
  match c.locate t path with
  | .ok target => (t.readText target).toOption
  | .error _ => none

/-- The text of a file in the root that is not empty. -/
def readNonempty? (c : Context) (t : Tree) (path : String) : Option String :=
  (c.readText? t path).filter (· != "")

/-- The JSON value in a file in the root; none if there is no well-formed one. -/
def readJson (c : Context) (t : Tree) (path : String) : Except Fault (Option Json) :=
  match c.readText? t path with
  | none => .ok none
  | some text => Json.load text

/-- The members of the JSON object in a file in the root. -/
def readMembers (c : Context) (t : Tree) (path : String) : Except Fault (Option Json.Members) :=
  (c.readJson t path).map (·.bind Json.members?)

/-- Writes a text to a file in the root, whose folders are made first. -/
def writeText (c : Context) (t : Tree) (path text : String) : Except Fault Unit × Tree :=
  match c.locate t path with
  | .ok target => t.writeText target text
  | .error fault => (.error fault, t)

/-- Writes a JSON value to a file in the root, indented and with a newline at the end. -/
def writeJson (c : Context) (t : Tree) (path : String) (value : Json) : Except Fault Unit × Tree :=
  if Json.maxNesting < value.nesting then (.error .tooDeep, t)
  else c.writeText t path (value.pretty ++ "\n")

/-- The texts of the readable files among some, each with a newline after it. -/
def readAll (c : Context) (t : Tree) (paths : List String) : String :=
  String.join ((paths.filterMap (c.readNonempty? t)).map (· ++ "\n"))

/-! ## The sandbox -/

theorem locate_in_root {c : Context} {t : Tree} {path : String} {target : Location}
    (h : c.locate t path = .ok target) :
    ∃ root, t.resolveSteps c.root = .ok root ∧ root <+: target := by
  simp only [locate, bind, Except.bind] at h
  split at h
  · simp at h
  · rename_i root hroot
    split at h
    · simp at h
    · split at h
      · rename_i hp
        simp only [pure, Except.pure, Except.ok.injEq] at h
        subst h
        exact ⟨root, hroot, List.isPrefixOf_iff_prefix.mp hp⟩
      · simp [throw, throwThe, MonadExceptOf.throw] at h

theorem readText?_eq_some {c : Context} {t : Tree} {path text : String}
    (h : c.readText? t path = some text) :
    ∃ root target, t.resolveSteps c.root = .ok root ∧ root <+: target ∧
      t.readText target = .ok text := by
  simp only [readText?] at h
  split at h
  · rename_i target hl
    obtain ⟨root, hroot, hp⟩ := locate_in_root hl
    refine ⟨root, target, hroot, hp, ?_⟩
    cases hr : t.readText target with
    | error f => simp [hr, Except.toOption] at h
    | ok s =>
      simp only [hr, Except.toOption, Option.some.injEq] at h
      rw [h]
  · simp at h

end Context

end Checkup
