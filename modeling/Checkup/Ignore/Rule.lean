import Checkup.Ignore.Glob

/-!
# Ignore rules

A line of an ignore list is a shell pattern with three marks: a slash at its end restricts it to
folders, a slash at its start or inside it ties it to the whole path, and a number sign makes it a
remark. A pattern that is not tied is tried on every name of the path.

* `ofLines_append`: the rules of two lists are the rules of the one, then of the other.
* `ignoredBy_append`: a list ignores what either of its parts ignores.
-/

namespace Checkup

/-- A rule of an ignore list. -/
structure IgnoreRule where
  pattern : String
  directoryOnly : Bool
  anchored : Bool
  hasSlash : Bool
  deriving DecidableEq, Repr, Inhabited

namespace IgnoreRule

/-- Takes a slash from the end of a text. -/
def dropSlashAtEnd (s : List Char) : List Char :=
  if Text.endsWith s ['/'] then s.dropLast else s

/-- Takes a slash from the start of a text. -/
def dropSlashAtStart : List Char → List Char
  | '/' :: rest => rest
  | s => s

/-- The rule that a line states; none for an empty line or a remark. -/
def ofLine? (line : String) : Option IgnoreRule :=
  let text := (Text.trimBlank line).toList
  if text.isEmpty || text.head? == some '#' then none
  else
    let body := dropSlashAtEnd text
    let pattern := dropSlashAtStart body
    some {
      pattern := String.ofList pattern
      directoryOnly := Text.endsWith text ['/']
      anchored := body.head? == some '/'
      hasSlash := pattern.contains '/' }

/-- The rules that lines state. -/
def ofLines (lines : List String) : List IgnoreRule := lines.filterMap ofLine?

/-- The rule matches a path, given whether a folder is there. A tied pattern matches the path, or a
folder above it that is spelled like the pattern; any other pattern matches one of the names. -/
def ignores (rule : IgnoreRule) (path : String) (isFolder : Bool) : Bool :=
  if rule.pattern = "" then false
  else if rule.directoryOnly && !isFolder then false
  else if rule.anchored || rule.hasSlash then
    Glob.matchesText rule.pattern path || Text.startsWith path (rule.pattern ++ "/")
  else (Text.pieces '/' path).any (Glob.matchesText rule.pattern)

end IgnoreRule

/-- One of the rules matches the path. -/
def ignoredBy (rules : List IgnoreRule) (path : String) (isFolder : Bool) : Bool :=
  rules.any fun rule => rule.ignores path isFolder

namespace IgnoreRule

theorem ofLines_append (first second : List String) :
    ofLines (first ++ second) = ofLines first ++ ofLines second := by
  simp [ofLines]

theorem ignoredBy_append (first second : List IgnoreRule) (path : String) (isFolder : Bool) :
    ignoredBy (first ++ second) path isFolder =
      (ignoredBy first path isFolder || ignoredBy second path isFolder) := by
  simp [ignoredBy]

end IgnoreRule

end Checkup
