import Checkup.Pattern.Basic

/-!
# Kinds of files by their paths

Patterns on paths relative to a scan root.
-/

namespace Checkup.Pattern

/-- A path that ends in a dot and one of some extensions. -/
def extension (extensions : List String) : Pattern :=
  sequence [char '.', anyText extensions, stop]

/-- A file with one of some names and one of some extensions, in any folder. -/
def fileNamed (names extensions : List String) : Pattern :=
  sequence [nameStart, anyText names, extension extensions]

/-- Source files. -/
def sourceFiles : Pattern := extension ["ts", "tsx", "js", "jsx"]

/-- Source files and files of one module system only. -/
def extendedSourceFiles : Pattern := extension ["ts", "tsx", "js", "jsx", "mjs", "cjs"]

/-- Files with markup in their code. -/
def markupFiles : Pattern := extension ["tsx", "jsx"]

/-- Pages of an application. -/
def pageFiles : Pattern := fileNamed ["page"] ["tsx", "jsx", "ts", "js"]

/-- Pages with markup. -/
def markupPageFiles : Pattern := fileNamed ["page"] ["tsx", "jsx"]

/-- Files that run on the server unless they say otherwise. -/
def serverFiles : Pattern := fileNamed ["page", "layout"] ["tsx", "jsx"]

/-- Layouts. -/
def layoutFiles : Pattern := fileNamed ["layout"] ["tsx", "jsx"]

/-- Handlers of routes. -/
def routeFiles : Pattern := fileNamed ["route"] ["ts", "js", "tsx", "jsx"]

/-- Files that gather the exports of a folder. -/
def barrelFiles : Pattern := fileNamed ["index"] ["ts", "tsx", "js", "jsx"]

/-- A capital ASCII letter. -/
def isCapital (c : Char) : Bool := decide ('A' ≤ c) && decide (c ≤ 'Z')

/-- An ASCII letter. -/
def isLetter (c : Char) : Bool := isCapital c || (decide ('a' ≤ c) && decide (c ≤ 'z'))

/-- Files named like a component: a capital letter and further letters. -/
def componentFiles : Pattern :=
  sequence [nameStart, one isCapital, run1 isLetter, extension ["tsx", "jsx"]]

/-- Files that a framework or tool loads by convention, so that nothing imports them. -/
def entryPoints : List Pattern := [
  fileNamed ["page", "layout", "route", "loading", "error", "global-error", "not-found", "template",
    "default"] ["tsx", "jsx", "ts", "js"],
  fileNamed ["middleware"] ["ts", "js"],
  barrelFiles,
  sequence [text ".config", extension ["ts", "js", "mjs", "cjs"]],
  sequence [char '.', anyText ["test", "spec", "stories"], extension ["ts", "tsx", "js", "jsx"]],
  sequence [nameStart, text "__tests__/"],
  fileNamed ["cli"] ["ts", "js"],
  sequence [text ".d", extension ["ts"]]]

/-- The path is that of an entry point. -/
def isEntryPoint (path : String) : Bool := entryPoints.any (·.foundIn path.toList)

/-- The pattern occurs in the path. -/
def accepts (p : Pattern) (path : String) : Bool := p.foundIn path.toList

end Checkup.Pattern
