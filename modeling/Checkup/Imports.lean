import Checkup.Pattern.Code
import Checkup.Scan.Walk

/-!
# Imports between source files

A relative import names a file without its extension or a folder. Which of them is meant is not
decided here: every path that could be meant counts as imported.

* `mem_imported_iff`: an imported path is a candidate of a relative import in a readable file.
-/

namespace Checkup.Imports

/-- The extensions that an import leaves out. -/
def extensions : List String := [".ts", ".tsx", ".js", ".jsx"]

/-- What can stand behind the path that an import names. -/
def suffixes : List String := [""] ++ extensions ++ extensions.map ("/index" ++ ·)

/-- A path without its extension, if it is one of `extensions`. -/
def withoutExtension (path : String) : String :=
  match extensions.find? fun e => Text.endsWith path.toList e.toList with
  | some e => String.ofList (path.toList.take (path.length - e.length))
  | none => path

/-- The path that a relative import names, from the root. -/
def named (importer specifier : String) : String :=
  Path.normal (Path.join (Path.dirName importer) specifier)

/-- Every path that a relative import could mean. -/
def candidates (importer specifier : String) : List String :=
  let path := named importer specifier
  ([path, withoutExtension path].flatMap fun base => suffixes.map (base ++ ·)).eraseDups

/-- The specifiers of the imports in a text. -/
def specifiersIn (text : String) : List String :=
  (Pattern.importSpecifier.all text.toList).filterMap fun found =>
    found.kept.head?.map String.ofList

/-- A specifier is relative to the importing file. -/
def isRelative (specifier : String) : Bool := Text.startsWith specifier "."

/-- The paths that a file's text imports. -/
def importedBy (path text : String) : List String :=
  ((specifiersIn text).filter isRelative).flatMap (candidates path)

/-- The paths that some files import. -/
def imported (c : Context) (t : Tree) (files : List String) : List String :=
  (files.flatMap fun path =>
    match c.readNonempty? t path with
    | none => []
    | some text => importedBy path text).eraseDups

theorem mem_imported_iff {c : Context} {t : Tree} {files : List String} {target : String} :
    target ∈ imported c t files ↔
      ∃ path ∈ files, ∃ text, c.readNonempty? t path = some text ∧
        ∃ specifier ∈ specifiersIn text, isRelative specifier ∧
          target ∈ candidates path specifier := by
  simp only [imported, List.mem_eraseDups, List.mem_flatMap]
  constructor
  · rintro ⟨path, hp, h⟩
    cases hr : c.readNonempty? t path with
    | none => simp [hr] at h
    | some text =>
      simp only [hr, importedBy, List.mem_flatMap, List.mem_filter] at h
      obtain ⟨specifier, ⟨hs, hrel⟩, hc⟩ := h
      exact ⟨path, hp, text, hr, specifier, hs, hrel, hc⟩
  · rintro ⟨path, hp, text, hr, specifier, hs, hrel, hc⟩
    refine ⟨path, hp, ?_⟩
    simp only [hr, importedBy, List.mem_flatMap, List.mem_filter]
    exact ⟨specifier, ⟨hs, hrel⟩, hc⟩

end Checkup.Imports
