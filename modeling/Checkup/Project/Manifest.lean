import Checkup.Json.Parser
import Checkup.Tree.Resolve

/-!
# Package manifests

* `get?_dependencies`: a development dependency wins over a runtime one of the same name.
-/

namespace Checkup.Manifest

/-- The name of the manifest's file. -/
def fileName : String := "package.json"

/-- Reads the members of the manifest in a directory; none if there is no readable object. -/
def load (t : Tree) (directory : List String) : Except Fault Json.Members :=
  match t.readText (directory ++ [fileName]) with
  | .error _ => .ok []
  | .ok text => (Json.load text).map fun value => (value.bind Json.members?).getD []

/-- A section of the manifest as members; none if it is no object. -/
def section? (manifest : Json.Members) (name : String) : Option Json.Members :=
  (manifest.get? name).bind Json.members?

/-- The sections that hold dependencies, in order. -/
def dependencySections : List String := ["dependencies", "devDependencies"]

/-- All dependencies of a manifest; an entry for development replaces one for runtime. -/
def dependencies (manifest : Json.Members) : Json.Members :=
  dependencySections.foldl (fun merged name => merged.merge ((section? manifest name).getD [])) []

/-- What a member is that is a string and not empty. -/
def label? (manifest : Json.Members) (name : String) : Option Label :=
  (manifest.get? name).bind Json.label?

theorem get?_dependencies {manifest runtime development : Json.Members}
    (hr : section? manifest "dependencies" = some runtime)
    (hd : section? manifest "devDependencies" = some development)
    (hrn : runtime.keys.Nodup) (hdn : development.keys.Nodup) (name : Label) :
    (dependencies manifest).get? name = (development.get? name).or (runtime.get? name) := by
  simp only [dependencies, dependencySections, List.foldl_cons, List.foldl_nil, hr, hd,
    Option.getD_some]
  rw [Json.Members.get?_merge _ hdn, Json.Members.get?_merge _ hrn, Json.Members.get?_nil]
  simp

end Checkup.Manifest
