import Checkup.Association
import Checkup.Tree.Path

/-!
# File trees

A tree gives a node to each location in it: a file with its bytes, a folder, or a symbolic link with
its target as written. A location lists the names from the root directory; the root directory itself
is always there.

* `node?_put`: putting a node changes the tree at its location only.
-/

namespace Checkup

/-- The names from the root directory to a node. -/
abbrev Location := List String

/-- Contents are compared byte by byte. -/
instance (priority := high) decidableEqBytes : DecidableEq ByteArray := ByteArray.instDecidableEq

/-- What stands at a location. -/
inductive Node
  | file (bytes : ByteArray)
  | folder
  | link (target : String)
  deriving DecidableEq, Inhabited

/-- A file tree. -/
structure Tree where
  entries : List (Location × Node)
  deriving DecidableEq, Inhabited

namespace Tree

/-- The tree with nothing but the root directory. -/
def empty : Tree := ⟨[]⟩

/-- The node at a location. -/
def node? (t : Tree) (location : Location) : Option Node :=
  if location = [] then some .folder else t.entries.lookup location

/-- The tree with a node at a location. -/
def put (t : Tree) (location : Location) (node : Node) : Tree :=
  ⟨Association.put t.entries location node⟩

/-- The tree without a location and all that lies below it. -/
def remove (t : Tree) (location : Location) : Tree :=
  ⟨t.entries.filter fun entry => !location.isPrefixOf entry.1⟩

/-- The name of an entry directly below a location. -/
def childName? (parent : Location) (location : Location) : Option String :=
  match location.getLast? with
  | some name => if location = parent ++ [name] then some name else none
  | none => none

/-- The order of names by code points. -/
def nameLE (a b : String) : Bool := !decide (b < a)

/-- The names directly below a location, in the order of their code points, each once. -/
def children (t : Tree) (location : Location) : List String :=
  ((t.entries.filterMap fun entry => childName? location entry.1).mergeSort nameLE).eraseReps

/-! ## The view through `node?` -/

@[simp] theorem node?_nil (t : Tree) : t.node? [] = some .folder := rfl

theorem node?_put (t : Tree) {location : Location} (h : location ≠ []) (node : Node)
    (other : Location) :
    (t.put location node).node? other = if other = location then some node else t.node? other := by
  by_cases ho : other = []
  · subst ho
    simp [Ne.symm h]
  · simp [node?, put, ho, Association.lookup_put]

end Tree

end Checkup
