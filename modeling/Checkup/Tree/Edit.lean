import Checkup.Tree.Resolve

/-!
# Writing files

Writing a file makes the folders above it first. Both report a fault together with the tree as it
was left, since folders made before the fault stay. What became of a tree is told by its locations.

* `eq_put_of_writeBytes`: a write that succeeds changes one location, to which its path leads.
-/

namespace Checkup.Tree

/-- Makes one folder in a folder that is there. A folder that is already there is fine. -/
def makeFolder (t : Tree) (steps : List String) : Except Fault Tree :=
  match steps.getLast? with
  | none => .ok t
  | some name =>
    match t.access steps.dropLast with
    | .error fault => .error fault
    | .ok (parent, .folder) =>
      if name = ".." then .ok t
      else if maxNameBytes < name.utf8ByteSize then .error .nameTooLong
      else
        match t.node? (parent ++ [name]) with
        | none => .ok (t.put (parent ++ [name]) .folder)
        | some _ =>
          match t.isFolder? steps with
          | .ok true => .ok t
          | .ok false => .error .alreadyThere
          | .error fault => .error fault
    | .ok _ => .error .notFolder

/-- Makes the folder with these steps, in reverse, after the missing ones above it. -/
def makeFoldersUp (t : Tree) : List String → Except Fault Unit × Tree
  | [] => (.ok (), t)
  | name :: up =>
    match t.makeFolder (name :: up).reverse with
    | .ok made => (.ok (), made)
    | .error .missing =>
      match makeFoldersUp t up with
      | (.error fault, left) => (.error fault, left)
      | (.ok (), above) =>
        match above.makeFolder (name :: up).reverse with
        | .ok made => (.ok (), made)
        | .error fault => (.error fault, above)
    | .error fault => (.error fault, t)

/-- Makes the folder with these steps and the missing ones above it. -/
def makeFolders (t : Tree) (steps : List String) : Except Fault Unit × Tree :=
  t.makeFoldersUp steps.reverse

/-- Writes the file to which a path leads, or makes it in a folder that is there. -/
def writeBytes (t : Tree) (steps : List String) (bytes : ByteArray) : Except Fault Tree :=
  match t.find steps with
  | .ok (.present location (.file _)) => .ok (t.put location (.file bytes))
  | .ok (.vacant location) => .ok (t.put location (.file bytes))
  | .ok (.present _ .folder) => .error .isFolder
  | .ok (.present _ (.link _)) => .error .tooManyLinks
  | .error fault => .error fault

/-- Writes a text to the file at these steps and makes the missing folders above it. -/
def writeText (t : Tree) (steps : List String) (text : String) : Except Fault Unit × Tree :=
  match t.makeFolders steps.dropLast with
  | (.error fault, left) => (.error fault, left)
  | (.ok (), made) =>
    match made.writeBytes steps text.toUTF8 with
    | .ok written => (.ok (), written)
    | .error fault => (.error fault, made)

/-- What became of a location: it has a new node, or none any more. -/
inductive Change
  | now (node : Node)
  | removed
  deriving DecidableEq, Inhabited

/-- The locations at which two trees have different nodes, with what became of them. -/
def changes (before after : Tree) : List (Location × Change) :=
  let altered := after.entries.filterMap fun (location, _) =>
    if after.node? location = before.node? location then none
    else (after.node? location).map fun node => (location, Change.now node)
  let removed := before.entries.filterMap fun (location, _) =>
    if (after.node? location).isNone then some (location, Change.removed) else none
  altered ++ removed

theorem eq_put_of_writeBytes {t written : Tree} {steps : List String} {bytes : ByteArray}
    (h : t.writeBytes steps bytes = .ok written) :
    ∃ location, written = t.put location (.file bytes) ∧
      (t.find steps = .ok (.vacant location) ∨
        ∃ old, t.find steps = .ok (.present location (.file old))) := by
  simp only [writeBytes] at h
  split at h
  · rename_i location old hf
    exact ⟨location, by simpa using h.symm, .inr ⟨old, hf⟩⟩
  · rename_i location hf
    exact ⟨location, by simpa using h.symm, .inl hf⟩
  all_goals simp at h

end Checkup.Tree
