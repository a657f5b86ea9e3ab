import Checkup.Fault
import Checkup.Tree.Basic
import Checkup.Text.Lines

/-!
# Following paths through links

Two ways to find where a path leads. `follow` walks the tree step by step as an access does: every
step is taken in a folder, links lead on, and only so many of them. `resolve` computes an absolute
path without links: it also answers for paths that lead nowhere, whose missing part it takes as
written.

* `walk_plain`: without links on the way, following plain steps through folders appends them.
-/

namespace Checkup

namespace Tree

/-- Where following a path ends: at a node, or at a free place in a folder. -/
inductive Place
  | present (location : Location) (node : Node)
  | vacant (location : Location)
  deriving Inhabited

/-- The greatest length of a name in bytes. -/
def maxNameBytes : Nat := 255

/-- The greatest length of a whole path in bytes. -/
def maxPathBytes : Nat := 4095

/-- The greatest number of links that one access follows. -/
def maxLinks : Nat := 40

/-- The directory at which the target of a link in `folder` starts. -/
def linkStart (folder : Location) (target : String) : Location :=
  if Path.isAbsolute target then [] else folder

/-- Walks the steps from a location. A link is handed on together with its folder and the steps
still to take. -/
def walk (t : Tree) (onLink : Location → String → List String → Except Fault Place) :
    Location → List String → Except Fault Place
  | here, [] =>
    match t.node? here with
    | some node => .ok (.present here node)
    | none => .error .missing
  | here, name :: rest =>
    match t.node? here with
    | none => .error .missing
    | some .folder =>
      if name = "." then walk t onLink here rest
      else if name = ".." then walk t onLink here.dropLast rest
      else if maxNameBytes < name.utf8ByteSize then .error .nameTooLong
      else
        match t.node? (here ++ [name]) with
        | none => if rest.isEmpty then .ok (.vacant (here ++ [name])) else .error .missing
        | some (.link target) => onLink here target rest
        | some _ => walk t onLink (here ++ [name]) rest
    | some _ => .error .notFolder

/-- Follows steps from a location through at most the given number of links. -/
def follow (t : Tree) : Nat → Location → List String → Except Fault Place
  | 0 => walk t fun _ _ _ => .error .tooManyLinks
  | links + 1 => walk t fun folder target rest =>
      follow t links (linkStart folder target) (Path.linkSteps target ++ rest)

/-- The length of the absolute path with these steps. -/
def pathBytes (steps : List String) : Nat :=
  steps.foldr (fun name bytes => name.utf8ByteSize + 1 + bytes) 0

/-- Where the absolute path with these steps leads. -/
def find (t : Tree) (steps : List String) : Except Fault Place :=
  if maxPathBytes < pathBytes steps then .error .nameTooLong else t.follow maxLinks [] steps

/-- The node to which the absolute path with these steps leads, with its location. -/
def access (t : Tree) (steps : List String) : Except Fault (Location × Node) :=
  match t.find steps with
  | .ok (.present location node) => .ok (location, node)
  | .ok (.vacant _) => .error .missing
  | .error fault => .error fault

/-- The fault says that there is nothing at the path. -/
def Fault.saysAbsent : Fault → Bool
  | .missing | .notFolder | .tooManyLinks => true
  | _ => false

/-- The path leads to a node with a property; a path that leads nowhere does not. -/
def holdsAt (t : Tree) (steps : List String) (property : Node → Bool) : Except Fault Bool :=
  match t.access steps with
  | .ok (_, node) => .ok (property node)
  | .error fault => if Fault.saysAbsent fault then .ok false else .error fault

/-- The path leads to a node. -/
def exists? (t : Tree) (steps : List String) : Except Fault Bool := t.holdsAt steps fun _ => true

/-- The path leads to a folder. -/
def isFolder? (t : Tree) (steps : List String) : Except Fault Bool :=
  t.holdsAt steps fun node => node = .folder

/-- The bytes of the file to which a path leads. -/
def readBytes (t : Tree) (steps : List String) : Except Fault ByteArray :=
  match t.access steps with
  | .ok (_, .file bytes) => .ok bytes
  | .ok (_, .folder) => .error .isFolder
  | .ok (_, .link _) => .error .tooManyLinks
  | .error fault => .error fault

/-- The text that bytes are, with every newline as `\n`. -/
def decodeText (bytes : ByteArray) : Except Fault String :=
  match String.fromUTF8? bytes with
  | some text => .ok (String.ofList (Text.normalizeNewlines text.toList))
  | none => .error .notText

/-- The text of the file to which a path leads. -/
def readText (t : Tree) (steps : List String) : Except Fault String :=
  (t.readBytes steps).bind decodeText

/-! ## Absolute paths without links -/

/-- What a path comes to: a location without links, or a path on which a link leads back to itself,
with the rest as written. -/
inductive Resolved
  | straight (location : Location)
  | looping (steps : List String)
  deriving Inhabited

/-- Resolves steps from a location without links; `expand` resolves the target of a link. -/
def resolveWith (t : Tree) (expand : Location → String → Resolved) :
    Location → List String → Resolved
  | here, [] => .straight here
  | here, name :: rest =>
    if name = "." then resolveWith t expand here rest
    else if name = ".." then resolveWith t expand here.dropLast rest
    else
      match t.node? (here ++ [name]) with
      | some (.link target) =>
        match expand (here ++ [name]) target with
        | .straight location => resolveWith t expand location rest
        | .looping steps => .looping (steps ++ rest)
      | _ => resolveWith t expand (here ++ [name]) rest

/-- Resolves steps; `pending` lists the links whose targets are being resolved, and `fuel` bounds
how many more there can be. -/
def resolveFrom (t : Tree) : Nat → List Location → Location → List String → Resolved
  | 0, _ => resolveWith t fun link _ => .looping link
  | fuel + 1, pending => resolveWith t fun link target =>
      if link ∈ pending then .looping link
      else
        resolveFrom t fuel (link :: pending) (linkStart link.dropLast target)
          (Path.linkSteps target)

/-- The number of links in the tree. -/
def linkCount (t : Tree) : Nat :=
  (t.entries.filter fun entry => match entry.2 with | .link _ => true | _ => false).length

/-- The location that steps from the root directory come to. On a loop of links the rest is taken as
written, and it is an error if an access to the outcome still meets the loop. -/
def resolveSteps (t : Tree) (steps : List String) : Except Fault Location :=
  match t.resolveFrom (t.linkCount + 1) [] [] steps with
  | .straight location => .ok location
  | .looping steps =>
    let location := Path.normalSteps true (steps.filter Path.isStep)
    match t.find location with
    | .error .tooManyLinks => .error (.linkLoop (Path.absolute location))
    | _ => .ok location

/-- The location that a path, taken from a directory, comes to. -/
def resolve (t : Tree) (directory : List String) (path : String) : Except Fault Location :=
  if '\x00' ∈ path.toList then .error .nulByte
  else t.resolveSteps (Path.stepsFrom directory path)

/-! ## Paths without links -/

/-- Every step of `steps` from a location is a plain name at which a folder stands. -/
def FoldersOn (t : Tree) (location : Location) : List String → Prop
  | [] => t.node? location = some .folder
  | name :: rest =>
    t.node? location = some .folder ∧ name ≠ "." ∧ name ≠ ".." ∧ name.utf8ByteSize ≤ maxNameBytes ∧
      FoldersOn t (location ++ [name]) rest

theorem FoldersOn.here {t : Tree} {location : Location} {steps : List String}
    (h : t.FoldersOn location steps) : t.node? location = some .folder := by
  cases steps with
  | nil => exact h
  | cons name rest => exact h.1

theorem walk_plain {t : Tree} {onLink : Location → String → List String → Except Fault Place}
    {location : Location} {steps more : List String} (h : t.FoldersOn location steps) :
    t.walk onLink location (steps ++ more) = t.walk onLink (location ++ steps) more := by
  induction steps generalizing location with
  | nil => simp
  | cons name rest ih =>
    obtain ⟨hf, h1, h2, hlen, hrest⟩ := h
    have hn := hrest.here
    simp only [List.cons_append]
    rw [walk.eq_def]
    simp only [hf, h1, h2, if_false, Nat.not_lt.mpr hlen, hn]
    rw [ih hrest]
    simp

end Tree

end Checkup
