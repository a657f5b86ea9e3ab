import Checkup.Text.Search

/-!
# Paths as texts

A path is written with slashes. Its steps are the names between them, without empty ones and without
`.`; `..` is a step of its own until a path is brought to its normal form.

* `normalSteps_append_singleton`: a plain name goes onto the normal form.
* `normalSteps_of_plain`: steps without `..` are a normal form.
-/

namespace Checkup.Path

/-- The path begins at the root directory. -/
def isAbsolute (path : String) : Bool := Text.startsWith path "/"

/-- The step leads somewhere else: it is neither empty nor `.`. -/
def isStep (name : String) : Bool := name != "" && name != "."

/-- The steps of a path. -/
def steps (path : String) : List String := (Text.pieces '/' path).filter isStep

/-- The steps of the target of a link. A slash at its end asks for a directory, as `.` does. -/
def linkSteps (target : String) : List String :=
  steps target ++ (if Text.endsWith target.toList ['/'] then ["."] else [])

/-- The absolute path with these steps. -/
def absolute (steps : List String) : String := "/" ++ Text.joinWith "/" steps

/-- The relative path with these steps, `.` if there is none. -/
def relative (steps : List String) : String :=
  if steps.isEmpty then "." else Text.joinWith "/" steps

/-- One path after another; an absolute second path stands alone. -/
def join (first second : String) : String :=
  if isAbsolute second then second
  else if first = "" || Text.endsWith first.toList ['/'] then first ++ second
  else first ++ "/" ++ second

/-- The steps from a directory: an absolute path starts over. -/
def stepsFrom (directory : List String) (path : String) : List String :=
  if isAbsolute path then steps path else directory ++ steps path

/-- Adds a step to a normal form in reverse. A `..` takes away the name before it; at the root
directory it leads nowhere, and on a relative path without such a name it stays. -/
def pushStep (rooted : Bool) (reversed : List String) (name : String) : List String :=
  if name = ".." then
    match reversed with
    | [] => if rooted then [] else [".."]
    | last :: rest => if last = ".." then ".." :: last :: rest else rest
  else name :: reversed

/-- The normal form of steps. -/
def normalSteps (rooted : Bool) (steps : List String) : List String :=
  (steps.foldl (pushStep rooted) []).reverse

/-- The slashes that a normal form keeps at its start: two if there are exactly two. -/
def leadingSlashes : List Char → String
  | '/' :: '/' :: '/' :: _ => "/"
  | '/' :: '/' :: _ => "//"
  | '/' :: _ => "/"
  | _ => ""

/-- The normal form of a path: no empty steps, no `.`, and `..` only at the start of a relative
path. -/
def normal (path : String) : String :=
  let text := leadingSlashes path.toList ++
    Text.joinWith "/" (normalSteps (isAbsolute path) (steps path))
  if text = "" then "." else text

/-- The path begins with exactly two slashes, which name a root directory of their own. -/
def hasOwnRoot (path : String) : Bool := leadingSlashes path.toList = "//"

/-- The part after the last slash. -/
def baseName (path : String) : String := ((Text.pieces '/' path).getLast?).getD ""

/-- The part up to the last slash, without slashes at its end unless it has nothing else. -/
def dirName (path : String) : String :=
  let head := (path.toList.reverse.dropWhile (· != '/')).reverse
  if head.all (· == '/') then String.ofList head
  else String.ofList (Text.dropTrailing (· == '/') head)

/-- A file name without its last extension; leading dots begin no extension. -/
def stem (name : String) : String :=
  let reversed := name.toList.reverse
  let head := (reversed.dropWhile (· != '.')).drop 1
  if head.all (· == '.') then name else String.ofList head.reverse

/-! ## Normal forms -/

theorem normalSteps_nil (rooted : Bool) : normalSteps rooted [] = [] := rfl

theorem normalSteps_append_singleton {rooted : Bool} {steps : List String} {name : String}
    (h : name ≠ "..") :
    normalSteps rooted (steps ++ [name]) = normalSteps rooted steps ++ [name] := by
  simp [normalSteps, pushStep, h]

theorem foldl_pushStep_of_plain {rooted : Bool} {steps : List String} (h : ".." ∉ steps)
    (reversed : List String) :
    steps.foldl (pushStep rooted) reversed = steps.reverse ++ reversed := by
  induction steps generalizing reversed with
  | nil => rfl
  | cons step rest ih =>
    simp only [List.mem_cons, not_or] at h
    simp [pushStep, Ne.symm h.1, ih h.2]

theorem normalSteps_of_plain {rooted : Bool} {steps : List String} (h : ".." ∉ steps) :
    normalSteps rooted steps = steps := by
  simp [normalSteps, foldl_pushStep_of_plain h]

end Checkup.Path
