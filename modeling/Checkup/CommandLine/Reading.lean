import Checkup.CommandLine.Words

/-!
# Reading a command line

The words of a command are read from left to right. Switches are noted in the order in which they
are given; a word that belongs to nothing is noted too, and refused in the end.

* `flag_note`: a switch that was noted counts as given.
-/

namespace Checkup.CommandLine

/-- What has been read. -/
structure Reading where
  /-- The given switches with their values, the latest one first. -/
  given : List (String × String) := []
  /-- The word for the place that the command has. -/
  place : Option String := none
  /-- The command has no place, or it has been filled. -/
  isFilled : Bool := false
  /-- There was a word that belongs to nothing. -/
  hasStray : Bool := false
  deriving DecidableEq, Repr, Inhabited

namespace Reading

/-- A switch is given. -/
def flag (r : Reading) (name : String) : Bool := (r.given.lookup name).isSome

/-- The value that counts for a switch: the latest one. -/
def value? (r : Reading) (name : String) : Option String := r.given.lookup name

/-- Notes a switch with its value; help is given at once. -/
def note (r : Reading) (s : Switch) (value : String) : Except Refusal Reading :=
  if s.long = "--help" then .error .help
  else if s.admits value then .ok { r with given := (s.long, value) :: r.given }
  else .error .misuse

/-- Notes a word that belongs to nothing. -/
def stray (r : Reading) : Reading := { r with hasStray := true }

/-- Fills the place. -/
def fill (r : Reading) (place : Option String) : Reading :=
  { r with place := place, isFilled := true }

theorem flag_note {r after : Reading} {s : Switch} {value : String}
    (h : r.note s value = .ok after) : after.flag s.long = true := by
  simp only [note] at h
  split at h
  · simp at h
  · split at h
    · simp only [Except.ok.injEq] at h
      subst h
      simp [flag]
    · simp at h

end Reading

/-- The flags that are written together behind the first of them. -/
def together (switches : List Switch) : List Char → Except Refusal (List Switch)
  | [] => .ok []
  | c :: rest =>
    match spelled? switches (String.ofList ['-', c]) with
    | none => .error .misuse
    | some s => (together switches rest).map (s :: ·)

/-- The flags that a word gives: one, or several that are written together. -/
def flagsOf (switches : List Switch) (s : Switch) :
    Option Attached → Except Refusal (List Switch)
  | none => .ok [s]
  | some ⟨isValue, text⟩ =>
    if isValue || text = "" then .error .misuse
    else (together switches text.toList).map (s :: ·)

/-- Notes several flags. -/
def noteFlags (r : Reading) : List Switch → Except Refusal Reading
  | [] => .ok r
  | s :: rest => do noteFlags (← r.note s "") rest

/-- Reads the flags of a word. -/
def readFlags (switches : List Switch) (r : Reading) (s : Switch) (attached : Option Attached) :
    Except Refusal Reading := do
  noteFlags r (← flagsOf switches s attached)

/-- Reads the words of a command that may have one place for a word. -/
def readAll (switches : List Switch) (r : Reading) : List (String × Word) → Except Refusal Reading
  | [] => .ok r
  | (_, .unknown) :: rest => readAll switches r.stray rest
  | (_, .text s) :: (_, .separator) :: rest =>
    if r.isFilled then readAll switches r.stray rest
    else readAll switches (r.fill (some s)) rest
  | (_, .text s) :: rest =>
    readAll switches (if r.isFilled then r.stray else r.fill (some s)) rest
  | (_, .separator) :: (_, .text s) :: rest =>
    if r.isFilled then readAll switches r.stray rest
    else readAll switches (r.fill (some s)) rest
  | (_, .separator) :: rest =>
    readAll switches (if r.isFilled then r.stray else r.fill none) rest
  | (_, .switch s attached) :: rest =>
    if s.takesValue then
      match attached, rest with
      | some a, rest => do readAll switches (← r.note s a.text) rest
      | none, (_, .text value) :: rest => do readAll switches (← r.note s value) rest
      | none, _ => .error .misuse
    else do readAll switches (← readFlags switches r s attached) rest

/-- Reads the switches up to the first word that stands for itself, which names a command, and hands
on the texts behind it. -/
def readToCommand (switches : List Switch) (r : Reading) :
    List (String × Word) → Except Refusal (Reading × String × List String)
  | [] => .error .misuse
  | (_, .separator) :: _ => .error .misuse
  | (_, .text s) :: rest => .ok (r, s, rest.map Prod.fst)
  | (_, .unknown) :: rest => readToCommand switches r.stray rest
  | (_, .switch s attached) :: rest =>
    if s.takesValue then
      match attached, rest with
      | some a, rest => do readToCommand switches (← r.note s a.text) rest
      | none, (_, .text value) :: rest => do readToCommand switches (← r.note s value) rest
      | none, _ => .error .misuse
    else do readToCommand switches (← readFlags switches r s attached) rest

/-- What was read has no word that belongs to nothing. -/
def accepted (r : Reading) : Except Refusal Reading := if r.hasStray then .error .misuse else .ok r

end Checkup.CommandLine
