import Checkup.Json.Basic
import Checkup.Json.Text
import Checkup.Number.Shortest

/-!
# Writing JSON

Two written forms of a value: on one line with a blank after commas and colons, and indented by two
blanks a level. All text is printable ASCII, numbers are written with the fewest digits that read
back, and the words `NaN`, `Infinity` and `-Infinity` stand for numbers without digits.
-/

namespace Checkup.Json

open Number (Binary64)

/-- Numbers in JSON text: positional from `0.0001` up to below `10^16`. -/
def numberLayout : Binary64.Layout := ⟨-4, 16, "Infinity", "NaN"⟩

/-- A name in quotes. -/
def keyText : Label → List Char
  | .text s => quoted s.toList
  | .loose points _ => quotedPoints points

/-- A value that is neither an array nor an object. -/
def atomText : Json → List Char
  | .null => ['n', 'u', 'l', 'l']
  | .bool true => ['t', 'r', 'u', 'e']
  | .bool false => ['f', 'a', 'l', 's', 'e']
  | .int n => (Number.intText n).toList
  | .float x => (x.text numberLayout).toList
  | .str s => quoted s.toList
  | .loose points => quotedPoints points
  | .arr _ => []
  | .obj _ => []

/-- How the parts of a container are set apart at some depth. -/
structure Spacing where
  /-- What follows the opening bracket and precedes the first part. -/
  opening : Nat → List Char
  /-- What stands between two parts. -/
  between : Nat → List Char
  /-- What precedes the closing bracket. -/
  closing : Nat → List Char

/-- A line break and an indentation of two blanks a level. -/
def newline (depth : Nat) : List Char := '\n' :: List.replicate (2 * depth) ' '

/-- Everything on one line. -/
def Spacing.oneLine : Spacing := ⟨fun _ => [], fun _ => [',', ' '], fun _ => []⟩

/-- Every part on a line of its own. -/
def Spacing.indented : Spacing :=
  ⟨fun depth => newline (depth + 1), fun depth => ',' :: newline (depth + 1), newline⟩

mutual

/-- A value written with a spacing at a depth. -/
def write (spacing : Spacing) (depth : Nat) : Json → List Char
  | .arr [] => ['[', ']']
  | .arr (first :: rest) =>
    '[' :: (spacing.opening depth ++ write spacing (depth + 1) first ++
      (writeItems spacing depth rest ++ (spacing.closing depth ++ [']'])))
  | .obj [] => ['\x7b', '\x7d']
  | .obj ((key, first) :: rest) =>
    '\x7b' :: (spacing.opening depth ++ (keyText key ++ ':' :: ' ' ::
      write spacing (depth + 1) first) ++
      (writeMembers spacing depth rest ++ (spacing.closing depth ++ ['\x7d'])))
  | atom => atomText atom

/-- The items after the first one, each after its separator. -/
def writeItems (spacing : Spacing) (depth : Nat) : List Json → List Char
  | [] => []
  | item :: rest =>
    spacing.between depth ++ (write spacing (depth + 1) item ++ writeItems spacing depth rest)

/-- The members after the first one, each after its separator. -/
def writeMembers (spacing : Spacing) (depth : Nat) : List (Label × Json) → List Char
  | [] => []
  | (key, value) :: rest =>
    spacing.between depth ++ (keyText key ++ ':' :: ' ' ::
      (write spacing (depth + 1) value ++ writeMembers spacing depth rest))

end

/-- The value on one line. -/
def compact (value : Json) : String := String.ofList (write .oneLine 0 value)

/-- The value over several lines, indented by two blanks a level. -/
def pretty (value : Json) : String := String.ofList (write .indented 0 value)

end Checkup.Json
