import Checkup.Text.Search

/-!
# Words of a command line

A word is a switch, possibly with a value attached to it, or stands for itself. Long switches may be
shortened as long as only one of them can be meant, and flags of one letter may be written together.
After two dashes every word stands for itself.

* `words_separator`: two dashes make all later words stand for themselves.
-/

namespace Checkup.CommandLine

/-- Why a command line is not carried out. -/
inductive Refusal
  | misuse
  /-- Help is asked for. -/
  | help
  deriving DecidableEq, Repr, Inhabited

/-- A switch that a command knows. -/
structure Switch where
  long : String
  /-- The spelling with one letter, empty if there is none. -/
  short : String := ""
  takesValue : Bool := false
  /-- The values that the switch takes. -/
  admits : String → Bool := fun _ => true
  deriving Inhabited

/-- A text attached to a switch. -/
structure Attached where
  /-- The switch is spelled with its long name, so that the text can only be a value. -/
  isValue : Bool
  text : String
  deriving DecidableEq, Repr, Inhabited

/-- A word of a command line. -/
inductive Word
  | text (s : String)
  /-- Two dashes. -/
  | separator
  | switch (s : Switch) (attached : Option Attached)
  /-- It looks like a switch, but there is no such switch. -/
  | unknown
  deriving Inhabited

/-- The word that ends the switches. -/
def separatorText : String := "--"

/-- The spellings of a switch. -/
def Switch.spellings (s : Switch) : List String :=
  (if s.short = "" then [] else [s.short]) ++ [s.long]

/-- The switch with a spelling. -/
def spelled? (switches : List Switch) (spelling : String) : Option Switch :=
  switches.find? fun s => s.spellings.contains spelling

/-- The parts of a text before and after its first equals sign. -/
def splitValue (arg : String) : String × Option String :=
  let chars := arg.toList
  let head := chars.takeWhile (· != '=')
  (String.ofList head,
    if head.length < chars.length then some (String.ofList (chars.drop (head.length + 1)))
    else none)

/-- The switches that a shortened spelling can mean. -/
def shortened (switches : List Switch) (arg : String) : List (Switch × Option Attached) :=
  if Text.startsWith arg "--" then
    let (head, value) := splitValue arg
    (switches.filter fun s => Text.startsWith s.long head).map fun s => (s, value.map (⟨true, ·⟩))
  else
    let spelling := String.ofList (arg.toList.take 2)
    (switches.filter fun s => s.short = spelling).map fun s =>
      (s, some ⟨false, String.ofList (arg.toList.drop 2)⟩)

/-- A minus sign and a number. -/
def isNegativeNumber (arg : String) : Bool :=
  let isDigit (c : Char) : Bool := (Text.decimalValue? c).isSome
  let body := match arg.toList.drop 1 with
    | chars => if Text.endsWith chars ['\n'] then chars.dropLast else chars
  match Text.splitOn '.' body with
  | [whole] => !whole.isEmpty && whole.all isDigit
  | [whole, fraction] => whole.all isDigit && !fraction.isEmpty && fraction.all isDigit
  | _ => false

/-- What a word is that begins with a dash and is no full spelling of a switch. -/
def classifyDashed (switches : List Switch) (arg : String) : Except Refusal Word :=
  match shortened switches arg with
  | [] => .ok (if isNegativeNumber arg || arg.toList.contains ' ' then .text arg else .unknown)
  | [(s, attached)] => .ok (.switch s attached)
  | _ => .error .misuse

/-- What a word is before two dashes. -/
def classify (switches : List Switch) (arg : String) : Except Refusal Word :=
  if !Text.startsWith arg "-" then .ok (.text arg)
  else
    match spelled? switches arg, splitValue arg with
    | some s, _ => .ok (.switch s none)
    | none, (head, value) =>
      if arg = "-" then .ok (.text arg)
      else
        match value, spelled? switches head with
        | some value, some s => .ok (.switch s (some ⟨Text.startsWith head "--", value⟩))
        | _, _ => classifyDashed switches arg

/-- The words of a command line, each with its text. -/
def words (switches : List Switch) : List String → Except Refusal (List (String × Word))
  | [] => .ok []
  | arg :: rest =>
    if arg = separatorText then .ok ((arg, .separator) :: rest.map fun a => (a, .text a))
    else do
      let word ← classify switches arg
      let later ← words switches rest
      pure ((arg, word) :: later)

theorem words_separator (switches : List Switch) (rest : List String) :
    words switches (separatorText :: rest) =
      .ok ((separatorText, .separator) :: rest.map fun a => (a, .text a)) := by
  simp [words]

end Checkup.CommandLine
