import Checkup.Yaml.Token

/-!
# Types of YAML nodes

A node has a tag, which names its type. A plain scalar without a tag has the type of the form in
which it is written; the forms are those of YAML 1.1.
-/

namespace Checkup.Yaml

/-- The type of a node. -/
inductive Tag
  | null
  | bool
  | int
  | float
  | binary
  | timestamp
  | omap
  | pairs
  | set
  | str
  | seq
  | map
  | merge
  | value
  | other (text : String)
  deriving DecidableEq, Repr, Inhabited

namespace Tag

/-- The text that all tags of the language itself begin with. -/
def coreText : String := "tag:yaml.org,2002:"

/-- The tags of the language itself, by name. -/
def core : List (String × Tag) :=
  [("null", null), ("bool", bool), ("int", int), ("float", float), ("binary", binary),
    ("timestamp", timestamp), ("omap", omap), ("pairs", pairs), ("set", set), ("str", str),
    ("seq", seq), ("map", map), ("merge", merge), ("value", value)]

/-- The tag that a text names. -/
def ofText (text : String) : Tag :=
  match core.find? fun entry => coreText ++ entry.1 == text with
  | some entry => entry.2
  | none => other text

/-! ## Forms of plain scalars -/

/-- An ASCII digit. -/
def isDigit (c : Char) : Bool := decide ('0' ≤ c) && decide (c ≤ '9')

/-- An ASCII digit or a low line. -/
def isGroupedDigit (c : Char) : Bool := isDigit c || c == '_'

/-- The text without a sign. -/
def dropSign : List Char → List Char
  | '-' :: rest => rest
  | '+' :: rest => rest
  | s => s

/-- The text is at its end, or before a newline that ends it. -/
def atEnd : List Char → Bool
  | [] => true
  | ['\n'] => true
  | _ => false

/-- At least one character of a class, then the end. -/
def isAll (accepts : Char → Bool) (s : List Char) : Bool :=
  !(s.takeWhile accepts).isEmpty && atEnd (s.dropWhile accepts)

/-- One or two digits of a number below 60 and what follows them. The longer form comes first. -/
def sixtieths : List Char → List (List Char)
  | c :: d :: rest =>
    (if '0' ≤ c ∧ c ≤ '5' ∧ isDigit d then [rest] else []) ++
      (if isDigit c then [d :: rest] else [])
  | [c] => if isDigit c then [[]] else []
  | [] => []

/-- At least one part `:mm` below 60, then an end that `test` accepts; `fuel` bounds the parts. -/
def hasSixtieths (test : List Char → Bool) : Nat → List Char → Bool
  | 0, _ => false
  | fuel + 1, ':' :: rest =>
    (sixtieths rest).any fun s => hasSixtieths test fuel s || test s
  | _ + 1, _ => false

/-- A digit but zero, then digits and low lines: the text behind the longest such run. -/
def dropNumeral? (first : Char → Bool) : List Char → Option (List Char)
  | c :: rest => if first c then some (rest.dropWhile isGroupedDigit) else none
  | [] => none

/-- A digit from 1 to 9. -/
def isPositiveDigit (c : Char) : Bool := isDigit c && c != '0'

/-- An integer: binary, octal, decimal, hexadecimal, or in parts of sixty. -/
def isInt (s : List Char) : Bool :=
  match dropSign s with
  | '0' :: 'b' :: rest => isAll (fun c => c == '0' || c == '1' || c == '_') rest
  | '0' :: 'x' :: rest => isAll (fun c => (Text.hexValue? c).isSome || c == '_') rest
  | ['0'] => true
  | ['0', '\n'] => true
  | '0' :: rest => isAll (fun c => (decide ('0' ≤ c) && decide (c ≤ '7')) || c == '_') rest
  | body =>
    match dropNumeral? isPositiveDigit body with
    | some rest => atEnd rest || hasSixtieths atEnd (rest.length + 1) rest
    | none => false

/-- An exponent with a sign, or nothing, then the end. -/
def isExponentEnd (s : List Char) : Bool :=
  atEnd s ||
    match s with
    | e :: sign :: rest =>
      (e == 'e' || e == 'E') && (sign == '-' || sign == '+') && isAll isDigit rest
    | _ => false

/-- A point and a fraction in parts of sixty, then the end. -/
def isSixtiethsEnd : List Char → Bool
  | '.' :: rest => atEnd (rest.dropWhile isGroupedDigit)
  | _ => false

/-- One of some words, then the end. -/
def isWordOf (words : List String) (s : List Char) : Bool :=
  words.any fun w => s == w.toList || s == w.toList ++ ['\n']

/-- A number with a point, an infinity, or the word for no number. -/
def isFloat (s : List Char) : Bool :=
  let body := dropSign s
  (match dropNumeral? isDigit body with
    | some ('.' :: rest) => isExponentEnd (rest.dropWhile isGroupedDigit)
    | _ => false) ||
  (match s with
    | '.' :: rest =>
      match dropNumeral? isDigit rest with
      | some rest => isExponentEnd rest
      | none => false
    | _ => false) ||
  (match dropNumeral? isDigit body with
    | some rest => hasSixtieths isSixtiethsEnd (rest.length + 1) rest
    | none => false) ||
  isWordOf [".inf", ".Inf", ".INF"] body || isWordOf [".nan", ".NaN", ".NAN"] s

/-- The parts of a moment as texts. -/
structure MomentText where
  year : List Char
  month : List Char
  day : List Char
  /-- Hour, minute, second and the digits of the fraction. -/
  time : Option (List Char × List Char × List Char × List Char)
  /-- Whether the zone is west of the origin, its hours and its minutes. -/
  zone : Option (Bool × List Char × List Char)
  deriving Repr

/-- Exactly two digits, and what follows. -/
def twoDigits? : List Char → Option (List Char × List Char)
  | c :: d :: rest => if isDigit c && isDigit d then some ([c, d], rest) else none
  | _ => none

/-- One or two digits, and what follows. -/
def oneOrTwoDigits? : List Char → Option (List Char × List Char)
  | c :: rest =>
    if !isDigit c then none
    else
      match rest with
      | d :: rest' => if isDigit d then some ([c, d], rest') else some ([c], rest)
      | [] => some ([c], [])
  | [] => none

/-- A given character, and what follows. -/
def after? (c : Char) : List Char → Option (List Char)
  | d :: rest => if c = d then some rest else none
  | [] => none

/-- The zone at the end of a moment; blanks may stand before it. -/
def zone? (s : List Char) : Option (Option (Bool × List Char × List Char)) :=
  if atEnd s then some none
  else
    match s.dropWhile isGap with
    | 'Z' :: rest => if atEnd rest then some none else none
    | sign :: rest =>
      if sign = '+' ∨ sign = '-' then do
        let (hours, rest) ← oneOrTwoDigits? rest
        if atEnd rest then pure (some (sign == '-', hours, []))
        else
          let (minutes, rest) ← (after? ':' rest).bind twoDigits?
          if atEnd rest then pure (some (sign == '-', hours, minutes)) else none
      else none
    | [] => none

/-- The time of day of a moment. -/
def clock? (s : List Char) :
    Option (List Char × List Char × List Char × List Char × List Char) := do
  let rest ←
    match s with
    | 'T' :: rest => some rest
    | 't' :: rest => some rest
    | c :: _ => if isGap c then some (s.dropWhile isGap) else none
    | [] => none
  let (hour, rest) ← oneOrTwoDigits? rest
  let (minute, rest) ← (after? ':' rest).bind twoDigits?
  let (second, rest) ← (after? ':' rest).bind twoDigits?
  match rest with
  | '.' :: rest => pure (hour, minute, second, rest.takeWhile isDigit, rest.dropWhile isDigit)
  | rest => pure (hour, minute, second, [], rest)

/-- The parts of a moment: a date, or a date with a time of day. -/
def moment? (s : List Char) : Option MomentText := do
  let year := s.take 4
  if !(year.length == 4 && year.all isDigit) then none
  let (month, rest) ← (after? '-' (s.drop 4)).bind oneOrTwoDigits?
  let (day, rest) ← (after? '-' rest).bind oneOrTwoDigits?
  if atEnd rest then pure ⟨year, month, day, none, none⟩
  else
    let (hour, minute, second, fraction, rest) ← clock? rest
    let zone ← zone? rest
    pure ⟨year, month, day, some (hour, minute, second, fraction), zone⟩

/-- A moment as a plain scalar; a date without a time of day has two digits in all its parts. -/
def isTimestamp (s : List Char) : Bool :=
  (moment? s).any fun m => m.time.isSome || (m.month.length == 2 && m.day.length == 2)

/-- The type of a plain scalar by its form. -/
def ofPlain (text : String) : Tag :=
  let s := text.toList
  if isWordOf ["yes", "Yes", "YES", "no", "No", "NO", "true", "True", "TRUE", "false", "False",
      "FALSE", "on", "On", "ON", "off", "Off", "OFF"] s then bool
  else if isFloat s then float
  else if isInt s then int
  else if isWordOf ["<<"] s then merge
  else if s.isEmpty || isWordOf ["~", "null", "Null", "NULL"] s then null
  else if isTimestamp s then timestamp
  else if isWordOf ["="] s then value
  else if isWordOf ["!", "&", "*"] s then other "tag:yaml.org,2002:yaml"
  else str

end Tag

end Checkup.Yaml
