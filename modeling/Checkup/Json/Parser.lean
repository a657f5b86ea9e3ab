import Checkup.Fault
import Checkup.Json.Basic
import Checkup.Json.Text

/-!
# Reading JSON

A strict reader with one extension: the words `NaN`, `Infinity` and `-Infinity` are numbers. A
repeated member name keeps its first place and takes its last value. An integer longer than the
limit of `Number.maxDecimalDigits` is refused with a cause of its own, and so is a bracket that
opens an array or object deeper than `maxNesting`.

The reader of nested values takes the levels that are left, and a bound on its own calls. Each
character costs at most two of these, one for a value and one for its place in an array or object, so
`parse` starts with twice the length of the text.
-/

namespace Checkup.Json

open Number (Binary64)

/-- Why a text is no JSON value. -/
inductive ParseError
  | malformed
  | longInteger
  /-- The value is nested deeper than the reader can go. -/
  | tooDeep
  deriving DecidableEq, Repr

/-- The blanks between tokens. -/
def isSpace (c : Char) : Bool := c == ' ' || c == '\t' || c == '\n' || c == '\r'

/-- The text after leading blanks. -/
def skipSpace (s : List Char) : List Char := s.dropWhile isSpace

/-- The text after a word, if it begins with that word. -/
def dropWord? (word : List Char) (s : List Char) : Option (List Char) :=
  if word.isPrefixOf s then some (s.drop word.length) else none

/-- An ASCII digit. -/
def isDigit (c : Char) : Bool := decide ('0' ≤ c) && decide (c ≤ '9')

/-- The values of leading ASCII digits, and the text after them. -/
def takeDigits (s : List Char) : List Nat × List Char :=
  ((s.takeWhile isDigit).map (·.toNat - '0'.toNat), s.dropWhile isDigit)

/-- A fraction: a point and at least one digit. -/
def takeFraction : List Char → List Nat × List Char
  | '.' :: rest =>
    match takeDigits rest with
    | ([], _) => ([], '.' :: rest)
    | (ds, rest') => (ds, rest')
  | s => ([], s)

/-- An exponent: a letter E, an optional sign and at least one digit. -/
def takeExponent : List Char → Option (Bool × List Nat) × List Char
  | [] => (none, [])
  | c :: rest =>
    if c = 'e' ∨ c = 'E' then
      let signed := match rest with
        | '-' :: r => (true, r)
        | '+' :: r => (false, r)
        | r => (false, r)
      match takeDigits signed.2 with
      | ([], _) => (none, c :: rest)
      | (ds, rest') => (some (signed.1, ds), rest')
    else (none, c :: rest)

/-- The whole part of a number: a zero, or digits without a leading zero. -/
def takeWhole : List Char → List Nat × List Char
  | '0' :: rest => ([0], rest)
  | s => takeDigits s

/-- The number at the start of a text after its sign. -/
def number (negative : Bool) (s : List Char) : Except ParseError (Json × List Char) :=
  match takeWhole s with
  | ([], _) => .error .malformed
  | (whole, s) =>
    let (fraction, s) := takeFraction s
    let (exponent, s) := takeExponent s
    if fraction.isEmpty && exponent.isNone then
      if Number.maxDecimalDigits < whole.length then .error .longInteger
      else .ok (.int (Number.signed negative (Number.digitsValue 10 whole)), s)
    else
      let power : Int := match exponent with
        | some (down, ds) => Number.signed down (Number.digitsValue 10 ds)
        | none => 0
      let digits := Number.digitsValue 10 (whole ++ fraction)
      .ok (.float (Binary64.ofDecimal negative digits (power - fraction.length)), s)

/-- The words that are values. -/
def words : List (List Char × Json) :=
  [(['n', 'u', 'l', 'l'], .null),
    (['t', 'r', 'u', 'e'], .bool true),
    (['f', 'a', 'l', 's', 'e'], .bool false),
    (['N', 'a', 'N'], .float .notANumber),
    (['I', 'n', 'f', 'i', 'n', 'i', 't', 'y'], .float (.infinite false)),
    (['-', 'I', 'n', 'f', 'i', 'n', 'i', 't', 'y'], .float (.infinite true))]

/-- The code points of a string after its opening quote. -/
def stringBody (s : List Char) : Except ParseError (List Nat × List Char) :=
  match stringUnits? s with
  | some (units, rest) => .ok (Text.joinPairs units, rest)
  | none => .error .malformed

/-- A value that is neither an array nor an object. -/
def atom (s : List Char) : Except ParseError (Json × List Char) :=
  match words.findSome? fun (word, value) => (dropWord? word s).map (value, ·) with
  | some found => .ok found
  | none =>
    match s with
    | '"' :: rest => do
      let (points, rest) ← stringBody rest
      pure (.ofPoints points, rest)
    | '-' :: rest => number true rest
    | _ => number false s

/-- A member name with its colon, from its opening quote on. -/
def memberName : List Char → Except ParseError (Label × List Char)
  | '"' :: rest => do
    let (points, rest) ← stringBody rest
    match skipSpace rest with
    | ':' :: rest => pure (.ofPoints points, skipSpace rest)
    | _ => .error .malformed
  | _ => .error .malformed

mutual

/-- The value at the start of a text, in which `room` more levels may be nested. -/
def value : Nat → Nat → List Char → Except ParseError (Json × List Char)
  | _, 0, _ => .error .malformed
  | 0, _ + 1, '[' :: _ => .error .tooDeep
  | room + 1, fuel + 1, '[' :: rest =>
    match skipSpace rest with
    | ']' :: rest => .ok (.arr [], rest)
    | rest => do
      let (items, rest) ← items room fuel rest
      pure (.arr items, rest)
  | 0, _ + 1, '\x7b' :: _ => .error .tooDeep
  | room + 1, fuel + 1, '\x7b' :: rest =>
    match skipSpace rest with
    | '\x7d' :: rest => .ok (.obj [], rest)
    | rest => do
      let (members, rest) ← members room fuel rest
      pure (.obj (Members.merge [] members), rest)
  | _, _ + 1, s => atom s

/-- The items of an array from the first one to the closing bracket. -/
def items : Nat → Nat → List Char → Except ParseError (List Json × List Char)
  | _, 0, _ => .error .malformed
  | room, fuel + 1, s => do
    let (first, rest) ← value room fuel s
    match skipSpace rest with
    | ',' :: rest =>
      let (others, rest) ← items room fuel (skipSpace rest)
      pure (first :: others, rest)
    | ']' :: rest => pure ([first], rest)
    | _ => .error .malformed

/-- The members of an object from the first name to the closing brace, repeated names included. -/
def members : Nat → Nat → List Char → Except ParseError (Members × List Char)
  | _, 0, _ => .error .malformed
  | room, fuel + 1, s => do
    let (name, rest) ← memberName s
    let (first, rest) ← value room fuel rest
    match skipSpace rest with
    | ',' :: rest =>
      let (others, rest) ← members room fuel (skipSpace rest)
      pure ((name, first) :: others, rest)
    | '\x7d' :: rest => pure ([(name, first)], rest)
    | _ => .error .malformed

end

/-- The value that a whole text is. -/
def parse (s : List Char) : Except ParseError Json := do
  let (result, rest) ← value maxNesting (2 * s.length + 1) (skipSpace s)
  match skipSpace rest with
  | [] => pure result
  | _ => .error .malformed

/-- The value that a whole text is, if it is one. -/
def parse? (s : String) : Option Json := (parse s.toList).toOption

/-- The value that a whole text is, for those who pass over a text that is none. One that is nested
too deep is not passed over. -/
def load (s : String) : Except Fault (Option Json) :=
  match parse s.toList with
  | .ok value => .ok (some value)
  | .error .tooDeep => .error .tooDeep
  | .error _ => .ok none

end Checkup.Json
