import Checkup.Text.Search

/-!
# Integers in text

Numerals are read in a base; the reader of whole texts also takes a sign, single low lines between
digits, and blanks around.

* `digitsValue_append_singleton`: a numeral's value grows by one digit at its right end.
-/

namespace Checkup.Number

/-- The value of digits in a base, most significant first. -/
def digitsValue (base : Nat) (digits : List Nat) : Nat :=
  digits.foldl (fun value d => value * base + d) 0

/-- The digits of a numeral in which a low line may stand between two digits. -/
def groupedDigits? (digit? : Char → Option Nat) : List Char → Option (List Nat)
  | [] => none
  | [c] => (digit? c).map fun d => [d]
  | c :: '_' :: rest => do
    let d ← digit? c
    let ds ← groupedDigits? digit? rest
    pure (d :: ds)
  | c :: rest => do
    let d ← digit? c
    let ds ← groupedDigits? digit? rest
    pure (d :: ds)

/-- The longest decimal numeral that is read or written. -/
def maxDecimalDigits : Nat := 4300

/-- A power of two. -/
def twoTo (exponent : Nat) : Nat := Nat.pow 2 exponent

/-- A power of ten. -/
def tenTo (exponent : Nat) : Nat := Nat.pow 10 exponent

/-- Splits a sign from a text. -/
def splitSign : List Char → Bool × List Char
  | '-' :: rest => (true, rest)
  | '+' :: rest => (false, rest)
  | s => (false, s)

/-- The integer with a sign and a magnitude. -/
def signed (negative : Bool) (magnitude : Nat) : Int :=
  if negative then -(magnitude : Int) else magnitude

/-- The digits of the given base: decimal digits of all scripts and ASCII letters. -/
def digitIn? (base : Nat) (c : Char) : Option Nat :=
  ((Text.decimalValue? c).or (Text.digitValue? c)).filter (· < base)

/-- The letter that, behind a zero, names the base itself. -/
def isBaseLetter (base : Nat) (c : Char) : Bool :=
  (base == 2 && (c == 'b' || c == 'B')) || (base == 8 && (c == 'o' || c == 'O')) ||
    (base == 16 && (c == 'x' || c == 'X'))

/-- Drops the mark `0b`, `0o` or `0x` that names the base itself, and a low line after it. -/
def dropBaseMark (base : Nat) : List Char → List Char
  | zero :: letter :: rest =>
    if Text.decimalValue? zero = some 0 ∧ isBaseLetter base letter then
      match rest with
      | '_' :: others => others
      | _ => rest
    else zero :: letter :: rest
  | s => s

/-- A blank that may stand around a number; the ASCII separators may not. -/
def isOuterBlank (c : Char) : Bool :=
  Text.isBlank c && !(decide ('\x1c' ≤ c) && decide (c ≤ '\x1f'))

/-- The text without the blanks around a number. -/
def trimOuter (text : List Char) : List Char :=
  Text.dropTrailing isOuterBlank (Text.dropLeading isOuterBlank text)

/-- Reads a whole text as an integer in a base: blanks around it, a sign, the base's own mark, and
single low lines between digits are allowed. A decimal numeral longer than the limit is refused. -/
def parseInt? (base : Nat) (text : List Char) : Option Int :=
  let (negative, numeral) := splitSign (trimOuter text)
  match groupedDigits? (digitIn? base) (dropBaseMark base numeral) with
  | none => none
  | some ds =>
    if base == 10 && decide (maxDecimalDigits < ds.length) then none
    else some (signed negative (digitsValue base ds))

/-- The decimal numeral of an integer. -/
def intText (n : Int) : String := toString n

/-- The hexadecimal digit of a value below 16. -/
def hexDigit (n : Nat) : Char :=
  if n < 10 then Char.ofNat ('0'.toNat + n) else Char.ofNat ('a'.toNat + (n - 10))

theorem digitsValue_append_singleton (base : Nat) (ds : List Nat) (d : Nat) :
    digitsValue base (ds ++ [d]) = digitsValue base ds * base + d := by
  simp [digitsValue]

end Checkup.Number
