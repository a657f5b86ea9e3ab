import Checkup.Json.Basic
import Checkup.Number.Decimal
import Checkup.Number.Shortest
import Checkup.Text.Quoted

/-!
# Message templates

A template is a text with placeholders: a percent sign, flags, a width, a precision and a letter
that says how to show a value; two percent signs stand for one. The placeholders take the values one
after the other, or by name from a single object. A template that does not fit its values has no
text. A value that is a text stands for itself in a message, but inside a list it is quoted.

* `fill_of_plain`: a text without percent signs is its own text if there are no values.
-/

namespace Checkup.Log

open Number (Binary64)

mutual

/-- A value with its texts quoted. -/
def literal (quote : String → String) : Json → String
  | .null => "None"
  | .bool true => "True"
  | .bool false => "False"
  | .int n => Number.intText n
  | .float x => x.text Binary64.plainLayout
  | .str s => quote s
  | .loose points => quote (String.ofList (Text.nearestText points))
  | .arr values => "[" ++ Text.joinWith ", " (literals quote values) ++ "]"
  | .obj members => "\x7b" ++ Text.joinWith ", " (memberLiterals quote members) ++ "\x7d"

/-- Values, each with its texts quoted. -/
def literals (quote : String → String) : List Json → List String
  | [] => []
  | value :: rest => literal quote value :: literals quote rest

/-- Members, each with its texts quoted. -/
def memberLiterals (quote : String → String) : List (Label × Json) → List String
  | [] => []
  | (name, value) :: rest =>
    (quote name.nearest ++ ": " ++ literal quote value) :: memberLiterals quote rest

end

/-- A value as a message shows it. -/
def shown : Json → String
  | .str s => s
  | .loose points => String.ofList (Text.nearestText points)
  | value => literal Text.quoted value

namespace Template

/-- The flags of a placeholder. -/
structure Flags where
  left : Bool := false
  plus : Bool := false
  blank : Bool := false
  marked : Bool := false
  zero : Bool := false
  deriving DecidableEq, Repr, Inhabited

/-- The values that are left for placeholders. -/
inductive Supply
  | listed (values : List Json)
  /-- One value, which may have been taken. An object gives its members by name. -/
  | single (names : Json.Members) (value : Option Json)
  deriving Inhabited

namespace Supply

/-- The values for a template: a single object that is not empty gives its members. -/
def ofValues : List Json → Supply
  | [.obj (first :: rest)] => .single (first :: rest) (some (.obj (first :: rest)))
  | values => .listed values

/-- The next value. -/
def next? : Supply → Option (Json × Supply)
  | listed (value :: rest) => some (value, listed rest)
  | listed [] => none
  | single names (some value) => some (value, single names none)
  | single _ none => none

/-- The supply of a member. -/
def member? : Supply → String → Option Supply
  | single names _, name => (names.get? name).map fun value => single names (some value)
  | listed _, _ => none

/-- Nothing is left that has to be used. -/
def isUsedUp : Supply → Bool
  | listed values => values.isEmpty
  | single .. => true

end Supply

/-! ## Placeholders -/

/-- The text up to the bracket that closes an open one, and the text after it. -/
def takeName : Nat → List Char → Option (List Char × List Char)
  | _, [] => none
  | depth, c :: rest =>
    if c == ')' then
      match depth with
      | 0 => some ([], rest)
      | depth + 1 => (takeName depth rest).map fun (name, after) => (c :: name, after)
    else (takeName (if c == '(' then depth + 1 else depth) rest).map fun (name, after) =>
      (c :: name, after)

/-- The flags at the start of a text. -/
def takeFlags (flags : Flags) : List Char → Flags × List Char
  | '-' :: rest => takeFlags { flags with left := true } rest
  | '+' :: rest => takeFlags { flags with plus := true } rest
  | ' ' :: rest => takeFlags { flags with blank := true } rest
  | '#' :: rest => takeFlags { flags with marked := true } rest
  | '0' :: rest => takeFlags { flags with zero := true } rest
  | rest => (flags, rest)

/-- The value of ASCII digits. -/
def natOf (ds : List Char) : Nat := ds.foldl (fun n d => 10 * n + (d.toNat - '0'.toNat)) 0

/-- The greatest width. -/
def maxWidth : Nat := 10000000

/-- The greatest precision. -/
def maxPrecision : Nat := 2147483647

/-- A number within a limit. -/
def bounded (limit : Nat) (n : Int) : Option Int :=
  if n ≤ limit ∧ -limit - 1 ≤ n then some n else none

/-- A number within a limit at the start of a text, written out or taken from the values. -/
def takeNumber (limit : Nat) (supply : Supply) :
    List Char → Option (Option Int × Supply × List Char)
  | '*' :: rest =>
    match supply.next? with
    | some (.int n, supply) => (bounded limit n).map fun n => (some n, supply, rest)
    | some (.bool b, supply) => some (some (if b then 1 else 0), supply, rest)
    | _ => none
  | text =>
    match text.takeWhile Char.isDigit with
    | [] => some (none, supply, text)
    | ds => (bounded limit (natOf ds)).map fun n => (some n, supply, text.dropWhile Char.isDigit)

/-- A precision at the start of a text, behind a point. -/
def takePrecision (supply : Supply) : List Char → Option (Option Nat × Supply × List Char)
  | '.' :: rest =>
    (takeNumber maxPrecision supply rest).map fun (n, supply, rest) => (some (n.getD 0).toNat, supply, rest)
  | text => some (none, supply, text)

/-- The letters for the size of a number mean nothing. -/
def dropSize : List Char → List Char
  | c :: rest => if c == 'h' || c == 'l' || c == 'L' then rest else c :: rest
  | [] => []

/-! ## Values -/

/-- An integer for a placeholder; `cut` lets a fraction be cut off. -/
def integerOf? (cut : Bool) : Json → Option Int
  | .int n => some n
  | .bool b => some (if b then 1 else 0)
  | .float x => if cut then x.truncated? else none
  | _ => none

/-- A floating-point number for a placeholder. -/
def floatOf? : Json → Option Binary64
  | .float x => some x
  | .int n =>
    match Binary64.ofInt n with
    | .finite negative m e => some (.finite negative m e)
    | _ => none
  | .bool b => some (Binary64.ofInt (if b then 1 else 0))
  | _ => none

/-- The text of a value in the parts that are laid out: sign, mark of the base, and the rest. -/
structure Parts where
  isNumber : Bool
  sign : List Char
  mark : List Char
  body : List Char
  deriving Inhabited

/-- A text that is no number. -/
def Parts.ofText (body : List Char) : Parts := ⟨false, [], [], body⟩

/-- The sign of a number that is not negative. -/
def signFor (flags : Flags) : List Char :=
  if flags.plus then ['+'] else if flags.blank then [' '] else []

/-- Digits that may begin with a minus sign. -/
def Parts.ofNumber (flags : Flags) (mark : List Char) : List Char → Parts
  | '-' :: body => ⟨true, ['-'], mark, body⟩
  | body => ⟨true, signFor flags, mark, body⟩

/-- An integer in a base. -/
def integerParts (flags : Flags) (precision : Option Nat) (base : Nat) (mark : List Char)
    (n : Int) :
    Parts :=
  let ds := Number.padded (precision.getD 0) (Nat.toDigits base n.natAbs)
  .ofNumber flags (if flags.marked then mark else []) (if n < 0 then '-' :: ds else ds)

/-- A floating-point number in a form. -/
def floatParts (flags : Flags) (precision : Option Nat) (n : Binary64.Form) (x : Binary64) :
    Parts :=
  .ofNumber flags [] (x.inForm n flags.marked (precision.getD 6))

/-- The parts in capital letters. -/
def Parts.upper (p : Parts) : Parts :=
  { p with mark := p.mark.map Char.toUpper, body := p.body.map Char.toUpper }

/-- One character, by itself or by its code point. -/
def characterOf? : Json → Option Char
  | .str s =>
    match s.toList with
    | [c] => some c
    | _ => none
  | .int n => if 0 ≤ n ∧ n < 0x110000 then some (Char.ofNat n.toNat) else none
  | .bool b => some (if b then '\x01' else '\x00')
  | _ => none

/-- A text cut to a precision. -/
def cutTo (precision : Option Nat) (s : String) : Parts :=
  .ofText (match precision with | some n => s.toList.take n | none => s.toList)

/-- A number with such a precision is too long to be written. -/
def isTooLong (precision : Option Nat) : Bool := precision.any (maxWidth < ·)

/-- The parts of a value under a letter for an integer. -/
def integerPartsOf? (flags : Flags) (precision : Option Nat) (letter : Char) (value : Json) :
    Option Parts :=
  if isTooLong precision then none
  else
    match letter with
    | 'o' => (integerOf? false value).map (integerParts flags precision 8 ['0', 'o'])
    | 'x' => (integerOf? false value).map (integerParts flags precision 16 ['0', 'x'])
    | 'X' => (integerOf? false value).map fun n =>
      (integerParts flags precision 16 ['0', 'x'] n).upper
    | _ => (integerOf? true value).map (integerParts flags precision 10 [])

/-- The parts of a value in a form for a floating-point number. Significant digits end with the last
one that is not zero, so there are never too many of them. -/
def floatPartsOf? (flags : Flags) (precision : Option Nat) (n : Binary64.Form) (value : Json) :
    Option Parts :=
  ((floatOf? value).filter fun x =>
    !(isTooLong precision && x.isFinite && (n != .significant || flags.marked))).map
      (floatParts flags precision n)

/-- The parts of a value under a letter. -/
def partsOf? (flags : Flags) (precision : Option Nat) (letter : Char) (value : Json) :
    Option Parts :=
  match letter with
  | 's' => some (cutTo precision (shown value))
  | 'r' => some (cutTo precision (literal Text.quoted value))
  | 'a' => some (cutTo precision (literal Text.quotedAscii value))
  | 'c' => (characterOf? value).map fun c => .ofText [c]
  | 'd' | 'i' | 'u' | 'o' | 'x' | 'X' => integerPartsOf? flags precision letter value
  | 'f' => floatPartsOf? flags precision .places value
  | 'F' => (floatPartsOf? flags precision .places value).map Parts.upper
  | 'e' => floatPartsOf? flags precision .exponent value
  | 'E' => (floatPartsOf? flags precision .exponent value).map Parts.upper
  | 'g' => floatPartsOf? flags precision .significant value
  | 'G' => (floatPartsOf? flags precision .significant value).map Parts.upper
  | _ => none

/-- The parts laid out in a width: zeros go behind sign and mark, spaces before or behind all. -/
def Parts.layOut (p : Parts) (flags : Flags) (width : Nat) : List Char :=
  let front := p.sign ++ p.mark
  let missing := width - (front.length + p.body.length)
  if flags.left then front ++ p.body ++ List.replicate missing ' '
  else if flags.zero && p.isNumber then front ++ List.replicate missing '0' ++ p.body
  else List.replicate missing ' ' ++ front ++ p.body

/-- The text of the placeholder behind a percent sign, with what is left of values and text. -/
def placeholder (supply : Supply) (text : List Char) : Option (List Char × Supply × List Char) := do
  let (supply, text) ← match text with
    | '(' :: rest => do
      let (name, rest) ← takeName 0 rest
      let supply ← supply.member? (String.ofList name)
      pure (supply, rest)
    | _ => pure (supply, text)
  let (flags, text) := takeFlags {} text
  let (width, supply, text) ← takeNumber maxWidth supply text
  let (precision, supply, text) ← takePrecision supply text
  let w := width.getD 0
  let flags := if w < 0 then { flags with left := true } else flags
  match dropSize text with
  | [] => none
  | letter :: rest =>
    let (value, supply) ← supply.next?
    let parts ← partsOf? flags precision letter value
    pure (parts.layOut flags w.natAbs, supply, rest)

/-! ## Templates -/

/-- The text of a template; `fuel` bounds the number of placeholders. -/
def fillFrom : Nat → Supply → List Char → Option (List Char)
  | _, supply, [] => if supply.isUsedUp then some [] else none
  | fuel, supply, c :: rest =>
    if c == '%' then
      match fuel, rest with
      | 0, _ => none
      | fuel + 1, '%' :: rest => (fillFrom fuel supply rest).map ('%' :: ·)
      | fuel + 1, rest =>
        match placeholder supply rest with
        | none => none
        | some (text, supply, rest) => (fillFrom fuel supply rest).map (text ++ ·)
    else (fillFrom fuel supply rest).map (c :: ·)
termination_by fuel _ text => (fuel, text.length)

/-- The text of a template with some values. -/
def fill (template : String) (values : List Json) : Option String :=
  (fillFrom template.length (.ofValues values) template.toList).map String.ofList

theorem fillFrom_of_plain {fuel : Nat} {text : List Char} (h : '%' ∉ text) :
    fillFrom fuel (.listed []) text = some text := by
  induction text with
  | nil => simp [fillFrom, Supply.isUsedUp]
  | cons c rest ih =>
    simp only [List.mem_cons, not_or] at h
    have hc : (c == '%') = false := by
      simp only [beq_eq_false_iff_ne]
      exact fun hc => h.1 hc.symm
    rw [fillFrom.eq_def]
    simp only [hc, Bool.false_eq_true, if_false, ih h.2, Option.map_some]

theorem fill_of_plain {template : String} (h : '%' ∉ template.toList) :
    fill template [] = some template := by
  simp [fill, Supply.ofValues, fillFrom_of_plain h]

end Template

end Checkup.Log
