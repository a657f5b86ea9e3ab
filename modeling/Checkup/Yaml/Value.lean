import Checkup.Yaml.Tag
import Checkup.Number.Shortest

/-!
# Values of YAML

The values that a document is made of, and the scalars among them: what a text denotes under a type.
A collection names the values in it by the numbers of their nodes.
-/

namespace Checkup.Yaml

open Number (Binary64)

/-- A value. Mappings keep repeated keys, of which the last one counts. -/
inductive Value
  | null
  | bool (b : Bool)
  | int (n : Int)
  | float (x : Binary64)
  | str (s : Label)
  | bytes (bs : List Nat)
  | moment
  | seq (items : List Nat)
  | map (pairs : List (Nat × Nat))
  | set (keys : List Nat)
  /-- A sequence of pairs. -/
  | pairs (entries : List (Nat × Nat))
  deriving Inhabited, Repr

/-- The value may be a key of a mapping. -/
def Value.isKey : Value → Bool
  | seq _ | map _ | set _ | pairs _ => false
  | _ => true

/-- The value of a type of collections before anything is in it; nothing for other types. -/
def Value.empty? : Tag → Option Value
  | .seq => some (seq [])
  | .map => some (map [])
  | .set => some (set [])
  | .omap | .pairs => some (pairs [])
  | _ => none

/-! ## Scalars -/

/-- The text of a number without the low lines in it. -/
def dropGroups (s : List Char) : List Char := s.filter (· != '_')

/-- An integer that a reader finds, or the fault that there is none. -/
def readInt (base : Nat) (s : List Char) : Except Error Int :=
  match Number.parseInt? base s with
  | some n => .ok n
  | none => .error .noSuchValue

/-- Parts in steps of sixty, the last one first. -/
def sumSixtieths : List Int → Int
  | [] => 0
  | part :: rest => part + 60 * sumSixtieths rest

/-- The integer a text denotes: in base two, eight or sixteen by its first characters, in parts of
sixty if it has colons, in base ten otherwise. -/
def intOf (text : String) : Except Error Int :=
  let s := dropGroups text.toList
  match s with
  | [] => .error .emptyNumber
  | _ =>
    let (negative, body) := Number.splitSign s
    let signed := fun (n : Int) => if negative then -n else n
    match body with
    | ['0'] => .ok 0
    | '0' :: 'b' :: rest => (readInt 2 rest).map signed
    | '0' :: 'x' :: rest => (readInt 16 rest).map signed
    | '0' :: _ => (readInt 8 body).map signed
    | [] => .error .emptyNumber
    | _ =>
      if body.contains ':' then
        ((Text.splitOn ':' body).mapM (readInt 10)).map fun parts =>
          signed (sumSixtieths parts.reverse)
      else (readInt 10 body).map signed

/-- A decimal number: digits with at most one point among or beside them, and an exponent. -/
def decimal? (s : List Char) : Option Binary64 :=
  let (negative, s) := Number.splitSign s
  let isDigit := fun c => (Text.decimalValue? c).isSome
  let value := fun (ds : List Char) => ds.filterMap Text.decimalValue?
  let whole := value (s.takeWhile isDigit)
  let s := s.dropWhile isDigit
  let (fraction, s) := match s with
    | '.' :: rest => (value (rest.takeWhile isDigit), rest.dropWhile isDigit)
    | s => ([], s)
  if whole.isEmpty && fraction.isEmpty then none
  else
    let made := fun (power : Int) =>
      Binary64.ofDecimal negative (Number.digitsValue 10 (whole ++ fraction))
        (power - fraction.length)
    match s with
    | [] => some (made 0)
    | c :: rest =>
      if c == 'e' || c == 'E' then
        let (down, ds) := Number.splitSign rest
        if ds.isEmpty || !ds.all isDigit then none
        else some (made (Number.signed down (Number.digitsValue 10 (value ds))))
      else none

/-- The number a text denotes, also in words, or the fault that there is none. -/
def readFloat (s : List Char) : Except Error Binary64 :=
  let body := Number.trimOuter s
  let (negative, word) := Number.splitSign body
  let word := String.ofList word
  if word = "inf" || word = "infinity" then .ok (.infinite negative)
  else if word = "nan" then .ok .notANumber
  else
    match decimal? body with
    | some x => .ok x
    | none => .error .noSuchValue

/-- The sum of parts in steps of sixty, rounded after every step; the last part comes first. The
place value of each part must be a number itself. -/
def addSixtieths : Binary64 → Nat → List Binary64 → Except Error Binary64
  | sum, _, [] => .ok sum
  | sum, base, part :: rest =>
    if (Binary64.ofInt base).isFinite then
      addSixtieths (sum.add (part.mul (.ofInt base))) (base * 60) rest
    else .error .tooLarge

/-- The number a text denotes: an infinity, no number, parts of sixty if it has colons, or a decimal
number. -/
def floatOf (text : String) : Except Error Binary64 :=
  let s := (dropGroups text.toList).map Text.smallLetter
  match s with
  | [] => .error .emptyNumber
  | _ =>
    let (negative, body) := Number.splitSign s
    let signed := fun (x : Binary64) => if negative then x.neg else x
    if String.ofList body = ".inf" then .ok (.infinite negative)
    else if String.ofList body = ".nan" then .ok .notANumber
    else if body.contains ':' then do
      let parts ← (Text.splitOn ':' body).mapM readFloat
      (addSixtieths (.zero false) 1 parts.reverse).map signed
    else (readFloat body).map signed

/-- The truth values by their words in small letters. -/
def truthWords : List (String × Bool) :=
  [("yes", true), ("no", false), ("true", true), ("false", false), ("on", true), ("off", false)]

/-- The truth value a text denotes. -/
def boolOf (text : String) : Except Error Bool :=
  match truthWords.lookup (Text.lower text) with
  | some b => .ok b
  | none => .error .noTruthValue

/-- The number of days of a month. -/
def daysOfMonth (year month : Nat) : Nat :=
  if month == 2 then
    if year % 4 == 0 && (year % 100 != 0 || year % 400 == 0) then 29 else 28
  else if month == 4 || month == 6 || month == 9 || month == 11 then 30
  else 31

/-- The value of a numeral of ASCII digits. -/
def numeral (s : List Char) : Nat := Number.digitsValue 10 (s.map fun c => c.toNat - '0'.toNat)

/-- The date exists. -/
def isDate (m : Tag.MomentText) : Bool :=
  let year := numeral m.year
  let month := numeral m.month
  let day := numeral m.day
  decide (1 ≤ year) && decide (1 ≤ month) && decide (month ≤ 12) && decide (1 ≤ day) &&
    decide (day ≤ daysOfMonth year month)

/-- The time of day exists, and the zone is less than a day from the origin. -/
def isClock (m : Tag.MomentText) : Bool :=
  (m.time.all fun (hour, minute, second, _) =>
    decide (numeral hour < 24) && decide (numeral minute < 60) && decide (numeral second < 60)) &&
  (m.zone.all fun (_, hours, minutes) => decide (60 * numeral hours + numeral minutes < 24 * 60))

/-- The moment a text denotes. -/
def momentOf (text : String) : Except Error Value :=
  match Tag.moment? text.toList with
  | none => .error .noMoment
  | some m => if isDate m && isClock m then .ok .moment else .error .noSuchValue

/-- The value of a character in base 64. -/
def base64Value? (c : Char) : Option Nat :=
  if 'A' ≤ c ∧ c ≤ 'Z' then some (c.toNat - 'A'.toNat)
  else if 'a' ≤ c ∧ c ≤ 'z' then some (c.toNat - 'a'.toNat + 26)
  else if '0' ≤ c ∧ c ≤ '9' then some (c.toNat - '0'.toNat + 52)
  else if c = '+' then some 62
  else if c = '/' then some 63
  else none

/-- Bytes in base 64. `filled` counts the characters of the current group of four, `left` holds the
bits that are not yet part of a byte, and `pads` counts the padding marks since the last character.
Other characters are passed over; padding that completes a group ends the text. -/
def base64From (filled left pads : Nat) : List Char → Option (List Nat)
  | [] => if filled = 0 then some [] else none
  | c :: rest =>
    if c = '=' then
      if 2 ≤ filled ∧ 4 ≤ filled + pads + 1 then some []
      else base64From filled left (if 2 ≤ filled then pads + 1 else pads) rest
    else
      match base64Value? c with
      | none => base64From filled left pads rest
      | some v =>
        if filled = 0 then base64From 1 v 0 rest
        else if filled = 1 then
          (base64From 2 (v % 16) 0 rest).map ((left * 4 + v / 16) :: ·)
        else if filled = 2 then
          (base64From 3 (v % 4) 0 rest).map ((left * 16 + v / 4) :: ·)
        else (base64From 0 0 0 rest).map ((left * 64 + v) :: ·)

/-- The bytes a text in base 64 denotes. -/
def bytesOf (text : String) : Except Error (List Nat) :=
  if text.toList.all fun c => decide (c.toNat < 0x80) then
    match base64From 0 0 0 text.toList with
    | some bs => .ok bs
    | none => .error .malformed
  else .error .malformed

/-- The type has scalars. -/
def Tag.isScalar : Tag → Bool
  | .null | .bool | .int | .float | .binary | .timestamp | .str => true
  | _ => false

/-- The value of a scalar of a type; collections have no such value. Half of a UTF-16 pair is left to
strings; it is no part of a scalar of another type. -/
def scalarValue (tag : Tag) (label : Label) : Except Error Value :=
  let text := label.nearest
  match tag with
  | .null => .ok .null
  | .bool => (boolOf text).map .bool
  | .int => (intOf text).map .int
  | .float => (floatOf text).map .float
  | .binary => (bytesOf text).map .bytes
  | .timestamp => momentOf text
  | .str => .ok (.str label)
  | _ => .error .malformed

end Checkup.Yaml
