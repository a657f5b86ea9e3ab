import Checkup.Text.Label
import Checkup.Number.Integer

/-!
# Tokens of YAML

The tokens of a text of YAML 1.1, among them the ones that only indentation shows: the starts and
ends of block collections.
-/

namespace Checkup.Yaml

/-- Why a text has no value. -/
inductive Error
  /-- The text is not well formed, or asks for a type that is not known. -/
  | malformed
  /-- A number, a moment or a character is written in the right form but does not exist. -/
  | noSuchValue
  /-- A text that is marked as a truth value is none. -/
  | noTruthValue
  /-- A text that is marked as a moment has not its form. -/
  | noMoment
  /-- A mapping is marked as a moment. -/
  | momentOfMapping
  /-- A text that is marked as a number is empty. -/
  | emptyNumber
  /-- A code point or a place value is larger than any that can be worked with. -/
  | tooLarge
  /-- Collections are nested deeper than can be followed, or a scalar is looked for in itself. -/
  | tooDeep
  deriving DecidableEq, Repr, Inhabited

/-- A token. A fault stands where the text stops being well formed. -/
inductive Token
  | version (major : Nat)
  | tagHandle (handle target : String)
  | otherDirective
  | documentStart
  | documentEnd
  | streamEnd
  | blockSequenceStart
  | blockMappingStart
  | blockEnd
  | flowSequenceStart
  | flowSequenceEnd
  | flowMappingStart
  | flowMappingEnd
  | blockEntry
  | flowEntry
  | key
  | value
  | aliasName (name : String)
  | anchor (name : String)
  | tag (handle : Option String) (suffix : String)
  | scalar (text : Label) (plain : Bool)
  | fault (error : Error)
  deriving DecidableEq, Repr, Inhabited

/-! ## Characters -/

/-- A line break. -/
def isBreak (c : Char) : Bool :=
  c == '\n' || c == '\r' || c == '\x85' || c == '\u2028' || c == '\u2029'

/-- A blank or a tab. -/
def isGap (c : Char) : Bool := c == ' ' || c == '\t'

/-- A character that a text may contain. -/
def isPrintable (c : Char) : Bool :=
  Text.inRanges [(0x09, 0x0A), (0x0D, 0x0D), (0x20, 0x7E), (0x85, 0x85), (0xA0, 0xD7FF),
    (0xE000, 0xFFFD), (0x10000, 0x10FFFF)] c.toNat

/-- A character of a name: an ASCII letter or digit, a hyphen or a low line. -/
def isNameChar (c : Char) : Bool := c.isAlphanum || c == '-' || c == '_'

/-- A character of a tag. -/
def isTagChar (c : Char) : Bool :=
  c.isAlphanum || "-;/?:@&=+$,_.!~*\x27()[]%".toList.contains c

/-- The text is at its end, or at a character of a class. -/
def endOr (accepts : Char → Bool) : List Char → Bool
  | [] => true
  | c :: _ => accepts c

/-- The text is at its end, or at a line break. -/
def atLineEnd (s : List Char) : Bool := endOr isBreak s

/-- The text is at its end, a space or a line break. -/
def atSpace (s : List Char) : Bool := endOr (fun c => c == ' ' || isBreak c) s

/-- The text is at its end, a blank, a tab or a line break. -/
def atGap (s : List Char) : Bool := endOr (fun c => isGap c || isBreak c) s

/-- The text begins with a document's start or end mark. -/
def atDocumentMark (s : List Char) : Bool :=
  match s with
  | '-' :: '-' :: '-' :: rest => atGap rest
  | '.' :: '.' :: '.' :: rest => atGap rest
  | _ => false

/-! ## Places in the text -/

/-- A place in the text: what is left, how much lies behind, and the line and column. -/
structure Spot where
  rest : List Char
  index : Nat
  line : Nat
  column : Nat
  deriving Inhabited

namespace Spot

/-- The place at the start of a text. -/
def ofText (text : List Char) : Spot := ⟨text, 0, 0, 0⟩

/-- The place behind the next character. A byte order mark takes no column. -/
def next (s : Spot) : Spot :=
  match s.rest with
  | [] => s
  | c :: rest =>
    if isBreak c && !(c == '\r' && rest.head? == some '\n') then ⟨rest, s.index + 1, s.line + 1, 0⟩
    else ⟨rest, s.index + 1, s.line, if c == '\ufeff' then s.column else s.column + 1⟩

/-- The place some characters further on. -/
def skip : Nat → Spot → Spot
  | 0, s => s
  | n + 1, s => skip n s.next

/-- The leading characters of a class, and the place behind them. -/
def takeWhile (accepts : Char → Bool) (s : Spot) : List Char × Spot :=
  let taken := s.rest.takeWhile accepts
  (taken, s.skip taken.length)

/-- The place behind the leading characters of a class. -/
def dropWhile (accepts : Char → Bool) (s : Spot) : Spot := (s.takeWhile accepts).2

/-- The next character is the given one. -/
def sees (s : Spot) (c : Char) : Bool := s.rest.head? == some c

/-- The line break at a place and the place behind it. All breaks but the line and paragraph
separators read as a newline. -/
def takeBreak (s : Spot) : List Char × Spot :=
  match s.rest with
  | '\r' :: '\n' :: _ => (['\n'], s.skip 2)
  | c :: _ =>
    if c == '\u2028' || c == '\u2029' then ([c], s.next)
    else if isBreak c then (['\n'], s.next)
    else ([], s)
  | [] => ([], s)

/-- The place behind a remark. -/
def skipRemark (s : Spot) : Spot := if s.sees '#' then s.dropWhile (!isBreak ·) else s

/-- The place behind spaces, a remark and the line break, where nothing else may stand. -/
def skipRestOfLine (s : Spot) : Except Error Spot :=
  let s := (s.dropWhile (· == ' ')).skipRemark
  if atLineEnd s.rest then .ok s.takeBreak.2 else .error .malformed

end Spot

end Checkup.Yaml
