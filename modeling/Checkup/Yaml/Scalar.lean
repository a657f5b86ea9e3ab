import Checkup.Yaml.Token

/-!
# Scalars in the text

Each function reads one scalar, or a part of one, at a place and returns its text together with the
place behind it. All readers take a bound on the number of rounds, which is more than the characters
left.
-/

namespace Checkup.Yaml

/-! ## Plain scalars -/

/-- The breaks and spaces between two lines of a plain scalar; none where a document mark
follows. -/
def plainBreaks : Nat → Spot → Option (List Char) × Spot
  | 0, s => (some [], s)
  | fuel + 1, s =>
    match s.rest with
    | [] => (some [], s)
    | c :: _ =>
      if c == ' ' then plainBreaks fuel s.next
      else if isBreak c then
        let (lineBreak, s) := s.takeBreak
        if atDocumentMark s.rest then (none, s)
        else
          match plainBreaks fuel s with
          | (some breaks, s) => (some (lineBreak ++ breaks), s)
          | (none, s) => (none, s)
      else (some [], s)

/-- What stands between a line break and further breaks, folded: a single newline is a blank. -/
def foldBreaks (lineBreak breaks : List Char) : List Char :=
  if lineBreak != ['\n'] then lineBreak ++ breaks
  else if breaks.isEmpty then [' ']
  else breaks

/-- The space between two parts of a plain scalar, and whether it spans lines. -/
def plainSpace (fuel : Nat) (s : Spot) : List Char × Bool × Spot :=
  let (blanks, s) := s.takeWhile (· == ' ')
  if s.rest.head?.any isBreak then
    let (lineBreak, s) := s.takeBreak
    if atDocumentMark s.rest then ([], true, s)
    else
      match plainBreaks fuel s with
      | (some breaks, s) => (foldBreaks lineBreak breaks, true, s)
      | (none, s) => ([], true, s)
  else (blanks, false, s)

/-- The characters that set apart the parts of flow collections. -/
def isFlowMark (c : Char) : Bool := c == ',' || c == '[' || c == ']' || c == '\x7b' || c == '\x7d'

/-- The part of a plain scalar up to the next gap or mark. -/
def plainPart (inFlow : Bool) : List Char → List Char
  | [] => []
  | c :: rest =>
    if isGap c || isBreak c then []
    else if c == ':' && (atGap rest || (inFlow && rest.head?.any isFlowMark)) then []
    else if inFlow && (isFlowMark c || c == '?') then []
    else c :: plainPart inFlow rest

/-- A plain scalar behind a space: the space and its text, whether it ended after a line break, and
the place behind it. -/
def plainFrom (inFlow : Bool) (indent : Int) :
    Nat → List Char → Bool → Spot → List Char × Bool × Spot
  | 0, _, broke, s => ([], broke, s)
  | fuel + 1, space, broke, s =>
    if s.sees '#' then ([], broke, s)
    else
      match plainPart inFlow s.rest with
      | [] => ([], broke, s)
      | part =>
        let (nextSpace, broke, s) := plainSpace fuel (s.skip part.length)
        if nextSpace.isEmpty || s.sees '#' || (!inFlow && decide ((s.column : Int) < indent)) then
          (space ++ part, broke, s)
        else
          let (others, broke, s) := plainFrom inFlow indent fuel nextSpace broke s
          (space ++ part ++ others, broke, s)

/-- A plain scalar under an indentation. -/
def plainScalar (fuel : Nat) (inFlow : Bool) (indent : Int) (s : Spot) : List Char × Bool × Spot :=
  plainFrom inFlow (indent + 1) fuel [] false s

/-! ## Quoted scalars -/

/-- The character that a short escape names. -/
def shortEscape? : Char → Option Char
  | '0' => some '\x00'
  | 'a' => some '\x07'
  | 'b' => some '\x08'
  | 't' => some '\t'
  | '\t' => some '\t'
  | 'n' => some '\n'
  | 'v' => some '\x0b'
  | 'f' => some '\x0c'
  | 'r' => some '\r'
  | 'e' => some '\x1b'
  | ' ' => some ' '
  | '"' => some '"'
  | '\\' => some '\\'
  | '/' => some '/'
  | 'N' => some '\x85'
  | '_' => some '\xa0'
  | 'L' => some '\u2028'
  | 'P' => some '\u2029'
  | _ => none

/-- The number of hexadecimal digits of a long escape. -/
def escapeDigits? : Char → Option Nat
  | 'x' => some 2
  | 'u' => some 4
  | 'U' => some 8
  | _ => none

/-- The values of exactly so many hexadecimal digits at the start of a text. -/
def hexDigits? : Nat → List Char → Option (List Nat)
  | 0, _ => some []
  | _ + 1, [] => none
  | n + 1, c :: rest => do
    let d ← Text.hexValue? c
    let ds ← hexDigits? n rest
    pure (d :: ds)

/-- The line breaks and indentation inside a quoted scalar. -/
def quotedBreaks : Nat → Spot → Except Error (List Char × Spot)
  | 0, s => .ok ([], s)
  | fuel + 1, s =>
    if atDocumentMark s.rest then .error .malformed
    else
      let s := s.dropWhile isGap
      match s.takeBreak with
      | ([], s) => .ok ([], s)
      | (lineBreak, s) => do
        let (breaks, s) ← quotedBreaks fuel s
        pure (lineBreak ++ breaks, s)

/-- The space between two parts of a quoted scalar. -/
def quotedSpace (fuel : Nat) (s : Spot) : Except Error (List Char × Spot) :=
  let (blanks, s) := s.takeWhile isGap
  match s.rest with
  | [] => .error .malformed
  | c :: _ =>
    if isBreak c then do
      let (lineBreak, s) := s.takeBreak
      let (breaks, s) ← quotedBreaks fuel s
      pure (foldBreaks lineBreak breaks, s)
    else .ok (blanks, s)

/-- The code points of characters. -/
def pointsOf (s : List Char) : List Nat := s.map Char.toNat

/-- The escape behind a backslash. An escaped line break joins two lines. -/
def escape (fuel : Nat) (s : Spot) : Except Error (List Nat × Spot) :=
  match s.rest with
  | [] => .error .malformed
  | c :: rest =>
    match shortEscape? c, escapeDigits? c with
    | some named, _ => .ok ([named.toNat], s.next)
    | none, some n =>
      match hexDigits? n rest with
      | none => .error .malformed
      | some ds =>
        let code := Number.digitsValue 16 ds
        if 0x7FFFFFFF < code then .error .tooLarge
        else if 0x10FFFF < code then .error .noSuchValue
        else .ok ([code], s.skip (n + 1))
    | none, none =>
      if isBreak c then do
        let (breaks, s) ← quotedBreaks fuel s.takeBreak.2
        pure (pointsOf breaks, s)
      else .error .malformed

/-- A character that stands for itself in a quoted scalar of either form. -/
def isQuotedChar (c : Char) : Bool :=
  !(c == '\x27' || c == '"' || c == '\\' || isGap c || isBreak c)

/-- The code points of a quote, an escaped quote or an escape inside a quoted scalar; none at its
end or at a gap. -/
def quotedMark (double : Bool) (fuel : Nat) (s : Spot) :
    Except Error (Option (List Nat × Spot)) :=
  match s.rest with
  | [] => .ok none
  | c :: rest =>
    if c == '\x27' then
      if double then .ok (some ([c.toNat], s.next))
      else if rest.head? == some '\x27' then .ok (some ([c.toNat], s.skip 2))
      else .ok none
    else if c == '"' then .ok (if double then none else some ([c.toNat], s.next))
    else if c == '\\' then
      if double then (escape fuel s.next).map some else .ok (some ([c.toNat], s.next))
    else .ok none

/-- The code points of a quoted scalar up to the next space or its end. -/
def quotedPart (double : Bool) : Nat → Spot → Except Error (List Nat × Spot)
  | 0, s => .ok ([], s)
  | fuel + 1, s => do
    let (taken, s) := s.takeWhile isQuotedChar
    match ← quotedMark double fuel s with
    | none => pure (pointsOf taken, s)
    | some (marked, s) =>
      let (others, s) ← quotedPart double fuel s
      pure (pointsOf taken ++ marked ++ others, s)

/-- The code points of a quoted scalar behind its opening quote. -/
def quotedFrom (double : Bool) : Nat → Spot → Except Error (List Nat × Spot)
  | 0, _ => .error .malformed
  | fuel + 1, s => do
    let (part, s) ← quotedPart double fuel s
    if s.sees (if double then '"' else '\x27') then pure (part, s.next)
    else
      let (space, s) ← quotedSpace fuel s
      let (others, s) ← quotedFrom double fuel s
      pure (part ++ pointsOf space ++ others, s)

/-- A quoted scalar from its opening quote on. An escape may name half of a UTF-16 pair, which no
other half joins. -/
def quotedScalar (fuel : Nat) (double : Bool) (s : Spot) : Except Error (Label × Spot) := do
  let (points, s) ← quotedFrom double fuel s.next
  pure (.ofPoints points, s)

/-! ## Block scalars -/

/-- What becomes of the line breaks at the end of a block scalar. -/
inductive Chomping
  | strip
  | clip
  | keep
  deriving DecidableEq, Repr

/-- A chomping mark. -/
def chomping? : Char → Option Chomping
  | '-' => some .strip
  | '+' => some .keep
  | _ => none

/-- An indentation mark: a digit but zero. -/
def indentMark (s : Spot) : Except Error (Option Nat × Spot) :=
  match s.rest with
  | c :: _ =>
    if '0' ≤ c ∧ c ≤ '9' then
      if c = '0' then .error .malformed else .ok (some (c.toNat - '0'.toNat), s.next)
    else .ok (none, s)
  | [] => .ok (none, s)

/-- A chomping mark, if there is one. -/
def chompingMark (s : Spot) : Option Chomping × Spot :=
  match s.rest.head?.bind chomping? with
  | some chomping => (some chomping, s.next)
  | none => (none, s)

/-- The marks behind the indicator of a block scalar, in either order. -/
def blockMarks (s : Spot) : Except Error (Chomping × Option Nat × Spot) := do
  let (chomping, s) := chompingMark s
  let (indent, s) ← indentMark s
  let (chomping, s) := if chomping.isNone && indent.isSome then chompingMark s else (chomping, s)
  if atSpace s.rest then pure (chomping.getD .clip, indent, s) else .error .malformed

/-- The empty lines before a block scalar and its greatest indentation among them. -/
def blockIndentation : Nat → Nat → Spot → List Char × Nat × Spot
  | 0, deepest, s => ([], deepest, s)
  | fuel + 1, deepest, s =>
    match s.rest with
    | [] => ([], deepest, s)
    | c :: _ =>
      if c == ' ' then blockIndentation fuel (max deepest s.next.column) s.next
      else if isBreak c then
        let (lineBreak, s) := s.takeBreak
        let (breaks, deepest, s) := blockIndentation fuel deepest s
        (lineBreak ++ breaks, deepest, s)
      else ([], deepest, s)

/-- The place behind at most so many spaces. -/
def skipSpaces : Nat → Spot → Spot
  | 0, s => s
  | n + 1, s => if s.sees ' ' then skipSpaces n s.next else s

/-- The empty lines between two lines of a block scalar. -/
def blockBreaks (indent : Nat) : Nat → Spot → List Char × Spot
  | 0, s => ([], s)
  | fuel + 1, s =>
    let s := skipSpaces (indent - s.column) s
    match s.takeBreak with
    | ([], s) => ([], s)
    | (lineBreak, s) =>
      let (breaks, s) := blockBreaks indent fuel s
      (lineBreak ++ breaks, s)

/-- The place is inside a block scalar of an indentation. -/
def inBlock (indent : Nat) (s : Spot) : Bool := s.column == indent && !s.rest.isEmpty

/-- The lines of a block scalar, its last line break, and the breaks after it. -/
def blockLines (folded : Bool) (indent : Nat) :
    Nat → List Char → Spot → List Char × List Char × List Char × Spot
  | 0, breaks, s => ([], [], breaks, s)
  | fuel + 1, breaks, s =>
    let solid := !s.rest.head?.any isGap
    let (line, s) := s.takeWhile (!isBreak ·)
    let (lineBreak, s) := s.takeBreak
    let (nextBreaks, s) := blockBreaks indent fuel s
    let head := breaks ++ line
    if inBlock indent s then
      let joint :=
        if folded && lineBreak == ['\n'] && solid && !s.rest.head?.any isGap then
          (if nextBreaks.isEmpty then [' '] else [])
        else lineBreak
      let (text, lastBreak, lastBreaks, s) := blockLines folded indent fuel nextBreaks s
      (head ++ joint ++ text, lastBreak, lastBreaks, s)
    else (head, lineBreak, nextBreaks, s)

/-- A block scalar from its indicator on, under an indentation. -/
def blockScalar (fuel : Nat) (folded : Bool) (indent : Int) (s : Spot) :
    Except Error (List Char × Spot) := do
  let (chomping, mark, s) ← blockMarks s.next
  let s ← s.skipRestOfLine
  let least := max (indent + 1) 1
  let (breaks, indent, s) :=
    match mark with
    | none =>
      let (breaks, deepest, s) := blockIndentation fuel 0 s
      (breaks, max least deepest, s)
    | some n =>
      let indent := least + n - 1
      let (breaks, s) := blockBreaks indent.toNat fuel s
      (breaks, indent, s)
  let indent := indent.toNat
  let (text, lastBreak, lastBreaks, s) :=
    if inBlock indent s then blockLines folded indent fuel breaks s else ([], [], breaks, s)
  pure (text ++ (if chomping = .strip then [] else lastBreak) ++
    (if chomping = .keep then lastBreaks else []), s)

end Checkup.Yaml
