import Checkup.Yaml.Scalar

/-!
# Cutting YAML into tokens

The lexer keeps the indentation of the open block collections and, for every level of flow
collections, the place of a token that may turn out to begin a simple key. When the colon of a
simple key is met, the key token is put before that place.

All readers take a bound on the number of steps, which is more than the characters left.
-/

namespace Checkup.Yaml

/-- A token that may begin a simple key. -/
structure SimpleKey where
  token : Nat
  required : Bool
  index : Nat
  line : Nat
  column : Nat
  deriving Inhabited

/-- The state of the lexer. `taken` are the tokens so far, the last one first, and `count` is their
number. `indent` is the column of the innermost block collection, -1 outside. -/
structure Lexer where
  spot : Spot
  taken : List Token
  count : Nat
  flow : Nat
  indent : Int
  outer : List Int
  keyAllowed : Bool
  keys : List (Nat × SimpleKey)
  deriving Inhabited

namespace Lexer

/-- The lexer at the start of a text. -/
def ofText (text : List Char) : Lexer := ⟨.ofText text, [], 0, 0, -1, [], true, []⟩

/-- Adds a token. -/
def emit (l : Lexer) (t : Token) : Lexer :=
  { l with taken := t :: l.taken, count := l.count + 1 }

/-- Puts a token before the one with a number. -/
def emitAt (l : Lexer) (n : Nat) (t : Token) : Lexer :=
  { l with taken := l.taken.insertIdx (l.count - n) t, count := l.count + 1 }

/-- The possible key at the current level. -/
def key? (l : Lexer) : Option SimpleKey := l.keys.lookup l.flow

/-- Forgets the possible key at the current level. -/
def forgetKey (l : Lexer) : Lexer := { l with keys := l.keys.filter fun k => k.1 != l.flow }

/-- Gives up the possible key at the current level; a key that must be one may not be given up. -/
def dropKey (l : Lexer) : Except Error Lexer :=
  match l.key? with
  | some key => if key.required then .error .malformed else .ok l.forgetKey
  | none => .ok l

/-- A key ends on its line and within 1024 characters. -/
def isStale (s : Spot) (key : SimpleKey) : Bool :=
  key.line != s.line || decide (1024 < s.index - key.index)

/-- Gives up the keys that can no longer be completed. -/
def dropStaleKeys (l : Lexer) : Except Error Lexer :=
  if l.keys.any fun k => isStale l.spot k.2 && k.2.required then .error .malformed
  else .ok { l with keys := l.keys.filter fun k => !isStale l.spot k.2 }

/-- Remembers that the next token may begin a simple key. -/
def saveKey (l : Lexer) : Except Error Lexer :=
  if l.keyAllowed then do
    let required := l.flow == 0 && l.indent == (l.spot.column : Int)
    let l ← l.dropKey
    let key : SimpleKey := ⟨l.count, required, l.spot.index, l.spot.line, l.spot.column⟩
    pure { l with keys := (l.flow, key) :: l.keys }
  else .ok l

/-- Closes the block collections that are indented deeper than a column. -/
def closeBlocks (column : Int) : List Int → Lexer → Lexer
  | [], l => l
  | outer :: others, l =>
    if column < l.indent then
      closeBlocks column others ({ l with indent := outer, outer := others }.emit .blockEnd)
    else l

/-- Closes the block collections that are indented deeper than a column, outside flow
collections. -/
def unwind (l : Lexer) (column : Int) : Lexer :=
  if l.flow = 0 then closeBlocks column l.outer l else l

/-- Opens a block collection at a column that is deeper than the current one. -/
def openBlock? (l : Lexer) (column : Nat) : Option Lexer :=
  if l.indent < column then
    some { l with outer := l.indent :: l.outer, indent := column }
  else none

/-- Opens a block collection where the column asks for it, with its start token at the end. -/
def openBlock (l : Lexer) (column : Nat) (t : Token) : Lexer :=
  match l.openBlock? column with
  | some l => l.emit t
  | none => l

/-- Moves on by some characters. -/
def skip (l : Lexer) (n : Nat) : Lexer := { l with spot := l.spot.skip n }

/-- Skips spaces, remarks and line breaks. A new line outside flow collections may begin a key. -/
def skipSpace : Nat → Lexer → Lexer
  | 0, l => l
  | fuel + 1, l =>
    let s := (l.spot.dropWhile (· == ' ')).skipRemark
    match s.takeBreak with
    | ([], s) => { l with spot := s }
    | (_, s) => skipSpace fuel { l with spot := s, keyAllowed := l.keyAllowed || l.flow == 0 }

/-- Skips a byte order mark at the start of the text, then all space. -/
def skipToToken (fuel : Nat) (l : Lexer) : Lexer :=
  let l := if l.spot.index == 0 && l.spot.sees '\ufeff' then l.skip 1 else l
  skipSpace fuel l

/-! ## Directives -/

/-- A number of a version directive. -/
def versionNumber (s : Spot) : Except Error (Nat × Spot) :=
  match s.takeWhile fun c => decide ('0' ≤ c) && decide (c ≤ '9') with
  | ([], _) => .error .malformed
  | (ds, s) =>
    if Number.maxDecimalDigits < ds.length then .error .noSuchValue
    else .ok (Number.digitsValue 10 (ds.map fun c => c.toNat - '0'.toNat), s)

/-- The handle of a tag: an exclamation mark, or a name between two of them. -/
def tagHandle (s : Spot) : Except Error (String × Spot) :=
  match s.rest with
  | '!' :: rest =>
    let name := rest.takeWhile isNameChar
    if rest.head? == some ' ' then .ok ("!", s.next)
    else if (rest.drop name.length).head? == some '!' then
      .ok (String.ofList ('!' :: name ++ ['!']), s.skip (name.length + 2))
    else .error .malformed
  | _ => .error .malformed

/-- The bytes that escapes with a percent sign name. -/
def percentBytes : Nat → Spot → Except Error (List UInt8 × Spot)
  | 0, s => .ok ([], s)
  | fuel + 1, s =>
    match s.rest with
    | '%' :: rest =>
      match hexDigits? 2 rest with
      | none => .error .malformed
      | some ds => do
        let (bytes, s) ← percentBytes fuel (s.skip 3)
        pure (UInt8.ofNat (Number.digitsValue 16 ds) :: bytes, s)
    | _ => .ok ([], s)

/-- The text of a tag; escapes with a percent sign must be valid text. -/
def tagText : Nat → Spot → Except Error (List Char × Spot)
  | 0, s => .ok ([], s)
  | fuel + 1, s =>
    match s.takeWhile fun c => isTagChar c && c != '%' with
    | (taken, s) =>
      if s.sees '%' then do
        let (bytes, s) ← percentBytes (s.rest.length + 1) s
        match String.fromUTF8? (ByteArray.mk bytes.toArray) with
        | none => .error .malformed
        | some text =>
          let (others, s) ← tagText fuel s
          pure (taken ++ text.toList ++ others, s)
      else .ok (taken, s)

/-- The text of a tag, which must not be empty. -/
def tagSuffix (s : Spot) : Except Error (String × Spot) := do
  let before := s.index
  let (text, s) ← tagText (s.rest.length + 1) s
  if s.index = before then .error .malformed else pure (String.ofList text, s)

/-- A directive from its percent sign on. -/
def directive (s : Spot) : Except Error (Token × Spot) := do
  let (name, s) := s.next.takeWhile isNameChar
  if name.isEmpty || !atSpace s.rest then throw .malformed
  let name := String.ofList name
  if name = "YAML" then
    let s := s.dropWhile (· == ' ')
    let (major, s) ← versionNumber s
    if !s.sees '.' then throw .malformed
    let (_, s) ← versionNumber s.next
    if !atSpace s.rest then throw .malformed
    pure (.version major, ← s.skipRestOfLine)
  else if name = "TAG" then
    let (handle, s) ← tagHandle (s.dropWhile (· == ' '))
    if !s.sees ' ' then throw .malformed
    let (target, s) ← tagSuffix (s.dropWhile (· == ' '))
    if !atSpace s.rest then throw .malformed
    pure (.tagHandle handle target, ← s.skipRestOfLine)
  else
    pure (.otherDirective, ← (s.dropWhile (!isBreak ·)).skipRestOfLine)

/-! ## Properties and aliases -/

/-- The name behind an anchor or alias mark. -/
def anchorName (s : Spot) : Except Error (String × Spot) :=
  match s.next.takeWhile isNameChar with
  | ([], _) => .error .malformed
  | (name, s) =>
    if atGap s.rest || s.rest.head?.any fun c => "?:,]\x7d%@\x60".toList.contains c then
      .ok (String.ofList name, s)
    else .error .malformed

/-- A tag from its exclamation mark on: in angle brackets, alone, or with a handle. -/
def tag (s : Spot) : Except Error (Token × Spot) := do
  let (token, s) ←
    match s.next.rest with
    | '<' :: _ => do
      let (text, s) ← tagSuffix (s.skip 2)
      if !s.sees '>' then throw .malformed
      pure (Token.tag none text, s.next)
    | rest =>
      if atGap rest then pure (Token.tag none "!", s.next)
      else do
        let own := (rest.takeWhile fun c => !(c == ' ' || isBreak c)).contains '!'
        let (handle, s) ← if own then tagHandle s else pure ("!", s.next)
        let (text, s) ← tagSuffix s
        pure (Token.tag (some handle) text, s)
  if atSpace s.rest then pure (token, s) else throw .malformed

/-! ## One token after another -/

/-- The characters that cannot begin a plain scalar. -/
def isIndicator (c : Char) : Bool := "-?:,[]\x7b\x7d#&*!|>\x27\"%@\x60".toList.contains c

/-- A plain scalar may begin here. -/
def atPlain (inFlow : Bool) : List Char → Bool
  | [] => false
  | c :: rest =>
    !(isGap c || isBreak c || isIndicator c) ||
      (!atGap rest && (c == '-' || (!inFlow && (c == '?' || c == ':'))))

/-- The end of the text closes all block collections. -/
def finish (l : Lexer) : Except Error Lexer := do
  let l ← (l.unwind (-1)).dropKey
  pure ({ l with keyAllowed := false, keys := [] }.emit .streamEnd)

/-- A directive. -/
def takeDirective (l : Lexer) : Except Error Lexer := do
  let l ← (l.unwind (-1)).dropKey
  let (token, s) ← directive l.spot
  pure ({ l with keyAllowed := false, spot := s }.emit token)

/-- The start or end mark of a document. -/
def takeDocumentMark (l : Lexer) (t : Token) : Except Error Lexer := do
  let l ← (l.unwind (-1)).dropKey
  pure (({ l with keyAllowed := false }.skip 3).emit t)

/-- The start of a flow collection. -/
def openFlow (l : Lexer) (t : Token) : Except Error Lexer := do
  let l ← l.saveKey
  pure (({ l with flow := l.flow + 1, keyAllowed := true }.skip 1).emit t)

/-- The end of a flow collection. -/
def closeFlow (l : Lexer) (t : Token) : Except Error Lexer := do
  let l ← l.dropKey
  pure (({ l with flow := l.flow - 1, keyAllowed := false }.skip 1).emit t)

/-- A comma in a flow collection. -/
def takeFlowEntry (l : Lexer) : Except Error Lexer := do
  let l ← { l with keyAllowed := true }.dropKey
  pure ((l.skip 1).emit .flowEntry)

/-- A hyphen that begins an item of a block sequence. -/
def takeBlockEntry (l : Lexer) : Except Error Lexer := do
  if l.flow == 0 && !l.keyAllowed then throw .malformed
  let l := if l.flow == 0 then l.openBlock l.spot.column .blockSequenceStart else l
  let l ← { l with keyAllowed := true }.dropKey
  pure ((l.skip 1).emit .blockEntry)

/-- A question mark that begins a key. -/
def takeKey (l : Lexer) : Except Error Lexer := do
  if l.flow == 0 && !l.keyAllowed then throw .malformed
  let l := if l.flow == 0 then l.openBlock l.spot.column .blockMappingStart else l
  let l ← { l with keyAllowed := l.flow == 0 }.dropKey
  pure ((l.skip 1).emit .key)

/-- A colon behind a simple key: the key token goes before the key, and before it the start of a
block mapping if the key begins one. -/
def completeKey (l : Lexer) (key : SimpleKey) : Lexer :=
  let l := l.forgetKey.emitAt key.token .key
  let l :=
    if l.flow == 0 then
      match l.openBlock? key.column with
      | some l => l.emitAt key.token .blockMappingStart
      | none => l
    else l
  { l with keyAllowed := false }

/-- A colon that begins a value. -/
def takeValue (l : Lexer) : Except Error Lexer := do
  let l ←
    match l.key? with
    | some key => pure (l.completeKey key)
    | none => do
      if l.flow == 0 && !l.keyAllowed then throw .malformed
      let l := if l.flow == 0 then l.openBlock l.spot.column .blockMappingStart else l
      { l with keyAllowed := l.flow == 0 }.dropKey
  pure ((l.skip 1).emit .value)

/-- An alias or an anchor. -/
def takeAnchor (l : Lexer) (token : String → Token) : Except Error Lexer := do
  let l ← l.saveKey
  let (name, s) ← anchorName l.spot
  pure ({ l with keyAllowed := false, spot := s }.emit (token name))

/-- A tag. -/
def takeTag (l : Lexer) : Except Error Lexer := do
  let l ← l.saveKey
  let (token, s) ← tag l.spot
  pure ({ l with keyAllowed := false, spot := s }.emit token)

/-- A block scalar. -/
def takeBlockScalar (fuel : Nat) (l : Lexer) (folded : Bool) : Except Error Lexer := do
  let l ← { l with keyAllowed := true }.dropKey
  let (text, s) ← blockScalar fuel folded l.indent l.spot
  pure ({ l with spot := s }.emit (.scalar (String.ofList text) false))

/-- A quoted scalar. -/
def takeQuoted (fuel : Nat) (l : Lexer) (double : Bool) : Except Error Lexer := do
  let l ← l.saveKey
  let (text, s) ← quotedScalar fuel double l.spot
  pure ({ l with keyAllowed := false, spot := s }.emit (.scalar text false))

/-- A plain scalar. -/
def takePlain (fuel : Nat) (l : Lexer) : Except Error Lexer := do
  let l ← l.saveKey
  let (text, broke, s) := plainScalar fuel (l.flow != 0) l.indent l.spot
  pure ({ l with keyAllowed := broke, spot := s }.emit (.scalar (String.ofList text) true))

/-- Reads the next token, which begins with `c`. -/
def takeToken (fuel : Nat) (l : Lexer) (c : Char) (rest : List Char) : Except Error Lexer :=
  let s := l.spot
  let inFlow := l.flow != 0
  if c = '%' && s.column == 0 then l.takeDirective
  else if c = '-' && s.column == 0 && atDocumentMark s.rest then l.takeDocumentMark .documentStart
  else if c = '.' && s.column == 0 && atDocumentMark s.rest then l.takeDocumentMark .documentEnd
  else if c = '[' then l.openFlow .flowSequenceStart
  else if c = '\x7b' then l.openFlow .flowMappingStart
  else if c = ']' then l.closeFlow .flowSequenceEnd
  else if c = '\x7d' then l.closeFlow .flowMappingEnd
  else if c = ',' then l.takeFlowEntry
  else if c = '-' && atGap rest then l.takeBlockEntry
  else if c = '?' && (inFlow || atGap rest) then l.takeKey
  else if c = ':' && (inFlow || atGap rest) then l.takeValue
  else if c = '*' then l.takeAnchor .aliasName
  else if c = '&' then l.takeAnchor .anchor
  else if c = '!' then l.takeTag
  else if c = '|' && !inFlow then l.takeBlockScalar fuel false
  else if c = '>' && !inFlow then l.takeBlockScalar fuel true
  else if c = '\x27' then l.takeQuoted fuel false
  else if c = '"' then l.takeQuoted fuel true
  else if atPlain inFlow s.rest then l.takePlain fuel
  else .error .malformed

/-- Reads the next token, or the end of the text. -/
def step (fuel : Nat) (l : Lexer) : Except Error Lexer := do
  let l ← (l.skipToToken fuel).dropStaleKeys
  let l := l.unwind l.spot.column
  match l.spot.rest with
  | [] => l.finish
  | c :: rest => l.takeToken fuel c rest

/-- The number of tokens before the first one that may still begin a key. What stands before such
a token is known only once the text behind it has been read. -/
def settled (l : Lexer) : Nat :=
  ((l.keys.filter fun k => !isStale l.spot k.2).map fun k => k.2.token).foldl min l.count

/-- The settled tokens and a fault behind them. -/
def failed (l : Lexer) (fault : Error) : List Token :=
  (.fault fault :: l.taken.drop (l.count - l.settled)).reverse

/-- Reads tokens up to the end of the text or the first fault. -/
def run : Nat → Lexer → List Token
  | 0, l => l.failed .malformed
  | fuel + 1, l =>
    match l.step fuel with
    | .error fault => l.failed fault
    | .ok l => if l.taken.head? == some .streamEnd then l.taken.reverse else run fuel l

end Lexer

/-- The tokens of a text. A character that a text may not contain makes all of it a fault. -/
def tokens (text : List Char) : List Token :=
  if text.all isPrintable then Lexer.run (text.length + 2) (.ofText text)
  else [.fault .malformed]

end Checkup.Yaml
