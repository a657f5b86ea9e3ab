import Checkup.Yaml.Lexer
import Checkup.Yaml.Tag

/-!
# Nodes of YAML

The graph that the tokens of one document form: scalars, sequences and mappings, each with its tag
and a number. An alias is the number of the node it names, so that a collection may contain itself.

All readers take a bound on the number of steps, which `Graph.ofText?` computes from the tokens.
-/

namespace Checkup.Yaml

/-- A node. It names the nodes in it by their numbers. -/
inductive Node
  | scalar (tag : Tag) (text : Label)
  | seq (tag : Tag) (items : List Nat)
  | map (tag : Tag) (pairs : List (Nat × Nat))
  deriving DecidableEq, Inhabited, Repr

namespace Node

/-- The tag of a node. -/
def tag : Node → Tag
  | scalar tag _ => tag
  | seq tag _ => tag
  | map tag _ => tag

/-- The node with another tag. -/
def withTag (tag : Tag) : Node → Node
  | scalar _ text => scalar tag text
  | seq _ items => seq tag items
  | map _ pairs => map tag pairs

/-- The pairs of a mapping. -/
def pairs? : Node → Option (List (Nat × Nat))
  | map _ pairs => some pairs
  | _ => none

/-- The node that stands for nothing. -/
def nothing : Node := scalar .null (.text "")

end Node

/-- The nodes of a document by their numbers. -/
abbrev Nodes := Array Node

namespace Nodes

/-- The node with a number. -/
def node (nodes : Nodes) (n : Nat) : Node := nodes[n]?.getD .nothing

/-- The tag of the node with a number. -/
def tag (nodes : Nodes) (n : Nat) : Tag := (nodes.node n).tag

/-- The nodes with another one under a number. -/
def put (nodes : Nodes) (n : Nat) (node : Node) : Nodes := nodes.setIfInBounds n node

end Nodes

/-- The nodes of a document and the number of its root. -/
structure Graph where
  nodes : Nodes
  root : Nat
  deriving Inhabited, Repr

/-- What is left to read, the nodes read so far, the nodes that anchors name, and the number of open
collections. The node of an open collection is empty. -/
structure Source where
  tokens : List Token
  nodes : Nodes := #[]
  anchors : List (String × Nat) := []
  depth : Nat := 0
  deriving Inhabited

/-- Collections are nested at most so deep. The interpreter allows 1000 nested calls, reading takes two
for every collection, and the calls up to the reader and those for the innermost scalar take about
twenty-six. -/
def maxDepth : Nat := 487

namespace Source

/-- The next token. -/
def peek (s : Source) : Except Error Token :=
  match s.tokens with
  | [] => .ok .streamEnd
  | .fault e :: _ => .error e
  | t :: _ => .ok t

/-- What follows the next token. -/
def drop (s : Source) : Source := { s with tokens := s.tokens.drop 1 }

/-- Adds a node; it has the next number. -/
def add (s : Source) (node : Node) : Nat × Source :=
  (s.nodes.size, { s with nodes := s.nodes.push node })

/-- Adds a node that stands for nothing. -/
def addNothing (s : Source) : Nat × Source := s.add .nothing

/-- Lets an anchor name a node. -/
def name (s : Source) (anchor : Option String) (n : Nat) : Source :=
  match anchor with
  | none => s
  | some anchor => { s with anchors := (anchor, n) :: s.anchors }

/-- Opens a collection: adds the empty node that it is so far. -/
def enter (s : Source) (anchor : Option String) (node : Node) : Except Error (Nat × Source) :=
  if s.depth < maxDepth then
    let (n, s) := s.add node
    .ok (n, { s.name anchor n with depth := s.depth + 1 })
  else .error .tooDeep

/-- Closes a collection: the node is known now. -/
def leave (s : Source) (n : Nat) (node : Node) : Source :=
  { s with nodes := s.nodes.put n node, depth := s.depth - 1 }

end Source

/-- The tag handles that every document knows. -/
def defaultHandles : List (String × String) := [("!", "!"), ("!!", Tag.coreText)]

/-- The full tag for a handle and what follows it. -/
def expandTag (handles : List (String × String)) : Option String → String → Except Error String
  | none, suffix => .ok suffix
  | some handle, suffix =>
    match handles.lookup handle with
    | some target => .ok (target ++ suffix)
    | none => .error .malformed

/-- The properties of a node: an anchor and a tag, in either order. -/
structure Properties where
  anchor : Option String
  tag : Option String

namespace Properties

/-- The tag of a collection. -/
def collectionTag (p : Properties) (default : Tag) : Tag :=
  match p.tag with
  | none => default
  | some "!" => default
  | some text => .ofText text

/-- The tag of a scalar. Only a plain one without a tag, or one with the mark `!`, has the type of
its form. -/
def scalarTag (p : Properties) (text : Label) (plain : Bool) : Tag :=
  match p.tag with
  | none => if plain then .ofPlain text.nearest else .str
  | some "!" => .ofPlain text.nearest
  | some tag => .ofText tag

end Properties

/-- An anchor mark, if one comes next. -/
def takeAnchor (s : Source) : Except Error (Option String × Source) := do
  match ← s.peek with
  | .anchor name => pure (some name, s.drop)
  | _ => pure (none, s)

/-- A tag, if one comes next. -/
def takeTag (s : Source) : Except Error (Option (Option String × String) × Source) := do
  match ← s.peek with
  | .tag handle suffix => pure (some (handle, suffix), s.drop)
  | _ => pure (none, s)

/-- The properties that come next. -/
def takeProperties (handles : List (String × String)) (s : Source) :
    Except Error (Properties × Source) := do
  let (anchor, s) ← takeAnchor s
  let (tag, s) ← takeTag s
  let (anchor, s) ← if anchor.isSome then pure (anchor, s) else takeAnchor s
  match tag with
  | none => pure (⟨anchor, none⟩, s)
  | some (handle, suffix) => pure (⟨anchor, some (← expandTag handles handle suffix)⟩, s)

/-- An anchor must be new in the document. -/
def requireNew (s : Source) : Option String → Except Error Unit
  | none => .ok ()
  | some name => if (s.anchors.lookup name).isSome then .error .malformed else .ok ()

/-- The node an alias names. -/
def aliased (s : Source) (name : String) : Except Error Nat :=
  match s.anchors.lookup name with
  | none => .error .malformed
  | some n => .ok n

/-- The token ends an item of a block collection without a node of its own. -/
def endsBlockKey : Token → Bool
  | .key | .value | .blockEnd => true
  | _ => false

/-- The token ends an item of a sequence that is not indented. -/
def endsIndentless : Token → Bool
  | .blockEntry | .key | .value | .blockEnd => true
  | _ => false

/-- The place at which a node is read: whether block collections may stand there, and whether a
sequence may stand there that is not indented. -/
inductive Place
  | flow
  | block
  | blockOrIndentless
  deriving DecidableEq

mutual

/-- The node that comes next. -/
def node (handles : List (String × String)) : Nat → Place → Source → Except Error (Nat × Source)
  | 0, _, _ => .error .malformed
  | fuel + 1, place, s => do
    match ← s.peek with
    | .aliasName name => pure (← aliased s name, s.drop)
    | _ =>
      let (p, s) ← takeProperties handles s
      let next ← s.peek
      requireNew s p.anchor
      match next, place with
      | .blockEntry, .blockOrIndentless =>
        let (n, s) ← s.enter p.anchor (.seq (p.collectionTag .seq) [])
        let (items, s) ← indentlessItems handles fuel s
        pure (n, s.leave n (.seq (p.collectionTag .seq) items))
      | .scalar text plain, _ =>
        let (n, s) := s.drop.add (.scalar (p.scalarTag text plain) text)
        pure (n, s.name p.anchor n)
      | .flowSequenceStart, _ =>
        let (n, s) ← s.drop.enter p.anchor (.seq (p.collectionTag .seq) [])
        let (items, s) ← flowItems handles fuel true s
        pure (n, s.leave n (.seq (p.collectionTag .seq) items))
      | .flowMappingStart, _ =>
        let (n, s) ← s.drop.enter p.anchor (.map (p.collectionTag .map) [])
        let (pairs, s) ← flowPairs handles fuel true s
        pure (n, s.leave n (.map (p.collectionTag .map) pairs))
      | .blockSequenceStart, .block | .blockSequenceStart, .blockOrIndentless =>
        let (n, s) ← s.drop.enter p.anchor (.seq (p.collectionTag .seq) [])
        let (items, s) ← blockItems handles fuel s
        pure (n, s.leave n (.seq (p.collectionTag .seq) items))
      | .blockMappingStart, .block | .blockMappingStart, .blockOrIndentless =>
        let (n, s) ← s.drop.enter p.anchor (.map (p.collectionTag .map) [])
        let (pairs, s) ← blockPairs handles fuel s
        pure (n, s.leave n (.map (p.collectionTag .map) pairs))
      | _, _ =>
        if p.anchor.isSome || p.tag.isSome then
          let (n, s) := s.add (.scalar (p.scalarTag (.text "") true) (.text ""))
          pure (n, s.name p.anchor n)
        else throw .malformed

/-- The items of a block sequence up to its end. -/
def blockItems (handles : List (String × String)) : Nat → Source → Except Error (List Nat × Source)
  | 0, _ => .error .malformed
  | fuel + 1, s => do
    match ← s.peek with
    | .blockEntry =>
      let s := s.drop
      let (item, s) ←
        match ← s.peek with
        | .blockEntry | .blockEnd => pure s.addNothing
        | _ => node handles fuel .block s
      let (items, s) ← blockItems handles fuel s
      pure (item :: items, s)
    | .blockEnd => pure ([], s.drop)
    | _ => throw .malformed

/-- The items of a block sequence that is not indented; nothing marks its end. -/
def indentlessItems (handles : List (String × String)) :
    Nat → Source → Except Error (List Nat × Source)
  | 0, _ => .error .malformed
  | fuel + 1, s => do
    match ← s.peek with
    | .blockEntry =>
      let s := s.drop
      let next ← s.peek
      let (item, s) ←
        if endsIndentless next then pure s.addNothing else node handles fuel .block s
      let (items, s) ← indentlessItems handles fuel s
      pure (item :: items, s)
    | _ => pure ([], s)

/-- The pairs of a block mapping up to its end. -/
def blockPairs (handles : List (String × String)) :
    Nat → Source → Except Error (List (Nat × Nat) × Source)
  | 0, _ => .error .malformed
  | fuel + 1, s => do
    match ← s.peek with
    | .key =>
      let s := s.drop
      let next ← s.peek
      let (key, s) ←
        if endsBlockKey next then pure s.addNothing else node handles fuel .blockOrIndentless s
      let (value, s) ←
        match ← s.peek with
        | .value => do
          let s := s.drop
          let next ← s.peek
          if endsBlockKey next then pure s.addNothing else node handles fuel .blockOrIndentless s
        | _ => pure s.addNothing
      let (pairs, s) ← blockPairs handles fuel s
      pure ((key, value) :: pairs, s)
    | .blockEnd => pure ([], s.drop)
    | _ => throw .malformed

/-- The items of a flow sequence up to its end. A key in it makes a mapping of one pair. -/
def flowItems (handles : List (String × String)) :
    Nat → Bool → Source → Except Error (List Nat × Source)
  | 0, _, _ => .error .malformed
  | fuel + 1, first, s => do
    match ← s.peek with
    | .flowSequenceEnd => pure ([], s.drop)
    | next =>
      let s ← if first then pure s else if next == .flowEntry then pure s.drop else throw .malformed
      match ← s.peek with
      | .flowSequenceEnd => pure ([], s.drop)
      | .key =>
        let s := s.drop
        let (key, s) ←
          match ← s.peek with
          | .value | .flowEntry | .flowSequenceEnd => pure s.addNothing
          | _ => node handles fuel .flow s
        let (value, s) ←
          match ← s.peek with
          | .value => do
            let s := s.drop
            match ← s.peek with
            | .flowEntry | .flowSequenceEnd => pure s.addNothing
            | _ => node handles fuel .flow s
          | _ => pure s.addNothing
        let (item, s) := s.add (.map .map [(key, value)])
        let (items, s) ← flowItems handles fuel false s
        pure (item :: items, s)
      | _ =>
        let (item, s) ← node handles fuel .flow s
        let (items, s) ← flowItems handles fuel false s
        pure (item :: items, s)

/-- The pairs of a flow mapping up to its end. A node without a key mark has no value. -/
def flowPairs (handles : List (String × String)) :
    Nat → Bool → Source → Except Error (List (Nat × Nat) × Source)
  | 0, _, _ => .error .malformed
  | fuel + 1, first, s => do
    match ← s.peek with
    | .flowMappingEnd => pure ([], s.drop)
    | next =>
      let s ← if first then pure s else if next == .flowEntry then pure s.drop else throw .malformed
      match ← s.peek with
      | .flowMappingEnd => pure ([], s.drop)
      | .key =>
        let s := s.drop
        let (key, s) ←
          match ← s.peek with
          | .value | .flowEntry | .flowMappingEnd => pure s.addNothing
          | _ => node handles fuel .flow s
        let (value, s) ←
          match ← s.peek with
          | .value => do
            let s := s.drop
            match ← s.peek with
            | .flowEntry | .flowMappingEnd => pure s.addNothing
            | _ => node handles fuel .flow s
          | _ => pure s.addNothing
        let (pairs, s) ← flowPairs handles fuel false s
        pure ((key, value) :: pairs, s)
      | _ =>
        let (key, s) ← node handles fuel .flow s
        let (value, s) := s.addNothing
        let (pairs, s) ← flowPairs handles fuel false s
        pure ((key, value) :: pairs, s)

end

/-! ## Documents -/

/-- The directives before a document: its tag handles. At most one version is given, and it must be
version 1; a handle is given once. -/
def directives : Bool → List (String × String) → List Token →
    Except Error (List (String × String) × List Token)
  | versioned, handles, .version major :: rest =>
    if versioned || major != 1 then .error .malformed else directives true handles rest
  | versioned, handles, .tagHandle handle target :: rest =>
    if (handles.lookup handle).isSome then .error .malformed
    else directives versioned (handles ++ [(handle, target)]) rest
  | versioned, handles, .otherDirective :: rest => directives versioned handles rest
  | _, handles, rest => .ok (handles, rest)

/-- The token stands outside of a document's content. -/
def endsDocument : Token → Bool
  | .version _ | .tagHandle .. | .otherDirective => true
  | .documentStart | .documentEnd | .streamEnd => true
  | _ => false

/-- The token stands before an explicit document. -/
def opensDocument : Token → Bool
  | .version _ | .tagHandle .. | .otherDirective | .documentStart => true
  | _ => false

/-- The root of the document that comes next; nothing if the text has none. -/
def document (fuel : Nat) (s : Source) : Except Error (Option Nat × Source) := do
  let next ← s.peek
  if next == .streamEnd then pure (none, s)
  else if opensDocument next then
    let (given, tokens) ← directives false [] s.tokens
    let s := { s with tokens := tokens }
    if (← s.peek) != .documentStart then throw .malformed
    let s := s.drop
    if endsDocument (← s.peek) then
      let (root, s) := s.addNothing
      pure (some root, s)
    else
      let (root, s) ← node (given ++ defaultHandles) fuel .block s
      pure (some root, s)
  else
    let (root, s) ← node defaultHandles fuel .block s
    pure (some root, s)

/-- What follows the marks that end a document. -/
def dropDocumentEnds : List Token → List Token
  | .documentEnd :: rest => dropDocumentEnds rest
  | tokens => tokens

/-- Nothing follows a document but marks that end it. -/
def endsText (s : Source) : Except Error Unit := do
  let s := { s with tokens := dropDocumentEnds s.tokens }
  if (← s.peek) == .streamEnd then pure ()
  else
    let (_, tokens) ← directives false [] s.tokens
    let _ ← { s with tokens := tokens }.peek
    throw .malformed

/-- The graph of a text that holds at most one document. -/
def Graph.ofText? (text : List Char) : Except Error (Option Graph) := do
  let all := tokens text
  let (root, s) ← document (2 * all.length + 8) { tokens := all }
  endsText s
  pure (root.map fun root => ⟨s.nodes, root⟩)

end Checkup.Yaml
