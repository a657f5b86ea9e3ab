import Checkup.Yaml.Merge
import Checkup.Yaml.Value

/-!
# Documents of YAML

The values of all nodes that can be reached from the root of a document. Values are made level by
level: the parts of a collection are met when it is filled, and collections among them are filled
after all that were met before. The first fault on the way decides.
-/

namespace Checkup.Yaml

/-- A document: its root, and the values in it by the numbers of their nodes. -/
structure Document where
  root : Value
  parts : Array (Option Value)
  deriving Inhabited, Repr

/-- Values in the making: the nodes, the values so far, and the collections in the order in which
they were met. A collection is empty until it is filled. -/
structure Building where
  nodes : Nodes
  values : Array (Option Value)
  met : Array Nat
  deriving Inhabited

/-- The text of a node that is read as a scalar: its own, or that of the value under the key `=` of
a mapping. No chain of such values is longer than there are nodes. -/
def Nodes.scalarText (nodes : Nodes) : Nat → Nat → Except Error Label
  | 0, _ => .error .tooDeep
  | fuel + 1, n =>
    match nodes.node n with
    | .scalar _ text => .ok text
    | .seq .. => .error .malformed
    | .map _ pairs =>
      match pairs.find? fun pair => nodes.tag pair.1 = .value with
      | some pair => nodes.scalarText fuel pair.2
      | none => .error .malformed

/-- The scalar of a type that a node denotes. -/
def Nodes.scalarValue (nodes : Nodes) (tag : Tag) (n : Nat) : Except Error Value :=
  if !tag.isScalar then .error .malformed
  else do
    let text ← nodes.scalarText (nodes.size + 1) n
    if tag = .timestamp ∧ (nodes.node n).pairs?.isSome then .error .momentOfMapping
    else Yaml.scalarValue tag text

namespace Building

/-- No value has been made yet. -/
def start (nodes : Nodes) : Building := ⟨nodes, Array.replicate nodes.size none, #[]⟩

/-- The value of a node, if it has been made. -/
def value? (b : Building) (n : Nat) : Option Value := b.values[n]?.join

/-- Gives a node its value. -/
def put (b : Building) (n : Nat) (value : Value) : Building :=
  { b with values := b.values.setIfInBounds n (some value) }

/-- Meets a node: makes its value, or an empty collection that is filled later. -/
def meet (b : Building) (n : Nat) : Except Error Building :=
  if (b.value? n).isSome then .ok b
  else
    match Value.empty? (b.nodes.tag n) with
    | some value => .ok { b.put n value with met := b.met.push n }
    | none => (b.nodes.scalarValue (b.nodes.tag n) n).map (b.put n)

/-- Meets a key, which must not be a collection, and its value. -/
def meetPair (b : Building) (pair : Nat × Nat) : Except Error Building := do
  let b ← b.meet pair.1
  if (b.value? pair.1).all Value.isKey then b.meet pair.2 else throw .malformed

/-- The items of a sequence, after they have been met. -/
def items (b : Building) (n : Nat) : Except Error (List Nat × Building) :=
  match b.nodes.node n with
  | .seq _ items => do pure (items, ← items.foldlM meet b)
  | _ => .error .malformed

/-- The pairs of a mapping freed of merge keys, after they have been met. -/
def pairs (b : Building) (n : Nat) : Except Error (List (Nat × Nat) × Building) :=
  match b.nodes.node n with
  | .map .. => do
    let nodes ← b.nodes.flatten n
    let pairs := nodes.pairs n
    pure (pairs, ← pairs.foldlM meetPair { b with nodes := nodes })
  | _ => .error .malformed

/-- The entry that an item of a sequence of pairs is, after its parts have been met. -/
def entry (b : Building) (item : Nat) : Except Error ((Nat × Nat) × Building) :=
  match b.nodes.node item with
  | .map _ [(key, value)] => do
    let b ← b.meet key
    pure ((key, value), ← b.meet value)
  | _ => .error .malformed

/-- The entries that the items of a sequence are. -/
def entries (b : Building) : List Nat → Except Error (List (Nat × Nat) × Building)
  | [] => .ok ([], b)
  | item :: rest => do
    let (first, b) ← b.entry item
    let (others, b) ← b.entries rest
    pure (first :: others, b)

/-- Fills a collection. -/
def fill (b : Building) (n : Nat) : Except Error Building :=
  match b.nodes.tag n with
  | .seq => do
    let (items, b) ← b.items n
    pure (b.put n (.seq items))
  | .map => do
    let (pairs, b) ← b.pairs n
    pure (b.put n (.map pairs))
  | .set => do
    let (pairs, b) ← b.pairs n
    pure (b.put n (.set (pairs.map Prod.fst)))
  | _ =>
    match b.nodes.node n with
    | .seq _ items => do
      let (entries, b) ← b.entries items
      pure (b.put n (.pairs entries))
    | _ => .error .malformed

/-- Fills the collections from the one with a place in their order on, also those that are met
meanwhile. No more than there are nodes are met. -/
def fillFrom : Nat → Nat → Building → Except Error Building
  | 0, _, b => .ok b
  | fuel + 1, place, b =>
    match b.met[place]? with
    | none => .ok b
    | some n => do fillFrom fuel (place + 1) (← b.fill n)

end Building

namespace Document

/-- The document of a graph. -/
def ofGraph (g : Graph) : Except Error Document := do
  let b ← (Building.start g.nodes).meet g.root
  let b ← Building.fillFrom (g.nodes.size + 1) 0 b
  pure ⟨(b.value? g.root).getD .null, b.values⟩

/-- The document in a text that holds at most one; a text without one is null. -/
def ofText (text : List Char) : Except Error Document := do
  match ← Graph.ofText? text with
  | none => pure ⟨.null, #[]⟩
  | some g => ofGraph g

/-- The value with a number. -/
def part (d : Document) (n : Nat) : Value := (d.parts[n]?.join).getD .null

/-- The key is a text. -/
def isNamed (d : Document) (name : String) (key : Nat) : Bool :=
  match d.part key with
  | .str s => s == .text name
  | _ => false

/-- The value of the last pair with a text as its key. -/
def member? (d : Document) (value : Value) (name : String) : Option Value :=
  match value with
  | .map pairs =>
    (pairs.reverse.find? fun pair => d.isNamed name pair.1).map fun pair => d.part pair.2
  | _ => none

/-- The items of a sequence. -/
def items? (d : Document) (value : Value) : Option (List Value) :=
  match value with
  | .seq items => some (items.map d.part)
  | _ => none

end Document

end Checkup.Yaml
