import Checkup.Yaml.Node

/-!
# Merge keys of YAML

A pair with a merge key stands for the pairs of a mapping, or of several mappings, which are brought
in before the other pairs of its own mapping. The mappings that are brought in are freed of merge
keys first, and stay so; a mapping that is brought into itself brings in what it has by then.
-/

namespace Checkup.Yaml

namespace Nodes

/-- The number of pairs with a merge key. -/
def mergeCount (nodes : Nodes) : Nat :=
  nodes.toList.foldr (fun node count =>
    ((node.pairs?.getD []).filter fun pair => nodes.tag pair.1 = .merge).length + count) 0

/-- The pairs of the mapping with a number; none if it is no mapping. -/
def pairs (nodes : Nodes) (n : Nat) : List (Nat × Nat) := ((nodes.node n).pairs?).getD []

/-- The mapping with a number has other pairs. -/
def putPairs (nodes : Nodes) (n : Nat) (pairs : List (Nat × Nat)) : Nodes :=
  nodes.put n (.map (nodes.tag n) pairs)

/-- Takes the first pair with a merge key out of a mapping: its value, and the nodes without it. -/
def takeMerge? (nodes : Nodes) (n : Nat) : Option (Nat × Nodes) :=
  ((nodes.pairs n).find? fun pair => nodes.tag pair.1 = .merge).map fun pair =>
    (pair.2, nodes.putPairs n ((nodes.pairs n).eraseP fun pair => nodes.tag pair.1 = .merge))

/-- The mappings that the value of a merge key brings in: itself, or its items. -/
def sources (nodes : Nodes) (n : Nat) : Except Error (List Nat) :=
  match nodes.node n with
  | .map .. => .ok [n]
  | .seq _ items => .ok items
  | .scalar .. => .error .malformed

/-- Brings pairs into a mapping. -/
def bring (nodes : Nodes) (n : Nat) (brought : List (Nat × Nat)) : Nodes :=
  if brought.isEmpty then nodes else nodes.putPairs n (brought ++ nodes.pairs n)

/-- A key with the mark `=` of a default value is the text `=`. -/
def plainKeys (nodes : Nodes) (n : Nat) : Nodes :=
  (nodes.pairs n).foldl (fun nodes pair =>
    if nodes.tag pair.1 = .value then nodes.put pair.1 ((nodes.node pair.1).withTag .str)
    else nodes) nodes

/-- The pairs of mappings that are freed of merge keys by `free`, one after the other; those of the
last mapping come first. -/
def gather (free : Nodes → Nat → Except Error Nodes) (nodes : Nodes) :
    List Nat → Except Error (Nodes × List (Nat × Nat))
  | [] => .ok (nodes, [])
  | item :: rest =>
    match nodes.node item with
    | .map .. => do
      let nodes ← free nodes item
      let own := nodes.pairs item
      let (nodes, others) ← gather free nodes rest
      pure (nodes, others ++ own)
    | _ => .error .malformed

/-- Frees a mapping of merge keys, where `brought` has been brought in already; `fuel` bounds their
number. -/
def mergeInto (fuel : Nat) (nodes : Nodes) (n : Nat) (brought : List (Nat × Nat)) :
    Except Error Nodes :=
  match fuel, nodes.takeMerge? n with
  | _, none => .ok ((nodes.bring n brought).plainKeys n)
  | 0, some _ => .error .malformed
  | fuel + 1, some (source, nodes) => do
    let (nodes, more) ← gather (fun nodes item => mergeInto fuel nodes item []) nodes
      (← nodes.sources source)
    mergeInto fuel nodes n (brought ++ more)

/-- The nodes with a mapping freed of merge keys. -/
def flatten (nodes : Nodes) (n : Nat) : Except Error Nodes :=
  mergeInto nodes.mergeCount nodes n []

end Nodes

end Checkup.Yaml
