import EventTree.Forest.Plant
import EventTree.Forest.Walk
import EventTree.Names

/-!
# Selections

What a selector finds in a forest, from the node that it is given.
-/

namespace EventTree

namespace Forest

/-- The nearest node with a name, from the node itself upwards. -/
def nearestNamed? (f : Forest) (name : String) (n : NodeId) : Option NodeId :=
  (n :: f.ancestors n).find? (f.hasName name)

/-- The node held in the value of a node. -/
def reference? (f : Forest) (n : NodeId) : Option NodeId := (f.value n).bind Value.asNode?

/-- Where one step leads from one node. Ranges and value tests keep or drop the node itself. -/
def image (f : Forest) (step : Step) (n : NodeId) : List NodeId :=
  match step with
  | .root => [f.root n]
  | .parent => (f.parent n).toList
  | .children => f.children n
  | .descendants => f.descendants n
  | .reference => (f.reference? n).toList
  | .previous => (f.previousSibling? n).toList
  | .next => (f.nextSibling? n).toList
  | .range _ _ => [n]
  | .ancestor name => (f.nearestNamed? name n).toList
  | .valueIs text => if f.textOf (f.value n) = text then [n] else []
  | .named name => f.findAll n name

/-- Where one step leads from a list of nodes. A range counts in the list. -/
def advance (f : Forest) (step : Step) (nodes : List NodeId) : List NodeId :=
  match step with
  | .range start stop => (nodes.drop start).take (stop - start)
  | _ => nodes.flatMap (f.image step)

/-- The nodes that steps lead to, each once, in the order in which they are reached first. -/
def follow (f : Forest) (steps : List Step) (nodes : List NodeId) : List NodeId :=
  steps.foldl (fun nodes step => (f.advance step nodes).eraseDups) nodes

end Forest

/-- The nodes that a selector found, and what is wanted of them. -/
structure Selection where
  nodes : List NodeId
  kind : MatchKind
  deriving DecidableEq, Repr

namespace Selector

/-- What a selector finds from a node. -/
def select (s : Selector) (f : Forest) (origin : NodeId) : Selection :=
  ⟨f.follow s.steps [origin], s.kind⟩

end Selector

namespace Selection

/-- A count is one item. -/
def length (m : Selection) : Nat :=
  match m.kind with
  | .count => 1
  | _ => m.nodes.length

def values (m : Selection) (f : Forest) : List (Option LiveValue) :=
  match m.kind with
  | .node => m.nodes.map fun n => some (.node n)
  | .value => m.nodes.map f.value
  | .name => m.nodes.map fun n => some (.string (f.name n))
  | .count => [some (.int (Int64.ofNat m.nodes.length))]

end Selection

namespace Forest

/-! ## What a node stands for -/

/-- The value of a node, or the first value that its selector finds. -/
def singleValue (f : Forest) (n : NodeId) : Option LiveValue :=
  match f.value n with
  | some (.selector s) => ((s.select f n).values f).head?.join
  | other => other

/-- The value of a node, or all values that its selector finds. -/
def allValues (f : Forest) (n : NodeId) : List (Option LiveValue) :=
  match f.value n with
  | some (.selector s) => (s.select f n).values f
  | some v => [some v]
  | none => []

/-- Whether a node counts as true: a selector must find something, and if it asks for values or names,
the first of them must be set. -/
def holds (f : Forest) (n : NodeId) : Bool :=
  match f.value n with
  | some (.selector s) =>
    let found := s.select f n
    match found.kind, found.nodes with
    | _, [] => false
    | .name, first :: _ => f.name first != ""
    | .value, first :: _ => Value.isTruthy (f.value first)
    | _, _ :: _ => true
  | other => Value.isTruthy other

/-- Whether a node is a statement. -/
def isStatement (f : Forest) (n : NodeId) : Bool := !isDataName (f.name n)

end Forest

end EventTree
