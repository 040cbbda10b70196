import EventTree.Forest.Edit

/-!
# Planting and viewing

Planting makes a tree live; viewing gives the tree that a live node stands for. A copy is the view of
a node planted again, so it shares nothing with the node.
-/

namespace EventTree.Forest

/-! ## Planting -/

mutual

/-- Adds a tree as new nodes and gives its root. -/
def plant (t : Tree Selector) (f : Forest) : NodeId × Forest :=
  match t with
  | ⟨name, value, children⟩ =>
    let (n, f) := f.create name
    let (value, f) := plantValue value f
    (n, plantBelow n children (f.setValue n value))

def plantValue (v : Option (Value (Tree Selector) Selector)) (f : Forest) :
    Option LiveValue × Forest :=
  match v with
  | none => (none, f)
  | some (.bool b) => (some (.bool b), f)
  | some (.int i) => (some (.int i), f)
  | some (.float x) => (some (.float x), f)
  | some (.string s) => (some (.string s), f)
  | some (.node t) =>
    let (n, f) := plant t f
    (some (.node n), f)
  | some (.selector s) => (some (.selector s), f)

/-- Adds trees as children of a node. -/
def plantBelow (n : NodeId) (ts : List (Tree Selector)) (f : Forest) : Forest :=
  match ts with
  | [] => f
  | t :: ts =>
    let (c, f) := plant t f
    plantBelow n ts (f.append n c)

end

/-! ## Viewing -/

/-- The tree of a node down to `fuel` levels, through children and nested values. -/
def viewTo (f : Forest) : Nat → NodeId → Tree Selector
  | 0, n => ⟨f.name n, none, []⟩
  | fuel + 1, n =>
    ⟨f.name n, (f.value n).map (Value.map (viewTo f fuel) id), (f.children n).map (viewTo f fuel)⟩

/-- The tree of a node. A tree that is finite is no deeper than the forest has nodes. -/
def view (f : Forest) (n : NodeId) : Tree Selector := f.viewTo f.size n

def snapshot (f : Forest) (n : NodeId) : Snapshot := (f.view n).snapshot

def snapshotValue (f : Forest) : LiveValue → Value Snapshot String :=
  Value.map f.snapshot Selector.source

/-! ## Copies -/

/-- A copy of a node that shares nothing with it and has no parent. -/
def copy (f : Forest) (n : NodeId) : NodeId × Forest := plant (f.view n) f

/-- A copy of a value; a nested tree is copied too. -/
def copyValue (f : Forest) : Option LiveValue → Option LiveValue × Forest
  | some (.node n) =>
    let (n, f) := f.copy n
    (some (.node n), f)
  | v => (v, f)

/-! ## Order and text -/

/-- The first of the orders that is not equal. -/
def firstDifference (orders : List Ordering) : Ordering := (orders.find? (· != .eq)).getD .eq

/-- The order of two values of the forest, where nodes have the given order. -/
def compareValuesBy (f : Forest) (order : NodeId → NodeId → Ordering) :
    Option LiveValue → Option LiveValue → Ordering
  | some (.node a), some (.node b) => order a b
  | a, b => Tree.compareValues (a.map f.snapshotValue) (b.map f.snapshotValue)

/-- The order of two nodes down to `fuel` levels. A node is equal to itself, and nothing below it is
looked at then. -/
def compareTo (f : Forest) : Nat → NodeId → NodeId → Ordering
  | 0, a, b => if a = b then .eq else Ord.compare (f.name a) (f.name b)
  | fuel + 1, a, b =>
    if a = b then .eq
    else
      (Ord.compare (f.name a) (f.name b)).then
        ((f.compareValuesBy (compareTo f fuel) (f.value a) (f.value b)).then
          ((Ord.compare (f.children a).length (f.children b).length).then
            (firstDifference (List.zipWith (compareTo f fuel) (f.children a) (f.children b)))))

/-- The order of the trees of two nodes. -/
def compare (f : Forest) (a b : NodeId) : Ordering := f.compareTo f.size a b

/-- The order of two values of the forest. -/
def compareValues (f : Forest) (a b : Option LiveValue) : Ordering := f.compareValuesBy f.compare a b

/-- A value as text: a node is its name, a selector its source. -/
def text (f : Forest) (v : LiveValue) : String := v.text f.name Selector.source

/-- An absent value is the empty text. -/
def textOf (f : Forest) (v : Option LiveValue) : String := (v.map f.text).getD ""

end EventTree.Forest
