import EventTree.Forest

/-!
# Walking a forest

Siblings, document order (a node, then its children one after the other), and paths of child indexes.
-/

namespace EventTree.Forest

/-! ## Siblings -/

def previousSibling? (f : Forest) (n : NodeId) : Option NodeId := do
  let p ← f.parent n
  match ← f.index? n with
  | 0 => none
  | position + 1 => f.child? p position

def nextSibling? (f : Forest) (n : NodeId) : Option NodeId := do
  let p ← f.parent n
  f.child? p ((← f.index? n) + 1)

/-- The siblings before a node, the nearest first. -/
def siblingsBefore (f : Forest) (n : NodeId) : List NodeId :=
  match f.parent n, f.index? n with
  | some p, some position => ((f.children p).take position).reverse
  | _, _ => []

/-! ## Document order -/

/-- Everything below a node, down to `fuel` levels. -/
def below (f : Forest) : Nat → NodeId → List NodeId
  | 0, _ => []
  | fuel + 1, n => (f.children n).flatMap fun c => c :: below f fuel c

/-- The nodes below a node in document order. -/
def descendants (f : Forest) (n : NodeId) : List NodeId := f.below f.size n

/-- The last child of the last child, and so on, at most `fuel` times. -/
def lastBelow (f : Forest) : Nat → NodeId → NodeId
  | 0, n => n
  | fuel + 1, n =>
    match (f.children n).getLast? with
    | none => n
    | some c => lastBelow f fuel c

/-- The node before a node in document order. -/
def previousNode? (f : Forest) (n : NodeId) : Option NodeId :=
  match f.previousSibling? n with
  | some sibling => some (f.lastBelow f.size sibling)
  | none => f.parent n

/-- The node after a node in document order. -/
def nextNode? (f : Forest) (n : NodeId) : Option NodeId :=
  match f.children n with
  | first :: _ => some first
  | [] => (n :: f.ancestors n).findSome? f.nextSibling?

/-! ## Paths -/

/-- The child indexes that lead from the root to a node. -/
def path (f : Forest) (n : NodeId) : List Nat :=
  ((n :: f.ancestors n).filterMap f.index?).reverse

/-- The node that child indexes lead to. -/
def nodeAt? (f : Forest) (n : NodeId) : List Nat → Option NodeId
  | [] => some n
  | position :: rest => (f.child? n position).bind fun c => nodeAt? f c rest

end EventTree.Forest
