import EventTree.Forest

/-!
# Moving nodes

Each move is a test that names what speaks against it and a change that is made when nothing does.
-/

namespace EventTree.Forest

/-! ## Adding and removing links -/

/-- Takes a node out of its parent, if it has one. -/
def detach (f : Forest) (n : NodeId) : Forest :=
  match f.parent n with
  | none => f
  | some p => (f.setChildren p (·.filter (· ≠ n))).setParent n none

/-- Puts a node that has no parent among the children of another. -/
def link (f : Forest) (parent : NodeId) (position : Nat) (child : NodeId) : Forest :=
  (f.setParent child (some parent)).setChildren parent (·.insertIdx position child)

/-- Puts a node that has no parent after the children of another. -/
def append (f : Forest) (parent child : NodeId) : Forest :=
  (f.setParent child (some parent)).setChildren parent (· ++ [child])

/-- Adds a new node after the children of another. -/
def addChild (f : Forest) (parent : NodeId) (name : String) (value : Option LiveValue) :
    NodeId × Forest :=
  let (child, f) := f.create name
  (child, (f.setValue child value).append parent child)

/-! ## Inserting -/

/-- How many children a node has apart from the one to be inserted. -/
def available (f : Forest) (parent child : NodeId) : Nat :=
  (f.children parent).length - (if f.parent child = some parent then 1 else 0)

/-- What speaks against inserting a child; without a position it goes last. -/
def insertFault? (f : Forest) (parent : NodeId) (position : Option Nat) (child : NodeId) :
    Option Cause :=
  if child = parent ∨ f.isAncestor child parent then some (.ownSubtree (f.name child))
  else
    let available := f.available parent child
    let position := position.getD available
    if available < position then some (.positionOutOfRange position (f.name parent) available)
    else none

/-- Moves a child to a place that is free once it has left its old one. -/
def moveTo (f : Forest) (parent : NodeId) (position : Option Nat) (child : NodeId) : Forest :=
  (f.detach child).link parent (position.getD (f.available parent child)) child

/-- Inserts a child, moving it from where it was. -/
def insert (f : Forest) (parent : NodeId) (position : Option Nat) (child : NodeId) :
    Except Cause Forest :=
  match f.insertFault? parent position child with
  | some cause => .error cause
  | none => .ok (f.moveTo parent position child)

/-! ## Removing -/

def untieFault? (f : Forest) (n : NodeId) : Option Cause :=
  if f.parent n = none then some (.untieRoot (f.name n)) else none

/-- Takes a node out of its parent. -/
def untie (f : Forest) (n : NodeId) : Except Cause Forest :=
  match f.untieFault? n with
  | some cause => .error cause
  | none => .ok (f.detach n)

/-- Takes all children out of a node. -/
def clear (f : Forest) (n : NodeId) : Forest :=
  ((f.children n).foldl (fun f c => f.setParent c none) f).setChildren n fun _ => []

/-! ## Replacing -/

def replaceFault? (f : Forest) (n other : NodeId) : Option Cause :=
  match f.parent n with
  | none => some (.replaceRoot (f.name n))
  | some _ =>
    if other = n then none
    else if f.isAncestor other n then some (.replaceByAncestor (f.name n) (f.name other))
    else if (f.detach other).index? n = none then some (.lostPosition (f.name n))
    else none

/-- Puts another node where a node is. -/
def exchange (f : Forest) (n other : NodeId) : Forest :=
  if other = n then f
  else
    match f.parent n with
    | none => f
    | some p =>
      let f := f.detach other
      let place := (f.index? n).getD 0
      ((f.setChildren p (·.set place other)).setParent other (some p)).setParent n none

/-- Puts another node where a node is, which then stands alone. -/
def replace (f : Forest) (n other : NodeId) : Except Cause Forest :=
  match f.replaceFault? n other with
  | some cause => .error cause
  | none => .ok (f.exchange n other)

end EventTree.Forest
