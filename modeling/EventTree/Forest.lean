import EventTree.Tree

/-!
# Forests

A forest holds live nodes. Each node has a cell with its name, its value, its parent and its
children, and stays where it is for good; moving a node changes links only. The links are redundant
(a child knows its parent and the parent its child), and keeping the two in step is the business of
the operations in `EventTree.Forest.Edit`.
-/

namespace EventTree

/-- A node of a forest. -/
structure NodeId where
  index : Nat
  deriving DecidableEq, Repr, Inhabited

/-- A value held by a live node: a nested tree is held by its root. -/
abbrev LiveValue := Value NodeId Selector

structure Cell where
  name : String
  value : Option LiveValue
  parent : Option NodeId
  children : List NodeId
  deriving DecidableEq, Repr

namespace Cell

/-- A node without value, parent and children. -/
def fresh (name : String) : Cell := ⟨name, none, none, []⟩

instance : Inhabited Cell := ⟨fresh ""⟩

end Cell

structure Forest where
  cells : Array Cell
  deriving DecidableEq, Repr

namespace Forest

def empty : Forest := ⟨#[]⟩

instance : Inhabited Forest := ⟨empty⟩

/-- The number of nodes, and the index of the next one. -/
def size (f : Forest) : Nat := f.cells.size

/-! ## Reading -/

def cell (f : Forest) (n : NodeId) : Cell := f.cells.getD n.index default

def name (f : Forest) (n : NodeId) : String := (f.cell n).name

def hasName (f : Forest) (name : String) (n : NodeId) : Bool := f.name n == name

def value (f : Forest) (n : NodeId) : Option LiveValue := (f.cell n).value

def hasValue (f : Forest) (n : NodeId) : Bool := (f.value n).isSome

def parent (f : Forest) (n : NodeId) : Option NodeId := (f.cell n).parent

def children (f : Forest) (n : NodeId) : List NodeId := (f.cell n).children

def child? (f : Forest) (n : NodeId) (position : Nat) : Option NodeId := (f.children n)[position]?

/-- The first child with a name. -/
def find? (f : Forest) (n : NodeId) (name : String) : Option NodeId :=
  (f.children n).find? (f.hasName name)

/-- All children with a name. -/
def findAll (f : Forest) (n : NodeId) (name : String) : List NodeId :=
  (f.children n).filter (f.hasName name)

/-- The place of a node among the children of its parent. -/
def index? (f : Forest) (n : NodeId) : Option Nat :=
  (f.parent n).bind fun p => (f.children p).idxOf? n

/-- The parent, its parent, and so on, at most `fuel` of them. -/
def climb (f : Forest) : Nat → NodeId → List NodeId
  | 0, _ => []
  | fuel + 1, n =>
    match f.parent n with
    | none => []
    | some p => p :: climb f fuel p

/-- The strict ancestors of a node, the parent first. No chain of parents is longer than the forest. -/
def ancestors (f : Forest) (n : NodeId) : List NodeId := f.climb f.size n

/-- Whether `a` is a strict ancestor of `n`. -/
def isAncestor (f : Forest) (a n : NodeId) : Bool := (f.ancestors n).contains a

def root (f : Forest) (n : NodeId) : NodeId := (f.ancestors n).getLast?.getD n

/-! ## Writing -/

/-- Adds a node that stands alone. -/
def create (f : Forest) (name : String) : NodeId × Forest :=
  (⟨f.size⟩, ⟨f.cells.push (.fresh name)⟩)

def update (f : Forest) (n : NodeId) (change : Cell → Cell) : Forest :=
  ⟨f.cells.modify n.index change⟩

def setName (f : Forest) (n : NodeId) (name : String) : Forest :=
  f.update n fun c => { c with name }

def setValue (f : Forest) (n : NodeId) (value : Option LiveValue) : Forest :=
  f.update n fun c => { c with value }

def setParent (f : Forest) (n : NodeId) (parent : Option NodeId) : Forest :=
  f.update n fun c => { c with parent }

def setChildren (f : Forest) (n : NodeId) (change : List NodeId → List NodeId) : Forest :=
  f.update n fun c => { c with children := change c.children }

end Forest

end EventTree
