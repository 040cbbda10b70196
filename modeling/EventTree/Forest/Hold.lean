import EventTree.Forest.Edit

/-!
# Holds

A node that was taken out of its tree lasts as long as it, or a node above it, is held. Running actions
hold the nodes that they work on, and whoever calls them holds the root of the tree. A node that
nothing holds any more is lost, and a child of it that is still held stands alone from then on.

Lost nodes stay in the forest, out of reach; what is left of the forest without them is `seen`.

A hold follows parents only. A tree that is the value of a node is taken to stay alive when the value is
replaced, even if nothing else owned it. Were it lost then, a node of it that is still held would have no
parent; here it keeps the one that it had.
-/

namespace EventTree

/-- What running actions keep of a forest. -/
structure Hold where
  /-- The nodes that are held. All that is below them lasts too. -/
  held : List NodeId
  /-- The nodes at which actions entered a tree; what is above these need not be held. -/
  entries : List NodeId
  deriving DecidableEq, Repr

namespace Hold

/-- The hold of a call on a node of the tree with the given root. -/
def ofCall (root node : NodeId) : Hold := ⟨[root, node], [node]⟩

/-- Holds more nodes. -/
def adding (h : Hold) (nodes : List NodeId) : Hold := { h with held := nodes ++ h.held }

/-- Goes from a node to one beside it: if the tree was entered at the first, it is entered at the second
too. -/
def goingBeside (h : Hold) (n other : NodeId) : Hold :=
  if n ∈ h.entries then { h with entries := other :: h.entries } else h

end Hold

namespace Forest

/-- The highest held node among a node and its ancestors; the node itself if none is held. -/
def summit (f : Forest) (held : List NodeId) (n : NodeId) : NodeId :=
  ((n :: f.ancestors n).filter held.contains).getLast?.getD n

/-- The forest without lost nodes: what is above the summit of an entry is out of reach. -/
def seen (f : Forest) (h : Hold) : Forest :=
  h.entries.foldl (fun f n => f.detach (f.summit h.held n)) f

end Forest

end EventTree
