import EventTree.Error
import EventTree.Names

/-!
# Override graphs

An override sends one event, the base, to another, its super. A base may have several supers, and the
same one several times; what no base may have is a way of overrides that leads back to itself.
-/

namespace EventTree

/-- The supers of each overridden event, in the order in which they were added. -/
structure OverrideGraph where
  edges : List (String × List String)
  deriving DecidableEq, Repr

namespace OverrideGraph

def empty : OverrideGraph := ⟨[]⟩

instance : Inhabited OverrideGraph := ⟨empty⟩

/-- The supers of an event, if it is overridden. -/
def supers? (g : OverrideGraph) (base : String) : Option (List String) := g.edges.lookup base

def isOverridden (g : OverrideGraph) (base : String) : Bool := (g.supers? base).isSome

def edgeCount (g : OverrideGraph) : Nat := (g.edges.flatMap (·.2)).length

/-- All overrides, by base. -/
def pairs (g : OverrideGraph) : List (String × String) :=
  (sortedNames (g.edges.map (·.1))).flatMap fun base =>
    ((g.supers? base).getD []).map fun super => (base, super)

/-! ## Reachability -/

/-- Looks for `target` from the pending names on, passing over those visited before. -/
def search (g : OverrideGraph) (target : String) : Nat → List String → List String → Bool
  | 0, _, _ => false
  | _, [], _ => false
  | fuel + 1, name :: pending, visited =>
    if name = target then true
    else if name ∈ visited then search g target fuel pending visited
    else search g target fuel ((g.supers? name).getD [] ++ pending) (name :: visited)

/-- Whether overrides lead from one event to another in no, one or more steps. Each override is
followed at most once. -/
def reaches (g : OverrideGraph) (start target : String) : Bool :=
  g.search target (g.edgeCount + 1) [start] []

/-! ## Adding and removing -/

/-- Whether one more override would lead back to its base. -/
def closesCycle (g : OverrideGraph) (base super : String) : Bool :=
  base = super || g.reaches super base

/-- Adds an override after those of the same base. -/
def push (g : OverrideGraph) (base super : String) : OverrideGraph :=
  if g.isOverridden base then
    ⟨g.edges.map fun edge => if edge.1 = base then (edge.1, edge.2 ++ [super]) else edge⟩
  else ⟨g.edges ++ [(base, [super])]⟩

/-- Adds an override, unless it closes a cycle. -/
def add (g : OverrideGraph) (base super : String) : Except Cause OverrideGraph :=
  if g.closesCycle base super then .error (.overrideCycle base super) else .ok (g.push base super)

/-- Adds overrides one after the other. -/
def addAll (g : OverrideGraph) : List (String × String) → Except Cause OverrideGraph
  | [] => .ok g
  | (base, super) :: rest => do addAll (← g.add base super) rest

/-- Whether an override is there. -/
def contains (g : OverrideGraph) (base super : String) : Bool :=
  ((g.supers? base).getD []).contains super

/-- Takes out the override added last among equal ones. -/
def remove (g : OverrideGraph) (base super : String) : OverrideGraph :=
  if g.contains base super then
    let kept := g.edges.map fun edge =>
      if edge.1 = base then (edge.1, eraseLast super edge.2) else edge
    ⟨kept.filter fun edge => !edge.2.isEmpty⟩
  else g

end OverrideGraph

end EventTree
