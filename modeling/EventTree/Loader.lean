import EventTree.Handler

/-!
# Loading units

A loader keeps the loaded units in the order of their last load. A handler whose marker is not in
order, or whose override closes a cycle with those already there, is left out and reported; the rest
of its unit is loaded.
-/

namespace EventTree

/-- What became of a unit. -/
structure LoadReport where
  unit : String
  accepted : Nat
  rejected : List Cause
  deriving DecidableEq, Repr

/-- A unit as it was accepted, with a number for each of its listener handlers. -/
structure LoadedUnit where
  unit : HandlerUnit
  numbers : List Nat

structure Loader where
  settings : Settings
  units : List LoadedUnit
  /-- The next number for a listener handler. -/
  next : Nat

namespace Loader

def empty (settings : Settings) : Loader := ⟨settings, [], 0⟩

/-- The names of the loaded units. -/
def unitNames (l : Loader) : List String := l.units.map (·.unit.name)

/-- The loaded units other than those of a name. -/
def others (l : Loader) (name : String) : List LoadedUnit :=
  l.units.filter fun u => u.unit.name ≠ name

/-! ## Checking -/

/-- Adds what can be added. -/
def addPossible (g : OverrideGraph) (pairs : List (String × String)) : OverrideGraph :=
  pairs.foldl (fun g (base, super) => if g.closesCycle base super then g else g.push base super) g

/-- What speaks against a static handler, beside the overrides of `g`. -/
def staticFault? (g : OverrideGraph) (m : Marker) : Option Cause :=
  match m.fault?, m.overrides with
  | some cause, _ => some cause
  | none, none => none
  | none, some base => if g.closesCycle base m.event then some (.cyclicMarker base m.event) else none

/-- Splits static handlers into accepted ones and causes; each accepted override counts for the handlers
after it. -/
def checkStatics (g : OverrideGraph) : List StaticEntry → List StaticEntry × List Cause
  | [] => ([], [])
  | entry :: rest =>
    match staticFault? g entry.marker with
    | some cause =>
      let (accepted, rejected) := checkStatics g rest
      (accepted, cause :: rejected)
    | none =>
      let g := match entry.marker.overrides with
        | none => g
        | some base => g.push base entry.marker.event
      let (accepted, rejected) := checkStatics g rest
      (entry :: accepted, rejected)

/-- Splits listener handlers into accepted ones and causes. -/
def checkListeners (entries : List ListenerEntry) : List ListenerEntry × List Cause :=
  (entries.filter fun entry => entry.marker.fault?.isNone,
    entries.filterMap fun entry => entry.marker.fault?)

/-! ## Loading -/

/-- Loads a unit in place of one with the same name. -/
def load (l : Loader) (u : HandlerUnit) : LoadReport × Loader :=
  let others := l.others u.name
  let g := addPossible .empty (others.flatMap (·.unit.overrides))
  let (statics, badStatics) := checkStatics g u.statics
  let (listeners, badListeners) := checkListeners u.listeners
  let loaded : LoadedUnit := ⟨⟨u.name, statics, listeners⟩, List.range' l.next listeners.length⟩
  (⟨u.name, statics.length + listeners.length, badStatics ++ badListeners⟩,
    { l with units := others ++ [loaded], next := l.next + listeners.length })

/-- Whether a unit of the name is loaded. -/
def contains (l : Loader) (name : String) : Bool := l.unitNames.contains name

/-- Unloads a unit, if it is loaded. -/
def unload (l : Loader) (name : String) : Loader := { l with units := l.others name }

/-! ## Tables -/

def tableEntries (u : LoadedUnit) : List TableEntry :=
  List.zipWith (fun id entry => ⟨id, entry.type, entry.marker, entry.handler⟩) u.numbers
    u.unit.listeners

/-- The handlers of all loaded units. -/
def table (l : Loader) : Table where
  statics := l.units.flatMap fun u => u.unit.statics.map fun entry => (entry.marker.event, entry.handler)
  overrides := l.units.flatMap (·.unit.overrides)
  listeners := l.units.flatMap tableEntries

end Loader

end EventTree
