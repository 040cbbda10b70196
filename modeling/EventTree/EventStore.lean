import EventTree.OverrideGraph
import EventTree.Tree

/-!
# Event stores

A store keeps the events that programs declare, each with the bodies to run when it is raised, and the
overrides that outlive a session. It is asked about every event that is raised, so a mask of 64 bits
answers first: each name has a slot, and an event whose slot is clear is certainly not declared.

A store notes its operations. Only what a run asks at every raise, the bodies of an event, is read from
the store as it is: whether that is noted depends on the slots, which differ from one store to the next.
-/

namespace EventTree

/-- The operations of a store that are noted. -/
inductive StoreOperation where
  | declare
  | remove
  | lookup
  | names
  | addOverride
  | removeOverride
  | overrides
  deriving DecidableEq, Repr

namespace StoreOperation

def text : StoreOperation → String
  | declare => "declare"
  | remove => "remove"
  | lookup => "lookup"
  | names => "names"
  | addOverride => "add-override"
  | removeOverride => "remove-override"
  | overrides => "overrides"

end StoreOperation

structure EventStore where
  /-- The slot of a name in the mask; names may share one. -/
  slot : String → Fin 64
  /-- The declared events and their bodies. -/
  events : List (String × List Snapshot)
  /-- The slots of the declared events. -/
  mask : BitVec 64
  /-- The stored overrides, oldest first. -/
  overrides : List (String × String)
  /-- The operations so far, the latest first. -/
  journal : List StoreOperation

namespace EventStore

/-- A store with nothing in it. -/
def empty (slot : String → Fin 64) : EventStore := ⟨slot, [], 0, [], []⟩

instance : Inhabited EventStore := ⟨empty fun _ => 0⟩

/-- Notes an operation. -/
def noting (s : EventStore) (op : StoreOperation) : EventStore :=
  { s with journal := op :: s.journal }

/-! ## Declared events -/

/-- The bit of a name. -/
def bit (s : EventStore) (name : String) : BitVec 64 := BitVec.twoPow 64 (s.slot name).val

/-- False only for a name that is not declared. -/
def mayContain (s : EventStore) (name : String) : Bool := s.mask &&& s.bit name == s.bit name

/-- Adds bodies to an event, declaring it if need be. -/
def declare (s : EventStore) (name : String) (bodies : List Snapshot) : EventStore :=
  let events :=
    if (s.events.lookup name).isSome then
      s.events.map fun event => if event.1 = name then (event.1, event.2 ++ bodies) else event
    else s.events ++ [(name, bodies)]
  { s.noting .declare with events, mask := s.mask ||| s.bit name }

/-- Whether an event is declared. -/
def contains (s : EventStore) (name : String) : Bool := (s.events.lookup name).isSome

/-- Forgets an event and all its bodies. -/
def remove (s : EventStore) (name : String) : EventStore :=
  if s.contains name then
    let events := s.events.filter fun event => event.1 ≠ name
    { s.noting .remove with events, mask := events.foldl (fun mask event => mask ||| s.bit event.1) 0 }
  else s.noting .remove

/-- The bodies of an event. -/
def bodies? (s : EventStore) (name : String) : Option (List Snapshot) :=
  if s.mayContain name then s.events.lookup name else none

/-- The store after it was asked for the bodies of an event. A name that the mask turns away is not looked
up. -/
def lookUp (s : EventStore) (name : String) : EventStore :=
  if s.mayContain name then s.noting .lookup else s

/-- The names of the declared events, in order. -/
def names (s : EventStore) : List String := sortedNames (s.events.map (·.1))

/-! ## Stored overrides -/

/-- What speaks against storing an override. -/
def overrideFault? (s : EventStore) (base super : String) : Option Cause :=
  match OverrideGraph.empty.addAll (s.overrides ++ [(base, super)]) with
  | .error cause => some cause
  | .ok _ => none

/-- Stores an override, unless it closes a cycle with the stored ones. -/
def addOverride (s : EventStore) (base super : String) : EventStore :=
  let s := s.noting .addOverride
  match s.overrideFault? base super with
  | some _ => s
  | none => { s with overrides := s.overrides ++ [(base, super)] }

/-- Forgets the override stored last among equal ones. -/
def removeOverride (s : EventStore) (base super : String) : EventStore :=
  let s := s.noting .removeOverride
  { s with overrides := eraseLast (base, super) s.overrides }

end EventStore

end EventTree
