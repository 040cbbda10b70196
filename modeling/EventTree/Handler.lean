import EventTree.World

/-!
# Handlers

A handler answers to an event. It changes the world through actions, and through its engine it can
raise further events. Handlers come in units, which are loaded and unloaded as a whole, and the
accepted handlers of all loaded units make up a table.
-/

namespace EventTree

/-- What a handler can ask of the session that runs it. -/
structure Engine where
  settings : Settings
  /-- The names with a handler of their own in the table, in order; asked for only when needed. -/
  staticEvents : Unit → List String
  /-- How many rounds a loop may take before the run is given up. -/
  patience : Nat
  /-- Raises an event on a node, resolving overrides. -/
  raiseFlow : String → NodeId → Action Flow
  /-- Raises an event as it is, without resolving overrides. -/
  raiseDirect : Call → Action Flow

abbrev Handler := Engine → Call → Action Flow

/-- A handler of a listener, given the level that it is bound to. -/
abbrev ListenerHandler := Level → Handler

/-! ## Markers -/

/-- The name under which handlers for every event are kept. -/
def catchAll : String := ""

/-- The event a handler answers to, and the event that it overrides. -/
structure Marker where
  event : String
  overrides : Option String
  /-- Whether the handler answers to every event. -/
  isCatchAll : Bool
  deriving DecidableEq, Repr

namespace Marker

def on (event : String) : Marker := ⟨event, none, false⟩

def onOverride (event base : String) : Marker := ⟨event, some base, false⟩

def onAny : Marker := ⟨catchAll, none, true⟩

/-- What speaks against loading a handler, whatever else is loaded. -/
def fault? (m : Marker) : Option Cause :=
  if m.event.isEmpty && !m.isCatchAll then some .unnamedMarker
  else if m.event.front == '_' then some (.dataMarker m.event)
  else
    match m.overrides with
    | none => none
    | some base =>
      if m.isCatchAll then some (.catchAllOverride base)
      else if base.isEmpty || base == m.event then some (.selfOverride m.event base)
      else none

end Marker

/-! ## Units -/

structure StaticEntry where
  marker : Marker
  handler : Handler

structure ListenerEntry where
  /-- The type of listener that the handler belongs to. -/
  type : String
  marker : Marker
  handler : ListenerHandler

/-- Handlers that are loaded and unloaded together. -/
structure HandlerUnit where
  name : String
  statics : List StaticEntry
  listeners : List ListenerEntry

namespace HandlerUnit

/-- A unit of handlers that answer to an event each. -/
def ofHandlers (name : String) (handlers : List (String × Handler)) : HandlerUnit :=
  ⟨name, handlers.map fun (event, handler) => ⟨.on event, handler⟩, []⟩

/-- The overrides that come with the static handlers of a unit. -/
def overrides (u : HandlerUnit) : List (String × String) :=
  u.statics.filterMap fun entry => entry.marker.overrides.map fun base => (base, entry.marker.event)

end HandlerUnit

/-! ## Tables -/

/-- A listener handler of a table, with a number that no other one has. -/
structure TableEntry where
  id : Nat
  type : String
  marker : Marker
  handler : ListenerHandler

structure Table where
  statics : List (String × Handler)
  overrides : List (String × String)
  listeners : List TableEntry

namespace Table

instance : Inhabited Table := ⟨⟨[], [], []⟩⟩

/-- The handlers of an event, in load order. -/
def handlersOf (t : Table) (event : String) : List Handler :=
  (t.statics.filter fun entry => entry.1 == event).map (·.2)

/-- The listener handlers of a type, in load order. -/
def entriesOf (t : Table) (type : String) : List TableEntry :=
  t.listeners.filter fun entry => entry.type == type

def listenerHandler? (t : Table) (id : Nat) : Option ListenerHandler :=
  (t.listeners.find? fun entry => entry.id == id).map (·.handler)

/-- The names with a handler of their own, in order; handlers for every event have no name. -/
def events (t : Table) : List String :=
  sortedNames ((t.statics.map (·.1)).eraseDups.filter fun name => !name.isEmpty)

end Table

end EventTree
