import EventTree.Handler

/-!
# Registering listeners

Registering binds the handlers of every type in the chain of a listener, each once, and installs their
overrides; if one of these closes a cycle nothing is registered. Unregistering takes out the bindings
of the listener and the overrides that came with it.
-/

namespace EventTree.Session

/-! ## Registering -/

/-- What a registration has come to so far. -/
structure Staged where
  overrides : OverrideGraph
  installed : List Installed
  bindings : List (String × Binding)

/-- Whether an entry is bound to a listener already, in the session or in this registration. -/
def isBound (s : Session) (owner : Nat) (staged : Staged) (entry : TableEntry) : Bool :=
  (s.bindingsOf entry.marker.event).any (fun b => b.entry == entry.id && b.owner == owner) ||
    staged.bindings.any fun b => b.2.entry == entry.id

/-- Stages one entry for one level of a listener. -/
def stageEntry (s : Session) (owner : Nat) (level : Level) (staged : Staged) (entry : TableEntry) :
    Except Cause Staged :=
  if s.isBound owner staged entry then .ok staged
  else
    let event := entry.marker.event
    let bindings := staged.bindings ++ [(event, ⟨owner, level, entry.id⟩)]
    match entry.marker.overrides with
    | none => .ok { staged with bindings }
    | some base =>
      match staged.overrides.add base event with
      | .error cause => .error cause
      | .ok overrides =>
        .ok ⟨overrides, staged.installed ++ [⟨owner, base, event⟩], bindings⟩

/-- Stages the entries of one level after the other. -/
def stage (s : Session) (table : Table) (listener : Listener) : Except Cause Staged :=
  (listener.chain.flatMap fun level => (table.entriesOf level.type).map fun entry => (level, entry)).foldlM
    (fun staged (level, entry) => s.stageEntry listener.id level staged entry)
    ⟨s.overrides, [], []⟩

/-- Adds a binding after those of the same event. -/
def bind (bindings : List (String × List Binding)) (event : String) (b : Binding) :
    List (String × List Binding) :=
  if (bindings.lookup event).isSome then
    bindings.map fun slot => if slot.1 = event then (slot.1, slot.2 ++ [b]) else slot
  else bindings ++ [(event, [b])]

/-- Registers a listener. -/
def register (s : Session) (table : Table) (listener : Listener) : Except Cause Session :=
  (s.stage table listener).map fun staged =>
    { s with
      overrides := staged.overrides
      installed := s.installed ++ staged.installed
      bindings := staged.bindings.foldl (fun bindings (event, b) => bind bindings event b) s.bindings }

/-! ## Unregistering -/

/-- Unregisters a listener; one that is not registered changes nothing. -/
def unregister (s : Session) (owner : Nat) : Session :=
  let kept := s.bindings.map fun slot => (slot.1, slot.2.filter fun b => b.owner ≠ owner)
  let mine := s.installed.filter fun i => i.owner = owner
  { s with
    bindings := kept.filter fun slot => !slot.2.isEmpty
    installed := s.installed.filter fun i => i.owner ≠ owner
    overrides := mine.foldl (fun g i => g.remove i.base i.super) s.overrides }

/-- The names with a handler of a listener, in order. -/
def instanceEvents (s : Session) : List String :=
  sortedNames ((s.bindings.map (·.1)).filter fun name => !name.isEmpty)

end EventTree.Session
