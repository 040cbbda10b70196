import EventTree.Handler

/-!
# Raising events

An event that is overridden is sent on to its supers, one after the other; any other event is handled
by the handlers of its name and then by those for every event, static ones before those of listeners.
The first handler that does not end normally ends the event. Each raise is counted while it runs, and
one too many is refused; an error notes every event that it leaves.
-/

namespace EventTree

/-- Whether overrides are resolved. -/
inductive Route where
  | resolved
  | direct
  deriving DecidableEq, Repr

namespace Action

/-- What is reported of an error that leaves an event. -/
def crossing (event : String) {α : Type} : Except Stop α → Except Stop α
  | .error (.error e) => .error (.error (e.crossing event))
  | other => other

/-- Counts an event while an action runs, unless that would be one event too many. -/
def entering (limit : Nat) (event : String) (act : Action Flow) : Action Flow := fun hold =>
  ExceptT.mk do
    if limit ≤ (← get).session.depth then
      return .error (.error (.ofCause (.tooDeep event limit)))
    else
      modify fun w => { w with session := { w.session with depth := w.session.depth + 1 } }
      let outcome ← (act hold).run
      modify fun w => { w with session := { w.session with depth := w.session.depth - 1 } }
      return crossing event outcome

end Action

/-- The fixed part of a context: its settings and its handlers. -/
structure Machine where
  settings : Settings
  table : Table

namespace Machine

/-- The names under which the handlers of an event are kept. -/
def keysOf (event : String) : List String :=
  if event == catchAll then [catchAll] else [event, catchAll]

/-- Runs the listener handlers bound to a name. -/
def runBindings (m : Machine) (engine : Engine) (call : Call) (key : String) : Action Flow := do
  let bindings ← Action.askSession (·.bindingsOf key)
  Action.inTurn bindings fun b =>
    match m.table.listenerHandler? b.entry with
    | none => return .normal
    | some handler => handler b.level engine call

/-- Runs the handlers of an event, which holds its node. -/
def invoke (m : Machine) (engine : Engine) (call : Call) : Action Flow :=
  Action.holding [call.node] <|
    Action.inTurn (keysOf call.event) fun key =>
      Action.andThen
        (Action.inTurn (m.table.handlersOf key) fun handler => handler engine call)
        (m.runBindings engine call key)

/-- The engine that handlers get, given what raises events for them. -/
def engine (m : Machine) (patience : Nat) (perform : Route → Call → Action Flow) : Engine where
  settings := m.settings
  staticEvents := fun _ => m.table.events
  patience := patience
  raiseFlow := fun event node => perform .resolved (.plain event node)
  raiseDirect := perform .direct

/-- Raises an event. Events raised while it runs have one unit of patience less. -/
def perform (m : Machine) : Nat → Route → Call → Action Flow
  | 0, _, _ => Action.stall
  | patience + 1, route, call =>
    Action.entering m.settings.maxDepth call.event do
      let supers ← Action.askSession (·.overrides.supers? call.event)
      match route, supers with
      | .resolved, some supers =>
        Action.inTurn supers fun super => perform m patience .resolved (call.sentOn super)
      | _, _ => m.invoke (m.engine patience (perform m patience)) call

end Machine

/-! ## Boundaries -/

/-- Ends a flow at a node: what is returned lands on the node, and signals meant for a loop are out of
place. -/
def settleOn (node : NodeId) : Flow → Action Unit
  | .normal => return
  | .breaking => do Action.fail (.strayBreak (← Action.ask (·.name node)))
  | .continuing => do Action.fail (.strayContinue (← Action.ask (·.name node)))
  | .returning returned => do
    let value ← Action.ask (·.value returned)
    Action.edit (·.setValue returned none)
    match value with
    | none => pure ()
    | some v => Action.setValue node v
    Action.forEach (← Action.ask (·.children returned)) fun child => Action.insert node none child

namespace Engine

/-- Raises an event and ends its flow at the node. -/
def raise (engine : Engine) (event : String) (node : NodeId) : Action Unit := do
  let flow ← engine.raiseFlow event node
  settleOn node flow

/-- Raises what a call stands in for. -/
def callBase (engine : Engine) (call : Call) : Action Flow :=
  match call.base? with
  | none => return .normal
  | some base => engine.raiseDirect base

end Engine

end EventTree
