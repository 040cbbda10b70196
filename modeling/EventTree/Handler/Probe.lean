import EventTree.Dispatch

/-!
# Probes

Small handlers that show what a session does: they leave a mark on the node, end in a given way, or
raise something else.
-/

namespace EventTree.Probe

open EventTree.Action

/-- Adds a child with a text. -/
def mark (n : NodeId) (name text : String) : Action Unit := do
  let _ ← grow (·.addChild n name (some (.string text)))

/-! ## Static handlers -/

/-- Notes the event. -/
def note : Handler := fun _ call => do
  mark call.node "called" call.event
  return .normal

/-- Notes the event and what it stands in for, and goes on to that. -/
def base : Handler := fun engine call => do
  mark call.node "called" call.event
  match call.bases with
  | [] => pure ()
  | base :: _ => mark call.node "base-of" (call.event ++ "->" ++ base)
  engine.callBase call

/-- Ends with a flow. -/
def ending (flow : Flow) : Handler := fun _ _ => return flow

/-- Returns a node with the name of the event. -/
def returning : Handler := fun _ call => do
  let n ← createWith "ret" (some (.string call.event))
  let _ ← grow (·.addChild n "from-handler" none)
  return .returning n

/-- Fails. -/
def failing : Handler := fun _ call => fail (.handlerFailed ("handler failed for [" ++ call.event ++ "]"))

/-- Raises the event again. -/
def again : Handler := fun engine call => engine.raiseFlow call.event call.node

/-- The static probe of a name. -/
def static? : String → Option Handler
  | "note" => some note
  | "base" => some base
  | "noop" => some (ending .normal)
  | "break" => some (ending .breaking)
  | "continue" => some (ending .continuing)
  | "return" => some returning
  | "fail" => some failing
  | "recurse" => some again
  | _ => none

/-! ## Handlers of listeners -/

/-- Notes the event and the level. -/
def markHit (level : Level) (call : Call) : Action Unit :=
  mark call.node "hit" (level.label ++ ":" ++ call.event)

/-- Notes the hit. -/
def hit : ListenerHandler := fun level _ call => do
  markHit level call
  return .normal

/-- The listener probe of a name. -/
def listener? : String → Option ListenerHandler
  | "note" => some hit
  | "base" => some fun level engine call => do
    markHit level call
    engine.callBase call
  | "break" => some fun _ _ _ => return .breaking
  | "fail" => some fun level _ call =>
    fail (.handlerFailed (level.label ++ " failed for [" ++ call.event ++ "]"))
  | _ => none

end EventTree.Probe
