import EventTree.Keyword.Trap
import EventTree.Registration
import EventTree.Text.Search

/-!
# Declarations

Programs declare events of their own, whose bodies are run by a handler that answers to every event,
and override events. Both outlive the session: bodies and overrides are kept in the event store, and a
new session takes the overrides over when it starts.
-/

namespace EventTree.Keyword

open EventTree.Action

/-! ## Names -/

/-- The texts of the values of a node. -/
def valueTexts (f : Forest) (n : NodeId) : List String := (f.allValues n).filterMap (·.map f.text)

/-- The event names that a node gives. -/
def eventNames (f : Forest) (n : NodeId) : Except Cause (List String) :=
  match valueTexts f n with
  | [] => .error (.noEventName (f.name n))
  | names =>
    match names.find? isDataName with
    | some name => .error (.reservedEventName name)
    | none => .ok names

/-- The names that several nodes give. -/
def eventNamesOf (f : Forest) : List NodeId → Except Cause (List String)
  | [] => .ok []
  | n :: rest => do return (← eventNames f n) ++ (← eventNamesOf f rest)

/-- The events that an override sends to. -/
def superNames (f : Forest) (n : NodeId) : Except Cause (List String) :=
  match eventNamesOf f (f.findAll n "super") with
  | .error cause => .error cause
  | .ok [] => .error (.noSuper (f.name n))
  | .ok names => .ok names

/-- All pairs of a base and a super that an override statement gives. -/
def overridePairs (f : Forest) (n : NodeId) : Except Cause (List (String × String)) := do
  let supers ← superNames f n
  let bases ← eventNames f n
  return bases.flatMap fun base => supers.map fun super => (base, super)

/-! ## Declaring events -/

def declareEvent : Handler := fun _ call => do
  let names ← ofExcept (← observe (eventNames · call.node))
  let bodies ← ask fun f => (f.findAll call.node "lambda").map f.snapshot
  if bodies.isEmpty then fail .noBody
  forEach names fun name => editStore (·.declare name bodies)
  return .normal

def removeEvent : Handler := fun _ call => do
  let names ← ofExcept (← observe (eventNames · call.node))
  forEach names fun name => editStore (·.remove name)
  return .normal

/-- Runs bodies one after the other, with what they stand in for at hand. -/
def runBodies (engine : Engine) (base : Option Call) (bodies : List NodeId) :
    Action (Except Error Flow) := do
  editSession fun s => { s with bases := base :: s.bases }
  let outcome ← attempt (inTurn bodies fun body => engine.raiseFlow "lambda" body)
  editSession fun s => { s with bases := s.bases.tail }
  return outcome

/-- Runs the bodies of an event, each as the last child of the node so that it finds the node as its
parent. -/
def runDeclared : Handler := fun engine call => do
  match ← askStore (·.bodies? call.event) with
  | none => return .normal
  | some snapshots =>
    let trees ← gather snapshots fun t => ofExcept t.readSelectors
    let bodies ← gather trees plant
    forEach bodies fun body => insert call.node none body
    let outcome ← runBodies engine call.base? bodies
    untieFrom call.node bodies
    settleOn call.node (← resume outcome)
    return .normal

/-! ## Overriding events -/

/-- Stores an override and takes it over into the session, or neither. -/
def addOverride (base super : String) : Action Unit := do
  let fault ← askStore (·.overrideFault? base super)
  editStore (·.addOverride base super)
  failIf fault
  if ← askSession (·.overrides.closesCycle base super) then
    editStore (·.removeOverride base super)
    fail (.overrideCycle base super)
  else editSession fun s => { s with overrides := s.overrides.push base super }

def overrideEvent : Handler := fun _ call => do
  let pairs ← ofExcept (← observe (overridePairs · call.node))
  forEach pairs fun (base, super) => addOverride base super
  return .normal

def removeOverride : Handler := fun _ call => do
  let pairs ← ofExcept (← observe (overridePairs · call.node))
  forEach pairs fun (base, super) => do
    editSession fun s => { s with overrides := s.overrides.remove base super }
    editStore (·.removeOverride base super)
  return .normal

/-- Raises what the innermost declared event stands in for. -/
def callBase : Handler := fun engine _ => do
  match ← askSession (·.currentBase) with
  | some base => engine.raiseDirect base
  | none => return .normal

/-- Takes over the stored overrides, as far as they close no cycle. -/
def takeOverrides : Handler := fun _ _ => do
  editStore (·.noting .overrides)
  forEach (← askStore (·.overrides)) fun (base, super) => do
    let closes ← askSession (·.overrides.closesCycle base super)
    if closes then return
    else editSession fun s => { s with overrides := s.overrides.push base super }
  return .normal

/-! ## Listing events -/

/-- Adds a child for each name that contains one of the filters; without filters all are listed. -/
def listNames (n : NodeId) (filters : List String) (origin : String) (names : List String) :
    Action Unit :=
  forEach names fun name => do
    if filters.isEmpty || filters.any (Text.contains name) then
      let _ ← grow (·.addChild n origin (some (.string name)))

def listEvents : Handler := fun engine call => do
  let filters ← observe (valueTexts · call.node)
  let instances ← askSession (·.instanceEvents)
  editStore (·.noting .names)
  let declared ← askStore (·.names)
  listNames call.node filters "static" (engine.staticEvents ())
  listNames call.node filters "instance" instances
  listNames call.node filters "dynamic" declared
  return .normal

/-! ## The unit -/

/-- The event that every new session raises first. -/
def startEvent : String := "arbor.core.initialize-context"

def declarationUnit : HandlerUnit :=
  let named := HandlerUnit.ofHandlers "arbor.core.events" [("event", declareEvent),
    ("remove-event", removeEvent), ("override", overrideEvent), ("remove-override", removeOverride),
    ("call-base", callBase), ("list-events", listEvents), (startEvent, takeOverrides)]
  { named with statics := named.statics ++ [⟨.onAny, runDeclared⟩] }

end EventTree.Keyword
