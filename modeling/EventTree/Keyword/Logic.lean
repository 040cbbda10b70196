import EventTree.Keyword.Condition

/-!
# Logical operators

`or`, `and` and `not` go on from the condition before them. An `or` whose left side is true marks the
conditional node, so that an `and` after it belongs to the right side and is passed over too.
-/

namespace EventTree.Keyword

open EventTree.Action

/-- The conditional node of an operator, and the condition that it goes on from: the nearest statement
before it, or the node itself if that has a value. The value of the node is made a Boolean. -/
def previousCondition (n : NodeId) : Action (NodeId × NodeId) := do
  let parent ← conditionalParent n
  let hadValue ← ask (·.hasValue parent)
  let value ← observe (·.holds parent)
  setValue parent (.bool value)
  match ← observe fun f => (f.siblingsBefore n).find? f.isStatement with
  | some previous => return (parent, previous)
  | none =>
    if hadValue then return (parent, parent)
    else fail (.noPreviousCondition (← ask (·.name n)))

def isTrue (n : NodeId) : Action Bool := ask fun f => Value.isTruthy (f.value n)

/-- Marks a conditional node. -/
def setMarker (n : NodeId) (value : Bool) : Action Unit := do
  match ← ask (·.find? n markerName) with
  | some marker => setValue marker (.bool value)
  | none =>
    let marker ← createWith markerName (some (.bool value))
    insert n (some 0) marker

def or : Handler := fun engine call => do
  let (parent, previous) ← previousCondition call.node
  if ← isTrue previous then
    setValue call.node (.bool true)
    setMarker parent true
  else
    holding [parent] do
      let own ← evaluateCondition engine call.node
      if own.value then setMarker parent false else clearMarkers parent
  return .normal

def and : Handler := fun engine call => do
  let (parent, previous) ← previousCondition call.node
  let marked ← ask fun f => (f.find? parent markerName).any fun m => Value.isTruthy (f.value m)
  if marked then setValue call.node (.bool true)
  else if ← isTrue previous then
    let _ ← holding [parent] (evaluateCondition engine call.node)
  else setValue call.node (.bool false)
  return .normal

def not : Handler := fun _ call => do
  let misplaced ← ask fun f =>
    !(f.children call.node).isEmpty || (f.value call.node).any fun v => v.asBool?.isNone
  if misplaced then fail .notWithOperand
  let (parent, previous) ← previousCondition call.node
  clearMarkers parent
  let value ← isTrue previous
  setValue call.node (.bool !value)
  return .normal

def logicUnit : HandlerUnit :=
  .ofHandlers "arbor.core.logical" [("or", or), ("and", and), ("not", not),
    (operatorsEvent, naming ["or", "and", "not"])]

end EventTree.Keyword
