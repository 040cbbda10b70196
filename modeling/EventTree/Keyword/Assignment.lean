import EventTree.Dispatch

/-!
# Assignments

`set` gives all nodes that its selector finds one value, one name, or one replacement. `add` appends
copies of its sources to all nodes that its selector finds.
-/

namespace EventTree.Keyword

open EventTree.Action

/-- The child that names a source. -/
def sourceName : String := "src"

/-- The selector of an assignment. -/
def destination (n : NodeId) : Action Selector := do
  match ← ask (·.value n) with
  | some (.selector s) => return s
  | _ => fail (.noDestination (← ask (·.name n)))

/-! ## set -/

/-- What a node carries: its value, or else its first child. -/
def carried (f : Forest) (n : NodeId) : Option LiveValue :=
  match f.singleValue n with
  | some v => some v
  | none => (f.child? n 0).map .node

/-- What is assigned: what the source carries, or what the last statement carries once it was raised. -/
def assigned (engine : Engine) (n : NodeId) : Action (Option LiveValue) := do
  match ← ask (·.find? n sourceName) with
  | some source => observe (carried · source)
  | none =>
    match ← ask fun f => (f.children n).getLast? with
    | none => return none
    | some statement =>
      let name ← ask (·.name statement)
      if isDataName name then return none
      else
        engine.raise name statement
        observe (carried · statement)

/-- Takes a node out of its tree, or puts a copy of a node in its place. -/
def replaceBy (source : Option LiveValue) (n : NodeId) : Action Unit := do
  match source with
  | none => untie n
  | some (.node replacement) =>
    let other ← copy replacement
    replace n other
  | some v => fail (.notReplacement v.typeName (← ask (·.text v)))

def set : Handler := fun engine call => do
  let selector ← destination call.node
  let source ← assigned engine call.node
  let found ← observe (selector.select · call.node)
  match found.kind with
  | .value =>
    forEach found.nodes fun n => do
      let value ← copyValue source
      edit (·.setValue n value)
  | .name =>
    let name ← ask (·.textOf source)
    forEach found.nodes fun n => edit (·.setName n name)
  | .node => holding found.nodes (forEach found.nodes (replaceBy source))
  | .count => fail (.assignedCount selector.source)
  return .normal

/-! ## add -/

/-- The nodes that a source contributes; found values stand on nodes without a name. -/
def contributed (source : NodeId) : Action (List NodeId) := do
  match ← ask (·.value source) with
  | some (.selector s) =>
    let found ← observe (s.select · source)
    if found.kind = .node then return found.nodes
    else
      let values ← ask found.values
      gather (values.filterMap id) fun v => createWith "" (some v)
  | some (.node n) => return [n]
  | _ => ask (·.children source)

def add : Handler := fun _ call => do
  let selector ← destination call.node
  let found ← observe (selector.select · call.node)
  if found.kind ≠ .node then fail (.notNodes selector.source)
  let sources ← ask (·.findAll call.node sourceName)
  let copies ← gather sources fun source => do gather (← contributed source) copy
  forEach found.nodes fun destination =>
    forEach copies.flatten fun n => do
      let child ← copy n
      insert destination none child
  return .normal

def assignmentUnit : HandlerUnit :=
  .ofHandlers "arbor.core.data" [("set", set), ("add", add)]

end EventTree.Keyword
