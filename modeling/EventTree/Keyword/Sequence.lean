import EventTree.Dispatch

/-!
# Sequences

The children of a node, executed one after the other: a statement is executed by raising its name.
`lambda` is such a sequence, `eval` runs a copy of one and keeps only what it returns, and `return`,
`break` and `continue` end the sequences around them.
-/

/-! ## Executing children -/

namespace EventTree.Forest

/-- Where execution goes on after a statement: behind it, or, when it has left its scope, at the
position that it had. -/
def positionAfter (f : Forest) (scope statement : NodeId) (position : Nat) : Nat :=
  if f.parent statement = some scope then
    match f.index? statement with
    | some index => index + 1
    | none => position
  else position

end EventTree.Forest

namespace EventTree.Keyword

open EventTree.Action

/-- Raises a statement; data is passed over. -/
def runStatement (engine : Engine) (statement : NodeId) : Action Flow := do
  let name ← ask (·.name statement)
  if isDataName name then return .normal else engine.raiseFlow name statement

/-- Executes the children of a scope from a position on, for at most `fuel` of them. -/
def executeFrom (engine : Engine) (scope : NodeId) : Nat → Nat → Action Flow
  | 0, _ => stall
  | fuel + 1, position => do
    match ← ask (·.child? scope position) with
    | none => return .normal
    | some statement =>
      andThen (runStatement engine statement) do
        let next ← ask (·.positionAfter scope statement position)
        executeFrom engine scope fuel next

/-- Executes the children of a scope from a position on. Statements may add and remove children as they
go; the first that does not end normally ends the sequence. The scope is held. -/
def execute (engine : Engine) (scope : NodeId) (position : Nat) : Action Flow :=
  holding [scope] (executeFrom engine scope engine.patience position)

/-! ## Keywords -/

def lambda : Handler := fun engine call => execute engine call.node 0

/-- What `eval` runs: the nodes its selector finds, the node in its value, or itself. -/
def evalTargets (f : Forest) (n : NodeId) : List NodeId :=
  match f.value n with
  | some (.selector s) => (s.select f n).nodes
  | some (.node target) => [target]
  | _ => [n]

/-- Runs copies of targets one after the other, each ending at the node. The targets that are still to
come are held, and so is the one whose copy runs. -/
def evalEach (engine : Engine) (n : NodeId) : List NodeId → Action Unit
  | [] => return
  | target :: rest => do
    holding (target :: rest) do
      let body ← copy target
      let flow ← execute engine body 0
      settleOn n flow
    evalEach engine n rest

def eval : Handler := fun engine call => do
  let targets ← observe (evalTargets · call.node)
  evalEach engine call.node targets
  return .normal

/-- Copies of the value and the children, on a node of their own. -/
def returnStatement : Handler := fun _ call => do
  let returned ← create (← ask (·.name call.node))
  let value ← copyValue (← observe (·.singleValue call.node))
  edit (·.setValue returned value)
  forEach (← ask (·.children call.node)) fun child => do
    let child ← copy child
    insert returned none child
  return .returning returned

def breakStatement : Handler := fun _ _ => return .breaking

def continueStatement : Handler := fun _ _ => return .continuing

def sequenceUnit : HandlerUnit :=
  .ofHandlers "arbor.core.lambda" [("lambda", lambda), ("eval", eval), ("return", returnStatement),
    ("break", breakStatement), ("continue", continueStatement)]

end EventTree.Keyword
