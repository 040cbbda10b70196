import EventTree.Keyword.Comparison

/-!
# Conditions

A conditional node is tested by its value and the operators that lead its children. Each operator is
raised in turn and what it leaves becomes the value of the node, so the next operator goes on from
there. A node without a value is tested by its first statement instead.
-/

namespace EventTree

namespace Forest

/-- The operators at the front of a list of nodes, passing over data, and how many nodes they take up. -/
def leadingOperators (f : Forest) (operators : List String) : List NodeId → List NodeId × Nat
  | [] => ([], 0)
  | n :: rest =>
    let (found, length) := leadingOperators f operators rest
    if isDataName (f.name n) then (found, length + 1)
    else if f.name n ∈ operators then (n :: found, length + 1)
    else ([], 0)

/-- The conditions of a node in order, and where its body begins. -/
def conditionsOf (f : Forest) (operators : List String) (n : NodeId) :
    Except Cause (List NodeId × Nat) :=
  let children := f.children n
  if f.hasValue n then .ok (f.leadingOperators operators children)
  else
    match children.dropWhile fun c => !f.isStatement c with
    | [] => .error (.nothingToTest (f.name n))
    | first :: rest =>
      let (found, length) := f.leadingOperators operators rest
      .ok (first :: found, children.length - rest.length + length)

end Forest

namespace Keyword

open EventTree.Action

/-- The outcome of a test, and where the body of the node begins. -/
structure Condition where
  value : Bool
  offset : Nat
  deriving DecidableEq, Repr

/-- The names of all operators. -/
def operatorNames (engine : Engine) : Action (List String) := do
  let n ← create operatorsEvent
  engine.raise operatorsEvent n
  ask fun f => (f.children n).map f.name

/-- Raises one condition and takes over what it leaves. -/
def runCondition (engine : Engine) (n condition : NodeId) : Action Unit := do
  engine.raise (← ask (·.name condition)) condition
  let value ← ask (·.value condition)
  edit (·.setValue n value)

/-- Tests a node, leaving markers of its operators in place. -/
def testNode (engine : Engine) (n : NodeId) : Action Condition := do
  let operators ← operatorNames engine
  let (conditions, offset) ← ofExcept (← ask (·.conditionsOf operators n))
  forEach conditions (runCondition engine n)
  let value ← observe fun f =>
    if conditions.isEmpty then f.holds n
    else
      match f.value n with
      | some (.bool b) => b
      | other => other.isSome
  setValue n (.bool value)
  return ⟨value, offset⟩

/-- The child that a true `or` leaves on its conditional node. -/
def markerName : String := "_maybe"

def clearMarkers (n : NodeId) : Action Unit := do
  forEach (← ask (·.findAll n markerName)) untie

/-- Tests a node and leaves the outcome as its value. -/
def evaluateCondition (engine : Engine) (n : NodeId) : Action Condition := holding [n] do
  let outcome ← attempt (testNode engine n)
  let cleared ← attempt (clearMarkers n)
  let condition ← resume outcome
  resume cleared
  return condition

end Keyword

end EventTree
