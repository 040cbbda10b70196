import EventTree.Keyword.Condition
import EventTree.Keyword.Sequence

/-!
# Branches

An `if`, any number of `else-if` and an `else` that follow one another. A branch whose condition held
keeps the value true, and that is how the ones after it know.
-/

namespace EventTree

namespace Forest

/-- Whether a branch of the chain before a node was taken, given the siblings before the node; nothing
if they are no chain. -/
def chainTaken (f : Forest) : List NodeId → Option Bool
  | [] => none
  | n :: rest =>
    let taken := f.value n == some (.bool true)
    if f.hasName "if" n then some taken
    else if f.hasName "else-if" n then (chainTaken f rest).map (taken || ·)
    else none

end Forest

namespace Keyword

open EventTree.Action

/-- Whether a branch before this one was taken. -/
def earlierTaken (n : NodeId) : Action Bool := do
  match ← observe fun f => f.chainTaken (f.siblingsBefore n) with
  | some taken => return taken
  | none => fail (.brokenChain (← ask (·.name n)))

/-- Executes the body of a node if its condition holds. -/
def branch (engine : Engine) (n : NodeId) : Action Flow := do
  let condition ← evaluateCondition engine n
  if condition.value then execute engine n condition.offset else return .normal

def ifBranch : Handler := fun engine call => branch engine call.node

def elseIfBranch : Handler := fun engine call => do
  if ← earlierTaken call.node then return .normal else branch engine call.node

def elseBranch : Handler := fun engine call => do
  if ← ask (·.hasValue call.node) then fail .conditionOnElse
  if ← earlierTaken call.node then return .normal else execute engine call.node 0

def branchUnit : HandlerUnit :=
  .ofHandlers "arbor.core.branching"
    [("if", ifBranch), ("else-if", elseIfBranch), ("else", elseBranch)]

end Keyword

end EventTree
