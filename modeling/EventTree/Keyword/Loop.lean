import EventTree.Keyword.Condition
import EventTree.Keyword.Sequence

/-!
# Loops

`while` repeats its body as long as its condition holds, `for-each` runs it once for each item. The
body may change the loop itself, so the loop keeps a copy of how it was and is put back after every
pass and at the end.
-/

namespace EventTree.Keyword

open EventTree.Action

/-- Gives a node the value and the children that another node has, as copies. -/
def restore (n pristine : NodeId) : Action Unit := do
  edit (·.clear n)
  let value ← copyValue (← ask (·.value pristine))
  edit (·.setValue n value)
  forEach (← ask (·.children pristine)) fun child => do
    let child ← copy child
    insert n none child

/-- Runs a loop that is put back at the end, whatever became of it. -/
def restoring (n : NodeId) (loop : NodeId → Action Flow) : Action Flow := do
  let pristine ← copy n
  let outcome ← attempt (loop pristine)
  restore n pristine
  resume outcome

/-! ## while -/

/-- The child that lifts the ceiling of a loop, unless it says false. -/
def uncheckedName : String := "_unchecked"

/-- How many passes a loop may take. -/
def ceiling (limit : Nat) (f : Forest) (n : NodeId) : Option Nat :=
  match f.find? n uncheckedName with
  | some flag => if (f.value flag).bind Value.asBool? = some false then some limit else none
  | none => some limit

/-- Fails if one more pass than those done is too many. -/
def checkCeiling (ceiling : Option Nat) (passes : Nat) : Action Unit :=
  match ceiling with
  | none => return
  | some limit => if limit < passes + 1 then fail (.tooManyPasses limit) else return

/-- The passes of a loop after the first `passes`, for at most `fuel` of them. -/
def whilePasses (engine : Engine) (n pristine : NodeId) (ceiling : Option Nat) :
    Nat → Nat → Action Flow
  | 0, _ => stall
  | fuel + 1, passes => do
    let condition ← evaluateCondition engine n
    if condition.value then
      checkCeiling ceiling passes
      let flow ← execute engine n condition.offset
      restore n pristine
      match flow with
      | .breaking => return .normal
      | .returning returned => return .returning returned
      | .normal | .continuing => whilePasses engine n pristine ceiling fuel (passes + 1)
    else return .normal

def whileLoop : Handler := fun engine call =>
  restoring call.node fun pristine => do
    let ceiling ← ask (ceiling engine.settings.maxIterations · call.node)
    whilePasses engine call.node pristine ceiling engine.patience 0

/-! ## for-each -/

/-- The child that holds the current item. -/
def itemName : String := "_dp"

/-- What a loop goes over: the values its selector finds, the children of the node in its value, or its
value alone. -/
def items (f : Forest) (n : NodeId) : Except Cause (List (Option LiveValue)) :=
  match f.value n with
  | some (.selector s) => .ok ((s.select f n).values f)
  | some (.node target) => .ok ((f.children target).map fun c => some (.node c))
  | some v => .ok [some v]
  | none => .error .nothingToIterate

/-- One pass for each item. The items that are still to come are held. -/
def itemPasses (engine : Engine) (n pristine : NodeId) : List (Option LiveValue) → Action Flow
  | [] => return .normal
  | item :: rest => do
    restore n pristine
    let bound ← createWith itemName (← copyValue item)
    insert n (some 0) bound
    match ← holding (Value.nodes rest) (execute engine n 0) with
    | .breaking => return .normal
    | .returning returned => return .returning returned
    | .normal | .continuing => itemPasses engine n pristine rest

def forEachLoop : Handler := fun engine call => do
  let items ← ofExcept (← observe (items · call.node))
  restoring call.node fun pristine => itemPasses engine call.node pristine items

def loopUnit : HandlerUnit :=
  .ofHandlers "arbor.core.loops" [("while", whileLoop), ("for-each", forEachLoop)]

end EventTree.Keyword
