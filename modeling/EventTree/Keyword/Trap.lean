import EventTree.Keyword.Sequence

/-!
# Traps

A `try` is followed by a `catch`, a `finally`, or both. An error of the `try` is left as a child of
the scope for the `catch`, which runs with the details of the error as its first children. The
`finally` runs last, whatever came before, and what it ends with counts unless that is normal.
-/

namespace EventTree

namespace Forest

/-- The sibling after a node, if it has the name. -/
def nextNamed? (f : Forest) (name : String) (n : NodeId) : Option NodeId :=
  (f.nextSibling? n).filter (f.hasName name)

/-- Whether the sibling before a node has the name. -/
def follows (f : Forest) (name : String) (n : NodeId) : Bool :=
  (f.previousSibling? n).any (f.hasName name)

end Forest

namespace Keyword

open EventTree.Action

/-- What follows a `try`. -/
structure Rescue where
  onError : Option NodeId
  last : Option NodeId
  deriving DecidableEq, Repr

/-- What follows a `try`, in the order that is asked for. -/
def rescue (f : Forest) (n : NodeId) : Except Cause Rescue :=
  let onError := f.nextNamed? "catch" n
  if (onError.bind (f.nextNamed? "catch")).isSome then .error .manyCatches
  else
    let last := f.nextNamed? "finally" (onError.getD n)
    if onError.isNone && last.isNone then .error .loneTry
    else if (last.bind (f.nextNamed? "catch")).isSome then .error .lateCatch
    else .ok ⟨onError, last⟩

/-- Runs what comes last, beside a node, after the outcome of that node; unless it ends normally, its
own end counts. -/
def settle (engine : Engine) (n : NodeId) (last : Option NodeId) (pending : Except Error Flow) :
    Action Flow := do
  match last with
  | none => resume pending
  | some last =>
    let flow ← goingBeside n last (execute engine last 0)
    if flow.isNormal then resume pending else return flow

/-! ## try -/

/-- The child of a scope that holds a trapped error. -/
def trappedName : String := "_caught"

/-- A trapped error as a tree. -/
def trapped (e : Error) : Tree Selector :=
  ⟨trappedName, none,
    [⟨"message", some (.string e.message), []⟩, ⟨"type", some (.string e.kind.text), []⟩,
      ⟨"stack-trace", some (.string ("\n".intercalate e.trace)), []⟩]⟩

/-- Leaves an error at the front of a scope, in place of an older one. -/
def leaveTrapped (scope : NodeId) (e : Error) : Action Unit := do
  match ← ask (·.find? scope trappedName) with
  | some stale => untie stale
  | none => pure ()
  let n ← plant (trapped e)
  insert scope (some 0) n

/-- While what comes last runs after an error, the scope is held; after any other end it is not. -/
def tryBlock : Handler := fun engine call => do
  let rescue ← ofExcept (← observe (rescue · call.node))
  match ← attempt (execute engine call.node 0) with
  | .ok .normal => return .normal
  | .ok flow => settle engine call.node rescue.last (.ok flow)
  | .error e =>
    let scope ← observe (·.parent call.node)
    match rescue.onError, scope with
    | some _, some scope =>
      leaveTrapped scope e
      return .normal
    | _, _ => holding scope.toList (settle engine call.node rescue.last (.error e))

/-! ## catch -/

/-- Takes nodes out of a parent that they still have. -/
def untieFrom (parent : NodeId) (nodes : List NodeId) : Action Unit :=
  forEach nodes fun n => do
    if (← ask (·.parent n)) = some parent then untie n

/-- Inserts nodes at the front, from a position on. -/
def insertAll (parent : NodeId) : Nat → List NodeId → Action Unit
  | _, [] => return
  | position, n :: rest => do
    insert parent (some position) n
    insertAll parent (position + 1) rest

/-- The scope is held throughout. -/
def catchBlock : Handler := fun engine call => do
  let scope ← observe fun f => if f.follows "try" call.node then f.parent call.node else none
  match scope with
  | none => fail .loneCatch
  | some scope => holding [scope] do
    match ← ask (·.find? scope trappedName) with
    | none => return .normal
    | some caught =>
      untie caught
      let details ← ask (·.children caught)
      insertAll call.node 0 details
      let outcome ← attempt (execute engine call.node details.length)
      untieFrom call.node details
      match outcome with
      | .ok .normal => return .normal
      | pending =>
        settle engine call.node (← observe (·.nextNamed? "finally" call.node)) pending

/-! ## finally and throw -/

def finallyBlock : Handler := fun engine call => do
  let placed ← observe fun f =>
    match f.previousSibling? call.node with
    | none => false
    | some previous =>
      f.hasName "try" previous || (f.hasName "catch" previous && f.follows "try" previous)
  if placed then execute engine call.node 0 else fail .loneFinally

def throwStatement : Handler := fun _ call => do
  match ← observe fun f => (f.singleValue call.node).map f.text with
  | some message => fail (.thrown message)
  | none => fail (.thrown "unspecified error")

def trapUnit : HandlerUnit :=
  .ofHandlers "arbor.core.exceptions" [("try", tryBlock), ("catch", catchBlock),
    ("finally", finallyBlock), ("throw", throwStatement)]

end Keyword

end EventTree
