import EventTree.Keyword.Sequence

/-!
# Choices

A `switch` runs the body of the first `case` whose value is its own, or of the `default`. A case
without a body shares the next one.
-/

namespace EventTree

namespace Forest

def isCase (f : Forest) (n : NodeId) : Bool := f.hasName "case" n

def isDefault (f : Forest) (n : NodeId) : Bool := f.hasName "default" n

/-- What speaks against the children of a choice. -/
def choiceFault? (f : Forest) (n : NodeId) : Option Cause :=
  let children := f.children n
  match children.find? fun c => !f.isCase c && !f.isDefault c && f.isStatement c with
  | some stray => some (.strayCase (f.name stray))
  | none => if 1 < children.countP f.isDefault then some .manyDefaults else none

/-- Whether a case has the value of its choice. -/
def caseMatches (f : Forest) (n c : NodeId) : Bool :=
  f.isCase c && f.compareValues (f.singleValue n) (f.singleValue c) == .eq

/-- The children of a choice from the one that is chosen on. -/
def chosenOn (f : Forest) (n : NodeId) : List NodeId :=
  match (f.children n).dropWhile fun c => !f.caseMatches n c with
  | [] => (f.children n).dropWhile fun c => !f.isDefault c
  | chosen => chosen

/-- The body that a choice runs. -/
def chosenBody? (f : Forest) (n : NodeId) : Option NodeId :=
  (f.chosenOn n).find? fun c => (f.isCase c || f.isDefault c) && !(f.children c).isEmpty

end Forest

namespace Keyword

open EventTree.Action

/-- A node that is the value of the choice is held while the body runs. -/
def switch : Handler := fun engine call => do
  failIf (← ask (·.choiceFault? call.node))
  let value ← observe (·.singleValue call.node)
  match ← observe (·.chosenBody? call.node) with
  | some body => holding (Value.nodes [value]) (execute engine body 0)
  | none => return .normal

def choiceUnit : HandlerUnit := .ofHandlers "arbor.core.switch" [("switch", switch)]

end Keyword

end EventTree
