import EventTree.Dispatch
import EventTree.Text.Search

/-!
# Comparisons

A comparison stands below a conditional node, compares the values of the two, and becomes its result.
-/

namespace EventTree

namespace Forest

/-- The order of two sides: sides of absent values only are equal, then the shorter side comes first,
then the first difference counts. -/
def compareSides (f : Forest) (left right : List (Option LiveValue)) : Ordering :=
  if left.all Option.isNone && right.all Option.isNone then .eq
  else
    (Ord.compare left.length right.length).then
      (firstDifference (List.zipWith f.compareValues left right))

end Forest

namespace Keyword

open EventTree.Action

/-- The node that an operator belongs to. -/
def conditionalParent (n : NodeId) : Action NodeId := do
  match ← observe fun f => (f.parent n).filter fun p => f.name p ≠ "" with
  | some p => return p
  | none => fail (.noConditional (← ask (·.name n)))

/-- A comparison by order. -/
def compared (test : Ordering → Bool) : Handler := fun _ call => do
  let parent ← conditionalParent call.node
  let sides ← observe fun f => (f.allValues parent, f.allValues call.node)
  let order ← ask (·.compareSides sides.1 sides.2)
  setValue call.node (.bool (test order))
  return .normal

/-- Whether the text of the conditional node contains that of the operator, or does not. -/
def containing (wanted : Bool) : Handler := fun _ call => do
  let parent ← conditionalParent call.node
  let found ← observe fun f =>
    Text.contains (f.textOf (f.singleValue parent)) (f.textOf (f.singleValue call.node))
  setValue call.node (.bool (found == wanted))
  return .normal

/-- The event that asks for the names of all operators. -/
def operatorsEvent : String := "operators"

/-- Answers with operator names, a child for each. -/
def naming (names : List String) : Handler := fun _ call => do
  forEach names fun name => do
    let _ ← grow (·.addChild call.node name none)
  return .normal

def comparisons : List (String × Handler) :=
  [("=", compared (·.isEq)), ("!=", compared (·.isNe)), ("<", compared (·.isLT)),
    (">", compared (·.isGT)), ("<=", compared (·.isLE)), (">=", compared (·.isGE)),
    ("~", containing true), ("!~", containing false)]

def comparisonUnit : HandlerUnit :=
  .ofHandlers "arbor.core.comparison"
    (comparisons ++ [(operatorsEvent, naming (comparisons.map (·.1)))])

end Keyword

end EventTree
