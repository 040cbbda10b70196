/-!
# Names in lists

Names are listed in the order of their characters, and the latest of several equal entries goes first
when one is withdrawn.
-/

namespace EventTree

/-- Names in increasing order. -/
def sortedNames (names : List String) : List String :=
  names.mergeSort fun a b => !decide (b < a)

/-- A list without the last of its entries that equals `a`. -/
def eraseLast {α : Type} [BEq α] (a : α) (l : List α) : List α := (l.reverse.erase a).reverse

/-- A name that is empty or begins with an underscore marks data, which is not executed. -/
def isDataName (name : String) : Bool := name.isEmpty || name.front == '_'

end EventTree
