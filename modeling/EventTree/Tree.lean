import EventTree.Selector
import EventTree.Value

/-!
# Trees

A tree as plain data. Programs are read, stored and printed as snapshots, whose selectors are still
text; `readSelectors` reads them all.
-/

namespace EventTree

/-- A named, ordered tree with an optional value at every node. -/
structure Tree (σ : Type) where
  name : String
  value : Option (Value (Tree σ) σ)
  children : List (Tree σ)

/-- A tree whose selectors are text. -/
abbrev Snapshot := Tree String

namespace Tree

/-! ## Selectors -/

mutual

/-- Replaces every selector, in nested values too. -/
def mapSelectors {σ τ : Type} (f : σ → τ) : Tree σ → Tree τ
  | ⟨name, value, children⟩ => ⟨name, mapSelectorsValue f value, mapSelectorsAll f children⟩

def mapSelectorsValue {σ τ : Type} (f : σ → τ) :
    Option (Value (Tree σ) σ) → Option (Value (Tree τ) τ)
  | none => none
  | some (.bool b) => some (.bool b)
  | some (.int i) => some (.int i)
  | some (.float x) => some (.float x)
  | some (.string s) => some (.string s)
  | some (.node t) => some (.node (mapSelectors f t))
  | some (.selector s) => some (.selector (f s))

def mapSelectorsAll {σ τ : Type} (f : σ → τ) : List (Tree σ) → List (Tree τ)
  | [] => []
  | t :: ts => mapSelectors f t :: mapSelectorsAll f ts

end

/-- The snapshot of a tree. -/
def snapshot (t : Tree Selector) : Snapshot := t.mapSelectors Selector.source

mutual

/-- Reads every selector of a snapshot; the first that cannot be read is reported, where a node's
value comes before its children. -/
def readSelectors : Snapshot → Except Cause (Tree Selector)
  | ⟨name, value, children⟩ => do
    let value ← readSelectorsValue value
    let children ← readSelectorsAll children
    return ⟨name, value, children⟩

def readSelectorsValue :
    Option (Value Snapshot String) → Except Cause (Option (Value (Tree Selector) Selector))
  | none => .ok none
  | some (.bool b) => .ok (some (.bool b))
  | some (.int i) => .ok (some (.int i))
  | some (.float x) => .ok (some (.float x))
  | some (.string s) => .ok (some (.string s))
  | some (.node t) => do return some (.node (← readSelectors t))
  | some (.selector s) => do return some (.selector (← Selector.parse s))

def readSelectorsAll : List Snapshot → Except Cause (List (Tree Selector))
  | [] => .ok []
  | t :: ts => do
    let t ← readSelectors t
    let ts ← readSelectorsAll ts
    return t :: ts

end

/-! ## Order

Trees are ordered by name, then value, then number of children, then child by child. -/

mutual

def compare : Snapshot → Snapshot → Ordering
  | ⟨name₁, value₁, children₁⟩, ⟨name₂, value₂, children₂⟩ =>
    (Ord.compare name₁ name₂).then
      ((compareValues value₁ value₂).then
        ((Ord.compare children₁.length children₂.length).then (compareAll children₁ children₂)))

/-- An absent value comes first. Integers and doubles are compared as doubles; other values of
different types by the names of their types. -/
def compareValues : Option (Value Snapshot String) → Option (Value Snapshot String) → Ordering
  | none, none => .eq
  | none, some _ => .lt
  | some _, none => .gt
  | some (.bool a), some (.bool b) => Ord.compare a b
  | some (.int a), some (.int b) => Ord.compare a.toInt b.toInt
  | some (.float a), some (.float b) => Double.compare a b
  | some (.int a), some (.float b) => Double.compare (Double.ofInt a.toInt) b
  | some (.float a), some (.int b) => Double.compare a (Double.ofInt b.toInt)
  | some (.string a), some (.string b) => Ord.compare a b
  | some (.node a), some (.node b) => compare a b
  | some (.selector a), some (.selector b) => Ord.compare a b
  | some a, some b => Ord.compare a.typeName b.typeName

/-- The first difference of two lists, as far as both go. -/
def compareAll : List Snapshot → List Snapshot → Ordering
  | a :: as, b :: bs => (compare a b).then (compareAll as bs)
  | _, _ => .eq

end

/-! ## Description

A tree with all its parts named, for the eye. -/

/-- Doubles in a description: a whole number keeps a `.0`, very large and very small ones take an
exponent. -/
def describedDouble : Numeral.Layout where
  positional := some (-4, 15)
  pointZero := true
  exponentSign := .unwritten
  tie := .up

mutual

def describe : Snapshot → String
  | ⟨name, value, children⟩ =>
    "Node \x7b name: " ++ Text.quoted name ++
      (match value with
        | none => ""
        | some v => ", value: " ++ describeValue v) ++
      (match children with
        | [] => ""
        | c :: cs => ", children: [" ++ describe c ++ describeRest cs ++ "]") ++ " \x7d"

def describeValue : Value Snapshot String → String
  | .bool b => if b then "Bool(true)" else "Bool(false)"
  | .int i => "Int(" ++ toString i.toInt ++ ")"
  | .float x => "Float(" ++ describedDouble.write x ++ ")"
  | .string s => "String(" ++ Text.quoted s ++ ")"
  | .node t => "Node(" ++ describe t ++ ")"
  | .selector s => "Selector(Selector(" ++ s ++ "))"

def describeRest : List Snapshot → String
  | [] => ""
  | t :: ts => ", " ++ describe t ++ describeRest ts

end

end Tree

end EventTree
