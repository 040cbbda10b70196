import EventTree.Number.Numeral

/-!
# Values

What a node may hold. The two parameters say what stands for a nested tree and for a selector: in
plain data they are a tree and the text of the selector, in a forest a node and the selector itself.
-/

namespace EventTree

inductive Value (ν σ : Type) where
  | bool (b : Bool)
  | int (i : Int64)
  | float (x : Double)
  | string (s : String)
  | node (n : ν)
  | selector (s : σ)
  deriving DecidableEq, Repr

namespace Value

variable {ν σ ν₁ σ₁ : Type}

def typeName : Value ν σ → String
  | bool _ => "bool"
  | int _ => "int"
  | float _ => "float"
  | string _ => "string"
  | node _ => "node"
  | selector _ => "selector"

def map (f : ν → ν₁) (g : σ → σ₁) : Value ν σ → Value ν₁ σ₁
  | bool b => bool b
  | int i => int i
  | float x => float x
  | string s => string s
  | node n => node (f n)
  | selector s => selector (g s)

def asBool? : Value ν σ → Option Bool
  | bool b => some b
  | _ => none

def asInt? : Value ν σ → Option Int64
  | int i => some i
  | _ => none

def asString? : Value ν σ → Option String
  | string s => some s
  | _ => none

def asNode? : Value ν σ → Option ν
  | node n => some n
  | _ => none

def asSelector? : Value ν σ → Option σ
  | selector s => some s
  | _ => none

/-- The nodes among values. -/
def nodes (values : List (Option (Value ν σ))) : List ν := values.filterMap (·.bind asNode?)

/-- An absent value is false, a Boolean is itself, and any other value is true. -/
def isTruthy : Option (Value ν σ) → Bool
  | none => false
  | some (bool b) => b
  | some _ => true

/-- Doubles in a running text: every digit positional, no point in a whole number. -/
def plainDouble : Numeral.Layout where
  positional := none
  pointZero := false
  exponentSign := .unwritten
  tie := .up

/-- The value as a text, given what names a nested tree and a selector. -/
def text (nodeName : ν → String) (source : σ → String) : Value ν σ → String
  | bool b => if b then "true" else "false"
  | int i => toString i.toInt
  | float x => plainDouble.write x
  | string s => s
  | node n => nodeName n
  | selector s => source s

end Value

end EventTree
