import EventTree.Json.Printer
import EventTree.Json.Reader
import EventTree.Tree

/-!
# Trees as JSON

A tree is a record of name, value and children; a value is an object with one field, named for its
type. Absent values and empty lists of children are not written.
-/

namespace EventTree.Tree

/-! ## Writing -/

/-- Doubles in JSON: like a description, but an exponent always has a sign. -/
def jsonDouble : Numeral.Layout where
  positional := some (-5, 15)
  pointZero := true
  exponentSign := .plus
  tie := .toEven

mutual

def toJson : Snapshot → Json String
  | ⟨name, value, children⟩ =>
    .object (("name", .string name) ::
      (match value with
        | none => []
        | some v => [("value", .object [valueField v])]) ++
      (match children with
        | [] => []
        | c :: cs => [("children", .array (toJson c :: toJsonAll cs))]))

/-- The one field of a value. A double that is not finite has no number to write. -/
def valueField : Value Snapshot String → String × Json String
  | .bool b => ("bool", .bool b)
  | .int i => ("int", .number (Numeral.ofInt i.toInt))
  | .float x => ("float", if x.isFinite then .number (jsonDouble.numeral x) else .null)
  | .string s => ("string", .string s)
  | .node t => ("node", toJson t)
  | .selector s => ("selector", .string s)

def toJsonAll : List Snapshot → List (Json String)
  | [] => []
  | t :: ts => toJson t :: toJsonAll ts

end

/-- The text of a tree, over many lines. -/
def print (t : Snapshot) : String := String.ofList (t.toJson.pretty 0)

/-! ## Reading -/

/-- How deep objects and arrays may nest in a tree that is read. -/
def deepest : Nat := 127

mutual

/-- The tree a JSON value stands for, if it nests at most `room` objects and arrays. -/
def ofJson? : Nat → Json (Option String) → Option Snapshot
  | 0, _ => none
  | room + 1, j =>
    match j.record? ["name", "value", "children"] with
    | some [some (.string (some name)), value, children] => do
      let value ← ofJsonOptional? room value
      let children ← ofJsonAll? room children
      return ⟨name, value, children⟩
    | _ => none

def ofJsonOptional? (room : Nat) :
    Option (Json (Option String)) → Option (Option (Value Snapshot String))
  | none => some none
  | some .null => some none
  | some j => (ofJsonValue? room j).map some

def ofJsonValue? : Nat → Json (Option String) → Option (Value Snapshot String)
  | room + 1, .object [(some key, j)] =>
    match key, j with
    | "bool", .bool b => some (.bool b)
    | "int", .number n => n.toInt64?.map .int
    | "float", .number n => n.toDouble?.map .float
    | "string", .string s => s.map .string
    | "node", j => (ofJson? room j).map .node
    | "selector", .string s => s.map .selector
    | _, _ => none
  | _, _ => none

def ofJsonAll? : Nat → Option (Json (Option String)) → Option (List Snapshot)
  | _, none => some []
  | room + 1, some (.array items) => items.mapM (ofJson? room)
  | _, _ => none

end

/-- Reads the text of a tree. -/
def parse (text : String) : Except Cause Snapshot :=
  match (Json.read text).bind (ofJson? deepest) with
  | some t => .ok t
  | none => .error .invalidTree

end EventTree.Tree
