import EventTree.Number.Numeral

/-!
# JSON

A JSON value. The parameter is what its strings are: a text to be printed holds strings, while a text
that was read may also hold strings that escape half of a surrogate pair and so spell nothing.
-/

namespace EventTree

inductive Json (τ : Type) where
  | null
  | bool (b : Bool)
  | number (n : Numeral)
  | string (s : τ)
  | array (items : List (Json τ))
  | object (fields : List (τ × Json τ))

namespace Json

/-! ## Records -/

/-- The fields of a record that was read, in the order of `names`. A record is an object, where unknown
fields are passed over and known ones may not be repeated, or an array of its fields in order, where
the last ones may be missing. -/
def record? (names : List String) :
    Json (Option String) → Option (List (Option (Json (Option String))))
  | .object fields =>
    let count name := fields.countP fun field => field.1 = some name
    if fields.all (·.1.isSome) && names.all (fun name => count name ≤ 1) then
      some (names.map fun name => (fields.find? fun field => field.1 = some name).map (·.2))
    else none
  | .array items =>
    if items.length ≤ names.length then
      some (items.map some ++ List.replicate (names.length - items.length) none)
    else none
  | _ => none

end Json

end EventTree
