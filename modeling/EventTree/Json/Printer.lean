import EventTree.Json

/-!
# Printing JSON

On one line without blanks, or with one item to a line and two blanks for each level.
-/

namespace EventTree.Json

/-! ## Strings -/

def hexDigit (n : Nat) : Char := Nat.digitChar n

/-- Quotes, backslashes and controls are escaped; all else stands as it is. -/
def escaped (c : Char) : List Char :=
  match c with
  | '"' => ['\\', '"']
  | '\\' => ['\\', '\\']
  | '\x08' => ['\\', 'b']
  | '\x0c' => ['\\', 'f']
  | '\n' => ['\\', 'n']
  | '\r' => ['\\', 'r']
  | '\t' => ['\\', 't']
  | _ =>
    if c.toNat < 0x20 then ['\\', 'u', '0', '0', hexDigit (c.toNat / 16), hexDigit (c.toNat % 16)]
    else [c]

def printString (s : String) : List Char := '"' :: s.toList.flatMap escaped ++ ['"']

/-! ## One line -/

mutual

def compact : Json String → List Char
  | .null => "null".toList
  | .bool b => if b then "true".toList else "false".toList
  | .number n => n.text
  | .string s => printString s
  | .array [] => ['[', ']']
  | .array (item :: items) => '[' :: compact item ++ compactItems items ++ [']']
  | .object [] => ['\x7b', '\x7d']
  | .object (field :: fields) =>
    '\x7b' :: compactField field ++ compactFields fields ++ ['\x7d']

def compactItems : List (Json String) → List Char
  | [] => []
  | item :: items => ',' :: compact item ++ compactItems items

def compactField : String × Json String → List Char
  | (key, value) => printString key ++ ':' :: compact value

def compactFields : List (String × Json String) → List Char
  | [] => []
  | field :: fields => ',' :: compactField field ++ compactFields fields

end

/-! ## Many lines -/

/-- A line break and the blanks of a level. -/
def newline (level : Nat) : List Char := '\n' :: List.replicate (2 * level) ' '

mutual

/-- A value whose first line is already indented; the lines within stand one level deeper. -/
def pretty (level : Nat) : Json String → List Char
  | .null => "null".toList
  | .bool b => if b then "true".toList else "false".toList
  | .number n => n.text
  | .string s => printString s
  | .array [] => ['[', ']']
  | .array (item :: items) =>
    '[' :: newline (level + 1) ++ pretty (level + 1) item ++ prettyItems (level + 1) items ++
      newline level ++ [']']
  | .object [] => ['\x7b', '\x7d']
  | .object (field :: fields) =>
    '\x7b' :: newline (level + 1) ++ prettyField (level + 1) field ++
      prettyFields (level + 1) fields ++ newline level ++ ['\x7d']

def prettyItems (level : Nat) : List (Json String) → List Char
  | [] => []
  | item :: items => ',' :: newline level ++ pretty level item ++ prettyItems level items

def prettyField (level : Nat) : String × Json String → List Char
  | (key, value) => printString key ++ ':' :: ' ' :: pretty level value

def prettyFields (level : Nat) : List (String × Json String) → List Char
  | [] => []
  | field :: fields => ',' :: newline level ++ prettyField level field ++ prettyFields level fields

end

end EventTree.Json
