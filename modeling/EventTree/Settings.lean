import EventTree.Failure
import EventTree.Json.Printer
import EventTree.Json.Reader

/-!
# Settings

The ceilings of a run. Both are 64-bit words; a field that is not given keeps its default.
-/

namespace EventTree

structure Settings where
  /-- Most passes of a loop, unless the loop lifts the ceiling itself. -/
  maxIterations : Nat
  /-- Most events being raised at one time. -/
  maxDepth : Nat
  /-- Whether raised events are logged. -/
  traceRaises : Bool
  deriving DecidableEq, Repr

namespace Settings

def default : Settings := ⟨10000, 512, false⟩

instance : Inhabited Settings := ⟨default⟩

/-! ## JSON -/

def toJson (s : Settings) : Json String :=
  .object [("max_iterations", .number (Numeral.ofInt s.maxIterations)),
    ("max_depth", .number (Numeral.ofInt s.maxDepth)), ("trace_raises", .bool s.traceRaises)]

/-- The settings on one line. -/
def print (s : Settings) : String := String.ofList s.toJson.compact

def word? (missing : Nat) : Option (Json (Option String)) → Option Nat
  | none => some missing
  | some (.number n) => n.toUnsigned?
  | _ => none

def flag? (missing : Bool) : Option (Json (Option String)) → Option Bool
  | none => some missing
  | some (.bool b) => some b
  | _ => none

def ofJson? (j : Json (Option String)) : Option Settings :=
  match j.record? ["max_iterations", "max_depth", "trace_raises"] with
  | some [iterations, depth, trace] => do
    let iterations ← word? default.maxIterations iterations
    let depth ← word? default.maxDepth depth
    let trace ← flag? default.traceRaises trace
    return ⟨iterations, depth, trace⟩
  | _ => none

/-- Reads settings; `unreadable` says what to report of a text that holds none. -/
def parseAs (unreadable : Failure) (text : String) : Except Failure Settings :=
  match (Json.read text).bind ofJson? with
  | none => .error unreadable
  | some s => if s.maxDepth = 0 then .error .zeroDepth else .ok s

/-- Reads settings given as text. -/
def parse : String → Except Failure Settings := parseAs .settingsText

/-- Reads settings given as the contents of a file, if there is one. -/
def parseFile : Option String → Except Failure Settings
  | none => .error .settingsMissing
  | some text => parseAs .settingsFile text

end Settings

end EventTree
