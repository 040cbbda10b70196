import EventTree.Context
import EventTree.Tree.Json

/-!
# The command

Reads settings and a tree, raises an event on the tree, and prints what the tree has become.
-/

namespace EventTree

/-- What a command is given. A file that is not there has no contents. -/
structure Command where
  /-- The contents of the settings file, if one is named. -/
  settings : Option (Option String)
  /-- The contents of the program file. -/
  program : Option String
  event : String
  deriving DecidableEq, Repr

/-- What a command leaves behind. -/
structure Report where
  exit : UInt8
  out : String
  err : String
  deriving DecidableEq, Repr

namespace Command

/-- The event that is raised if none is given. -/
def defaultEvent : String := "eval"

def readSettings (c : Command) : Except Failure Settings :=
  match c.settings with
  | none => .ok .default
  | some file => Settings.parseFile file

/-- The tree that the program file holds. -/
def readProgram (c : Command) : Except Failure (Tree Selector) :=
  match c.program with
  | none => .error .programMissing
  | some text =>
    ((Tree.parse text).bind Tree.readSelectors).mapError fun cause => .program (.ofCause cause)

/-- The settings, the program and the handlers, in the order in which they are looked at. -/
def prepare (c : Command) : Except Failure (Tree Selector × Loader) := do
  let settings ← c.readSettings
  let program ← c.readProgram
  let loader ← Loader.core settings
  return (program, loader)

/-- Runs a program on an empty store and prints the tree that it leaves. -/
def runProgram (patience : Nat) (event : String) (program : Tree Selector) (l : Loader) :
    Except Stop String :=
  match Context.start l patience default with
  | (.error stop, _) => .error stop
  | (.ok c, store) =>
    let (n, forest) := Forest.plant program .empty
    let (outcome, w) := c.run forest store (.ofCall n n) ((c.engine patience).raise event n)
    outcome.map fun _ => (w.forest.snapshot n).print

/-- The printed tree or why there is none; nothing at all if patience runs out. -/
def run (patience : Nat) (c : Command) : Option (Except Failure String) :=
  match c.prepare with
  | .error failure => some (.error failure)
  | .ok (program, loader) =>
    match runProgram patience c.event program loader with
    | .ok text => some (.ok text)
    | .error (.error e) => some (.error (.program e))
    | .error .stalled => none

/-! ## Reports -/

/-- The lines for an error of the program: what it is, and the events that it left. -/
def errorLines (e : Error) : List String :=
  s!"Error [{e.kind.text}]: {e.message}" :: e.trace.map fun event => s!"  at [{event}]"

def failureLines : Failure → List String
  | .program e => errorLines e
  | other => ["Error: " ++ other.text]

def report : Except Failure String → Report
  | .ok text => ⟨0, text ++ "\n", ""⟩
  | .error failure => ⟨1, "", String.join ((failureLines failure).map (· ++ "\n"))⟩

end Command

end EventTree
