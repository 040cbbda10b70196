import EventTree.Keyword.Assignment
import EventTree.Keyword.Branch
import EventTree.Keyword.Choice
import EventTree.Keyword.Declaration
import EventTree.Keyword.Logic
import EventTree.Keyword.Loop
import EventTree.Loader

/-!
# Contexts

A context is a machine and a session: it is started from a loader and an event store, and raises
events on nodes of a forest.
-/

namespace EventTree

/-! ## The core -/

/-- The units of all keywords, in load order. -/
def coreUnits : List HandlerUnit :=
  [Keyword.sequenceUnit, Keyword.assignmentUnit, Keyword.comparisonUnit, Keyword.logicUnit,
    Keyword.branchUnit, Keyword.loopUnit, Keyword.trapUnit, Keyword.choiceUnit,
    Keyword.declarationUnit]

namespace Loader

/-- Loads units that must be accepted whole. -/
def loadWhole (l : Loader) : List HandlerUnit → Except Failure Loader
  | [] => .ok l
  | u :: rest =>
    let (report, l) := l.load u
    if report.rejected.isEmpty then loadWhole l rest
    else .error (.coreRejected report.unit report.rejected.length)

/-- A loader with all keywords. -/
def core (settings : Settings) : Except Failure Loader := (empty settings).loadWhole coreUnits

end Loader

/-! ## Contexts -/

structure Context where
  machine : Machine
  session : Session

namespace Context

/-- Patience that no run comes to the end of. -/
def ample : Nat := 1 <<< 60

/-- The engine for a call from outside. -/
def engine (c : Context) (patience : Nat) : Engine :=
  c.machine.engine patience (c.machine.perform patience)

/-- Runs an action of a context on a forest and a store. -/
def run {α : Type} (c : Context) (forest : Forest) (store : EventStore) (hold : Hold)
    (act : Action α) : Except Stop α × World :=
  (act hold).run.run ⟨forest, store, c.session⟩

/-- Starts a context: takes over the overrides of its handlers and raises the first event. -/
def start (l : Loader) (patience : Nat) (store : EventStore) :
    Except Stop Context × EventStore :=
  let machine : Machine := ⟨l.settings, l.table⟩
  match OverrideGraph.empty.addAll machine.table.overrides with
  | .error cause => (.error (.error (.ofCause cause)), store)
  | .ok overrides =>
    let c : Context := ⟨machine, .start overrides⟩
    let (n, forest) := Forest.empty.create Keyword.startEvent
    let (outcome, w) :=
      c.run forest store (.ofCall n n) ((c.engine patience).raise Keyword.startEvent n)
    (outcome.map fun _ => { c with session := w.session }, w.store)

/-- All names with a handler, in order. -/
def events (c : Context) (store : EventStore) : List String :=
  let declared := store.names.filter fun name => !name.isEmpty
  sortedNames (c.machine.table.events ++ c.session.instanceEvents ++ declared).eraseDups

end Context

end EventTree
