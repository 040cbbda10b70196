import EventTree.EventStore
import EventTree.Forest.Hold
import EventTree.Selection
import EventTree.Settings

/-!
# Worlds and actions

A world is all that a running program can change: the forest, the event store, and the session with
its overrides, its listeners and its place among the events being raised. An action changes the world
and gives a result, fails with an error, or is stopped because its patience ran out. Whatever an action
did before it failed stays done. While it runs it holds nodes of the forest, and it sees no others above
the place where it entered.
-/

namespace EventTree

/-! ## Events being raised -/

/-- An event raised on a node. When overrides led to it, `bases` are the events that it stands in for,
the nearest first. -/
structure Call where
  event : String
  node : NodeId
  bases : List String
  deriving DecidableEq, Repr

namespace Call

/-- An event raised by its own name. -/
def plain (event : String) (node : NodeId) : Call := ⟨event, node, []⟩

/-- The same call sent on to an event that overrides it. -/
def sentOn (call : Call) (super : String) : Call :=
  ⟨super, call.node, call.event :: call.bases⟩

/-- The call that this one stands in for. -/
def base? (call : Call) : Option Call :=
  match call.bases with
  | [] => none
  | base :: rest => some ⟨base, call.node, rest⟩

end Call

/-- How a statement ended. -/
inductive Flow where
  | normal
  | breaking
  | continuing
  /-- The node carries the returned value and children. -/
  | returning (node : NodeId)
  deriving DecidableEq, Repr

namespace Flow

def isNormal : Flow → Bool
  | normal => true
  | _ => false

end Flow

/-! ## Listeners -/

/-- One level of a listener: a type, and the listener as that type sees it. -/
structure Level where
  type : String
  label : String
  deriving DecidableEq, Repr

/-- An object that handles events, with its own type first and then the types it extends. -/
structure Listener where
  id : Nat
  chain : List Level
  deriving DecidableEq, Repr

/-- A handler of the table bound to a level of a listener. -/
structure Binding where
  owner : Nat
  level : Level
  entry : Nat
  deriving DecidableEq, Repr

/-- An override that came with a listener. -/
structure Installed where
  owner : Nat
  base : String
  super : String
  deriving DecidableEq, Repr

/-! ## Sessions -/

structure Session where
  overrides : OverrideGraph
  /-- The bindings of each event, in the order of registration. -/
  bindings : List (String × List Binding)
  installed : List Installed
  /-- How many events are being raised. -/
  depth : Nat
  /-- What each declared event being run stands in for, the innermost first. -/
  bases : List (Option Call)
  deriving DecidableEq, Repr

namespace Session

/-- A session in which nothing happened yet. -/
def start (overrides : OverrideGraph) : Session := ⟨overrides, [], [], 0, []⟩

instance : Inhabited Session := ⟨start .empty⟩

def bindingsOf (s : Session) (event : String) : List Binding := (s.bindings.lookup event).getD []

/-- What the innermost declared event being run stands in for. -/
def currentBase (s : Session) : Option Call := s.bases.head?.join

end Session

structure World where
  forest : Forest
  store : EventStore
  session : Session

instance : Inhabited World := ⟨⟨default, default, default⟩⟩

/-! ## Actions -/

/-- Why an action gave no result. -/
inductive Stop where
  | error (e : Error)
  /-- It ran out of patience. -/
  | stalled
  deriving DecidableEq, Repr

/-- What is done to a world, under a hold of nodes. -/
abbrev Action := ReaderT Hold (ExceptT Stop (StateM World))

namespace Action

variable {α : Type}

def fail (cause : Cause) : Action α := throw (.error (.ofCause cause))

def stall : Action α := throw .stalled

/-- Fails if there is a cause to. -/
def failIf : Option Cause → Action Unit
  | none => pure ()
  | some cause => fail cause

def ofExcept : Except Cause α → Action α
  | .ok a => pure a
  | .error cause => fail cause

/-- Runs an action and hands its error on as a value. -/
def attempt (act : Action α) : Action (Except Error α) := fun hold =>
  ExceptT.mk do
    match ← (act hold).run with
    | .ok a => return .ok (.ok a)
    | .error (.error e) => return .ok (.error e)
    | .error .stalled => return .error .stalled

/-- Gives an outcome that was handed on as a value. -/
def resume : Except Error α → Action α
  | .ok a => pure a
  | .error e => throw (.error e)

/-! ## Holding nodes -/

/-- Holds nodes while an action runs. -/
def holding (nodes : List NodeId) (act : Action α) : Action α := fun hold => act (hold.adding nodes)

/-- Runs an action on a node beside the one that is running. -/
def goingBeside (n other : NodeId) (act : Action α) : Action α := fun hold =>
  act (hold.goingBeside n other)

/-! ## Forest -/

/-- Reads the forest, lost nodes and all. This will do wherever only held nodes and those below them
are looked at. -/
def ask (read : Forest → α) : Action α := do return read (← get).forest

/-- Reads what is left of the forest, for all that looks up from a node. -/
def observe (look : Forest → α) : Action α := fun hold => do
  return look ((← get).forest.seen hold)

/-- Changes the forest. -/
def edit (change : Forest → Forest) : Action Unit :=
  modify fun w => { w with forest := change w.forest }

/-- Changes the forest and gives a result. -/
def grow (change : Forest → α × Forest) : Action α :=
  modifyGet fun w =>
    let (a, forest) := change w.forest
    (a, { w with forest })

def create (name : String) : Action NodeId := grow (·.create name)

/-- A new node with a value. -/
def createWith (name : String) (value : Option LiveValue) : Action NodeId := do
  let n ← create name
  edit (·.setValue n value)
  return n

def plant (t : Tree Selector) : Action NodeId := grow (Forest.plant t)

def copy (n : NodeId) : Action NodeId := grow (·.copy n)

def copyValue (v : Option LiveValue) : Action (Option LiveValue) := grow (·.copyValue v)

def setValue (n : NodeId) (v : LiveValue) : Action Unit := edit (·.setValue n (some v))

def insert (parent : NodeId) (position : Option Nat) (child : NodeId) : Action Unit := do
  failIf (← ask (·.insertFault? parent position child))
  edit (·.moveTo parent position child)

def untie (n : NodeId) : Action Unit := do
  failIf (← observe (·.untieFault? n))
  edit (·.detach n)

def replace (n other : NodeId) : Action Unit := do
  failIf (← observe (·.replaceFault? n other))
  edit (·.exchange n other)

/-! ## Store and session -/

def askStore (read : EventStore → α) : Action α := do return read (← get).store

def editStore (change : EventStore → EventStore) : Action Unit :=
  modify fun w => { w with store := change w.store }

def askSession (read : Session → α) : Action α := do return read (← get).session

def editSession (change : Session → Session) : Action Unit :=
  modify fun w => { w with session := change w.session }

/-! ## Sequences -/

/-- Goes on to a second action if the first ended normally. -/
def andThen (first second : Action Flow) : Action Flow := do
  let flow ← first
  if flow.isNormal then second else return flow

/-- Runs an action on one item after the other, up to the first that does not end normally. -/
def inTurn (items : List α) (act : α → Action Flow) : Action Flow :=
  match items with
  | [] => return .normal
  | item :: rest => andThen (act item) (inTurn rest act)

/-- Runs an action on every item. -/
def forEach (items : List α) (act : α → Action Unit) : Action Unit :=
  match items with
  | [] => return
  | item :: rest => do
    act item
    forEach rest act

/-- Runs an action on every item and gathers the results. -/
def gather {β : Type} (items : List α) (act : α → Action β) : Action (List β) :=
  match items with
  | [] => return []
  | item :: rest => do
    let b ← act item
    let bs ← gather rest act
    return b :: bs

end Action

end EventTree
