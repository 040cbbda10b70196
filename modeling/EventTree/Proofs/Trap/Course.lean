import EventTree.Proofs.Forest.Siblings
import EventTree.Proofs.Plot.Machine
import EventTree.Proofs.Raising

/-!
# The course of a trap

A trap is a `try` and what follows it in its scope. This module says what its bodies come to, without
saying how they are reached: the `catch` runs after an error, the `finally` runs last, and what counts is
the end of the `finally` unless that is normal.
-/

namespace EventTree

open EventTree.Action Keyword

/-! ## Traps -/

/-- A `try`, a `catch` or a `finally` or both, and where they stand among the children of a scope. -/
structure Trap where
  scope : NodeId
  before : List NodeId
  body : NodeId
  onError : Option NodeId
  last : Option NodeId
  after : List NodeId
  covered : onError.isSome ∨ last.isSome

namespace Trap

def nodes (T : Trap) : List NodeId := T.body :: (T.onError.toList ++ T.last.toList)

/-- The trap stands in its scope, no error is left there, and no other `finally` comes right after it. -/
structure Stands (T : Trap) (f : Forest) : Prop where
  children : f.children T.scope = T.before ++ (T.nodes ++ T.after)
  body : f.name T.body = "try"
  onError : ∀ c, T.onError = some c → f.name c = "catch"
  last : ∀ l, T.last = some l → f.name l = "finally"
  following : T.last = none → ∀ n, T.after.head? = some n → f.name n ≠ "finally"
  untrapped : ∀ n ∈ f.children T.scope, f.name n ≠ trappedName

/-- No further `catch` comes right after the trap, so it is well formed. -/
def Closed (T : Trap) (f : Forest) : Prop := ∀ n, T.after.head? = some n → f.name n ≠ "catch"

end Trap

namespace World

/-- Nothing stands in for the keywords of traps, and there are no listeners. -/
structure Calm (w : World) : Prop where
  plain : ∀ event ∈ ["try", "catch", "finally"], w.Plain event
  bindings : w.session.bindings = []

/-- Links agree, and the node of what a declared event stands in for is there. -/
structure Sound (w : World) : Prop where
  wellFormed : w.forest.WellFormed
  base : ∀ call, w.session.currentBase = some call → w.forest.Has call.node

end World

/-- A world in which a trap is about to run or has run. -/
structure Trap.Poised (T : Trap) (w : World) : Prop where
  stands : T.Stands w.forest
  calm : w.Calm
  sound : w.Sound

/-! ## Bodies -/

/-- A body ran to its end, with an outcome, and left a world. -/
def Ran (engine : Engine) (hold : Hold) (n : NodeId) (position : Nat) (w : World)
    (outcome : Except Error Flow) (w' : World) : Prop :=
  (attempt (execute engine n position)).result hold w = (.ok outcome, w')

/-- The details of an error came below a node, before its own children. -/
structure Armed (c : NodeId) (e : Error) (w : World) (details : List NodeId) (w' : World) : Prop where
  details_eq : details =
    (Forest.plant (trapped e) w.forest).2.children (Forest.plant (trapped e) w.forest).1
  names : details.map w'.forest.name = ["message", "type", "stack-trace"]
  lent : Lent c details (Forest.plant (trapped e) w.forest).2 w'.forest
  children : w'.forest.children c = details ++ w.forest.children c
  store : w'.store = w.store
  session : w'.session = w.session

/-- The details were taken away again. -/
structure Disarmed (c : NodeId) (w : World) (details : List NodeId) (w' : World) : Prop where
  givenBack : GivenBack c details w.forest w'.forest
  store : w'.store = w.store
  session : w'.session = w.session

namespace Trap

variable (engine : Engine) (hold : Hold) (T : Trap)

/-- The body, and after an error the `catch`: how the body ended, how it all ended, the nodes whose bodies
ran, and the details of the error. -/
inductive Pending (w : World) :
    Except Error Flow → Except Error Flow → List NodeId → List NodeId → World → Prop
  | plain {first : Except Error Flow} {w₁ : World} :
      Ran engine (hold.adding [T.body]) T.body 0 w first w₁ →
      (∀ e, first = .error e → T.onError = none) → Pending w first first [T.body] [] w₁
  | rescued {c : NodeId} {e : Error} {details : List NodeId} {second : Except Error Flow}
      {w₁ w₂ w₃ w₄ : World} :
      Ran engine (hold.adding [T.body]) T.body 0 w (.error e) w₁ → T.onError = some c →
      Armed c e w₁ details w₂ →
      Ran engine (hold.adding [T.scope, c]) c details.length w₂ second w₃ →
      Disarmed c w₃ details w₄ → Pending w (.error e) second [T.body, c] details w₄

/-- The hold under which the `finally` runs. After a normal end it is a statement of its own; otherwise it
runs beside the node whose end it follows. -/
def closing (l : NodeId) : Except Error Flow → Except Error Flow → Hold
  | _, .ok .normal => hold.adding [l]
  | .ok _, _ => (hold.adding [T.body]).goingBeside T.body l
  | .error _, _ =>
    match T.onError with
    | none => (hold.adding [T.scope, T.body]).goingBeside T.body l
    | some c => (hold.adding [T.scope, c]).goingBeside c l

/-- What counts of two ends when the second came last. -/
def overriding (pending : Except Error Flow) : Except Error Flow → Except Error Flow
  | .ok .normal => pending
  | other => other

/-- The whole trap, with what comes last. -/
inductive Course (w : World) :
    Except Error Flow → Except Error Flow → List NodeId → List NodeId → World → Prop
  | bare {first pending : Except Error Flow} {ran details : List NodeId} {w₁ : World} :
      T.last = none → T.Pending engine hold w first pending ran details w₁ →
      Course w first pending ran details w₁
  | closed {l : NodeId} {first pending final : Except Error Flow} {ran details : List NodeId}
      {w₁ w₂ : World} :
      T.last = some l → T.Pending engine hold w first pending ran details w₁ →
      Ran engine (T.closing hold l first pending) l 0 w₁ final w₂ →
      Course w first (overriding pending final) (ran ++ [l]) details w₂

/-- The bodies that a trap comes to run: each with its hold, the place where it begins and the world that
it begins in. -/
inductive Started (w : World) : NodeId → Nat → Hold → World → Prop
  | body : Started w T.body 0 (hold.adding [T.body]) w
  | onError {c : NodeId} {e : Error} {details : List NodeId} {w₁ w₂ : World} :
      Ran engine (hold.adding [T.body]) T.body 0 w (.error e) w₁ → T.onError = some c →
      Armed c e w₁ details w₂ → Started w c details.length (hold.adding [T.scope, c]) w₂
  | last {l : NodeId} {first pending : Except Error Flow} {ran details : List NodeId} {w₁ : World} :
      T.Pending engine hold w first pending ran details w₁ → T.last = some l →
      Started w l 0 (T.closing hold l first pending) w₁

/-- What a sequence makes of the end of a trap: after a normal end it goes on with `rest`, and any other
end is its own, once it has left the event that it came out of. -/
def proceeding (event : String) (final : Except Error Flow) (w : World)
    (rest : Except Stop Flow × World) : Except Stop Flow × World :=
  match final with
  | .ok .normal => rest
  | other => leaving event (resumed other, w)

/-- Every body that is run comes to an end, whichever it is, and leaves the trap standing. -/
def Tame (w : World) : Prop :=
  ∀ n position hold₁ w₁, T.Started engine hold w n position hold₁ w₁ →
    ∃ outcome w₂, Ran engine hold₁ n position w₁ outcome w₂ ∧ T.Stands w₂.forest ∧ w₂.Calm

end Trap

end EventTree
