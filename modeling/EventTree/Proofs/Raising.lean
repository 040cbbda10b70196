import EventTree.Proofs.Core
import EventTree.Proofs.Forest.Siblings
import EventTree.Proofs.Results

/-!
# Raising an event that nothing stands in for

If an event is not overridden, was not declared by a program and has no listeners, then raising it is
running its keywords, one level deeper. A sequence raises one statement after the other.
-/

namespace EventTree

/-- Nothing stands in for an event, no program adds to it and nothing listens to it. -/
structure World.Plain (w : World) (event : String) : Prop where
  supers : w.session.overrides.supers? event = none
  bodies : w.store.bodies? event = none
  listeners : ∀ key ∈ Machine.keysOf event, w.session.bindingsOf key = []

namespace World

theorem Plain.deeper {w : World} {event : String} (h : w.Plain event) : w.deeper.Plain event :=
  ⟨h.supers, h.bodies, h.listeners⟩

theorem Plain.shallower {w : World} {event : String} (h : w.Plain event) :
    w.shallower.Plain event := ⟨h.supers, h.bodies, h.listeners⟩

theorem Plain.of_eq {w w' : World} {event : String} (h : w.Plain event) (hstore : w'.store = w.store)
    (hsession : w'.session = w.session) : w'.Plain event :=
  ⟨hsession ▸ h.supers, hstore ▸ h.bodies, hsession ▸ h.listeners⟩

theorem Plain.on {w : World} {event : String} (h : w.Plain event) (f : Forest) :
    (w.on f).Plain event := h.of_eq rfl rfl

theorem plain_start (f : Forest) (event : String) : Plain ⟨f, default, default⟩ event :=
  ⟨rfl, ite_self none, fun _ _ => rfl⟩

end World

namespace Action

variable {hold : Hold} {w w' : World}

theorem result_andThen_normal {first second : Action Flow}
    (h : first.result hold w = (.ok .normal, w')) :
    (andThen first second).result hold w = second.result hold w' := by
  rw [andThen, result_bind_ok h]
  rfl

theorem result_andThen_of_not_normal {first second : Action Flow}
    (h : (first.result hold w).1 ≠ .ok .normal) :
    (andThen first second).result hold w = first.result hold w := by
  rw [andThen, result_bind]
  match hr : first.result hold w, h with
  | (.error _, _), _ => rfl
  | (.ok .normal, _), h => exact absurd rfl h
  | (.ok .breaking, _), _ => rfl
  | (.ok .continuing, _), _ => rfl
  | (.ok (.returning _), _), _ => rfl

theorem result_inTurn_singleton {α : Type} (x : α) (act : α → Action Flow) :
    (inTurn [x] act).result hold w = (act x).result hold w := by
  rw [inTurn]
  by_cases h : ((act x).result hold w).1 = .ok .normal
  · have hx : (act x).result hold w = (.ok .normal, ((act x).result hold w).2) := Prod.ext h rfl
    rw [result_andThen_normal hx, hx]
    rfl
  · exact result_andThen_of_not_normal h

end Action

open EventTree.Action

theorem result_raise_normal {engine : Engine} {event : String} {n : NodeId} {hold : Hold} {w w' : World}
    (h : (engine.raiseFlow event n).result hold w = (.ok .normal, w')) :
    (engine.raise event n).result hold w = (.ok (), w') := by
  rw [Engine.raise, result_bind_ok h]
  rfl

/-- A result once it has left an event. -/
def leaving (event : String) (r : Except Stop Flow × World) : Except Stop Flow × World :=
  (crossing event r.1, r.2.shallower)

theorem leaving_ok (event : String) (flow : Flow) (w : World) :
    leaving event (.ok flow, w) = (.ok flow, w.shallower) := rfl

namespace Machine

variable {m : Machine} (hm : m.IsCore) {hold : Hold} {w : World} {event : String}

theorem result_runBindings {engine : Engine} {call : Call} {key : String}
    (hw : w.session.bindingsOf key = []) :
    (m.runBindings engine call key).result hold w = (.ok .normal, w) := by
  rw [runBindings, result_bind_ok (result_askSession _), hw]
  rfl

theorem result_runDeclared {engine : Engine} {call : Call}
    (hw : w.store.bodies? call.event = none) :
    (Keyword.runDeclared engine call).result hold w = (.ok .normal, w) := by
  rw [Keyword.runDeclared, result_bind_ok (result_askStore _), hw]
  rfl

theorem result_invoke_normal {engine : Engine} {call : Call} (hevent : call.event ≠ catchAll)
    {w₁ w₂ : World}
    (hnamed : (inTurn (m.table.handlersOf call.event) fun h => h engine call).result
      (hold.adding [call.node]) w = (.ok .normal, w₁))
    (hany : (inTurn (m.table.handlersOf catchAll) fun h => h engine call).result
      (hold.adding [call.node]) w₁ = (.ok .normal, w₂))
    (hlisteners : w₁.session.bindingsOf call.event = []) (hlisteners' : w₂.session.bindingsOf catchAll = []) :
    (m.invoke engine call).result hold w = (.ok .normal, w₂) := by
  have hkeys : keysOf call.event = [call.event, catchAll] := by simp [keysOf, hevent]
  have hfirst : (andThen (inTurn (m.table.handlersOf call.event) fun h => h engine call)
      (m.runBindings engine call call.event)).result (hold.adding [call.node]) w = (.ok .normal, w₁) := by
    rw [result_andThen_normal hnamed, result_runBindings hlisteners]
  have hrest : (andThen (inTurn (m.table.handlersOf catchAll) fun h => h engine call)
      (m.runBindings engine call catchAll)).result (hold.adding [call.node]) w₁ = (.ok .normal, w₂) := by
    rw [result_andThen_normal hany, result_runBindings hlisteners']
  rw [invoke, result_holding, hkeys, inTurn, result_andThen_normal hfirst, inTurn,
    result_andThen_normal hrest]
  rfl

/-- The handlers of the event run, and then what programs declared for it, which is nothing. -/
theorem result_invoke_of_quiet {engine : Engine} {call : Call} (hevent : call.event ≠ catchAll)
    (hcatchAll : m.table.handlersOf catchAll = [Keyword.runDeclared])
    (hquiet : ∀ w', (inTurn (m.table.handlersOf call.event) fun h => h engine call).result
      (hold.adding [call.node]) w = (.ok .normal, w') →
        w'.store.bodies? call.event = none ∧ ∀ key ∈ keysOf call.event, w'.session.bindingsOf key = []) :
    (m.invoke engine call).result hold w =
      (inTurn (m.table.handlersOf call.event) fun h => h engine call).result
        (hold.adding [call.node]) w := by
  have hkeys : keysOf call.event = [call.event, catchAll] := by simp [keysOf, hevent]
  generalize hr : (inTurn (m.table.handlersOf call.event) fun h => h engine call).result
    (hold.adding [call.node]) w = r at hquiet ⊢
  by_cases hnormal : r.1 = .ok .normal
  · obtain ⟨outcome, w'⟩ := r
    obtain rfl : outcome = .ok .normal := hnormal
    obtain ⟨hbodies, hlisteners⟩ := hquiet w' rfl
    have hdeclared : (inTurn (m.table.handlersOf catchAll) fun h => h engine call).result
        (hold.adding [call.node]) w' = (.ok .normal, w') := by
      rw [hcatchAll, result_inTurn_singleton, result_runDeclared hbodies]
    exact result_invoke_normal hevent hr hdeclared (hlisteners _ (by simp [hkeys]))
      (hlisteners _ (by simp [hkeys]))
  · have hkeyword : (andThen (inTurn (m.table.handlersOf call.event) fun h => h engine call)
        (m.runBindings engine call call.event)).result (hold.adding [call.node]) w = r := by
      rw [result_andThen_of_not_normal (hr ▸ hnormal), hr]
    rw [invoke, result_holding, hkeys, inTurn, result_andThen_of_not_normal (hkeyword ▸ hnormal), hkeyword]

theorem handlersOf_catchAll : coreTable.handlersOf catchAll = [Keyword.runDeclared] := rfl

include hm

theorem result_invoke {engine : Engine} {call : Call} (hevent : call.event ≠ catchAll)
    (hquiet : ∀ w', (inTurn (coreTable.handlersOf call.event) fun h => h engine call).result
      (hold.adding [call.node]) w = (.ok .normal, w') →
        w'.store.bodies? call.event = none ∧ ∀ key ∈ keysOf call.event, w'.session.bindingsOf key = []) :
    (m.invoke engine call).result hold w =
      (inTurn (coreTable.handlersOf call.event) fun h => h engine call).result
        (hold.adding [call.node]) w := by
  rw [← hm.table_eq] at hquiet ⊢
  refine result_invoke_of_quiet hevent ?_ hquiet
  rw [hm.table_eq, handlersOf_catchAll]

/-- The keywords of an event on a node, run with the engine of a machine. -/
def keywords (m : Machine) (patience : Nat) (event : String) (n : NodeId) : Action Flow :=
  inTurn (coreTable.handlersOf event) fun h =>
    h (m.engine patience (m.perform patience)) (.plain event n)

/-- Raising a plain event is running its keywords, one level deeper. -/
theorem result_raiseFlow {patience : Nat} {n : NodeId} (hevent : event ≠ catchAll)
    (hw : w.Plain event) (hdepth : w.session.depth < m.settings.maxDepth)
    (hplain : ∀ w', (m.keywords patience event n).result (hold.adding [n]) w.deeper =
      (.ok .normal, w') → w'.Plain event) :
    ((m.engine (patience + 1) (m.perform (patience + 1))).raiseFlow event n).result hold w =
      leaving event ((m.keywords patience event n).result (hold.adding [n]) w.deeper) := by
  have hsupers : w.deeper.session.overrides.supers? event = none := hw.supers
  have hinvoke : (m.invoke (m.engine patience (m.perform patience)) (.plain event n)).result hold
      w.deeper = (m.keywords patience event n).result (hold.adding [n]) w.deeper :=
    result_invoke hm hevent fun w' h => ⟨(hplain w' h).bodies, (hplain w' h).listeners⟩
  change (m.perform (patience + 1) .resolved (.plain event n)).result hold w = _
  rw [perform, result_entering_of_lt hdepth, result_bind_ok (result_askSession _)]
  change leaving event _ = _
  rw [← hinvoke]
  congr 1
  rw [show (Call.plain event n).event = event from rfl, hsupers]

theorem result_raiseKeyword {patience : Nat} {n : NodeId} {handler : Handler}
    {outcome : Except Stop Flow} {w' : World} (hhandler : coreTable.handlersOf event = [handler])
    (hevent : event ≠ catchAll) (hw : w.Plain event) (hdepth : w.session.depth < m.settings.maxDepth)
    (hr : (handler (m.engine patience (m.perform patience)) (.plain event n)).result
      (hold.adding [n]) w.deeper = (outcome, w')) (hplain : w'.Plain event) :
    ((m.engine (patience + 1) (m.perform (patience + 1))).raiseFlow event n).result hold w =
      leaving event (outcome, w') := by
  have hkeywords : (m.keywords patience event n).result (hold.adding [n]) w.deeper =
      (outcome, w') := by
    rw [keywords, hhandler, result_inTurn_singleton, hr]
  rw [result_raiseFlow hm hevent hw hdepth, hkeywords]
  intro w'' hw''
  rw [hkeywords] at hw''
  exact (Prod.mk.inj hw'').2 ▸ hplain

end Machine

/-! ## Statements in a sequence -/

namespace Keyword

section Sequence

variable {engine : Engine} {scope x : NodeId} {hold : Hold} {w w' : World} {l r : List NodeId}
  {event : String} (fuel : Nat) (hc : w.forest.children scope = l ++ x :: r)
  (hname : w.forest.name x = event) (hdata : isDataName event = false)

include hname hdata

theorem result_runStatement :
    (runStatement engine x).result hold w = (engine.raiseFlow event x).result hold w := by
  rw [runStatement, result_bind_ok (result_ask _), hname, hdata]
  rfl

include hc

theorem executeFrom_of_normal (h : (engine.raiseFlow event x).result hold w = (.ok .normal, w'))
    (wf : w'.forest.WellFormed) {l' r' : List NodeId}
    (hc' : w'.forest.children scope = l' ++ x :: r') :
    (executeFrom engine scope (fuel + 1) l.length).result hold w =
      (executeFrom engine scope fuel (l'.length + 1)).result hold w' := by
  rw [executeFrom, result_bind_ok (result_ask _), Forest.child?_of_split hc]
  dsimp only
  rw [result_andThen_normal ((result_runStatement hname hdata).trans h),
    result_bind_ok (result_ask _), wf.positionAfter_of_split hc']

theorem executeFrom_of_not_normal
    (h : ((engine.raiseFlow event x).result hold w).1 ≠ .ok .normal) :
    (executeFrom engine scope (fuel + 1) l.length).result hold w =
      (engine.raiseFlow event x).result hold w := by
  rw [executeFrom, result_bind_ok (result_ask _), Forest.child?_of_split hc]
  dsimp only
  have hrun : (runStatement engine x).result hold w = (engine.raiseFlow event x).result hold w :=
    result_runStatement hname hdata
  rw [result_andThen_of_not_normal (hrun ▸ h), hrun]

end Sequence

end Keyword

end EventTree
