import EventTree.Proofs.Law
import EventTree.Proofs.Signal.Delivery

/-!
# Where signals end

A flow goes no further than a raise from outside, an `eval` or the invocation of a declared event: it is
settled on their node, and they go on as if nothing had happened, unless it is refused there.
-/

namespace EventTree

open EventTree.Action Keyword

/-! ## Conclusions -/

/-- How an action ends, given what its first part comes to and how it goes on. -/
def concluding {α : Type} (onward : World → Except Stop α × World) :
    Except Stop Unit × World → Except Stop α × World
  | (.ok (), w) => onward w
  | (.error stop, w) => (.error stop, w)

theorem concluding_bind {α : Type} {act : Action Unit} {next : Action α} {hold : Hold} {w : World} :
    (do act; next : Action α).result hold w =
      concluding (fun w => next.result hold w) (act.result hold w) := by
  rw [result_bind]
  match act.result hold w with
  | (.ok (), _) => rfl
  | (.error _, _) => rfl

/-! ## Targets of an eval -/

/-- Runs a copy of one target. -/
def runTarget (engine : Engine) (n target : NodeId) : Action Unit := do
  let body ← copy target
  let flow ← execute engine body 0
  settleOn n flow

/-- An `eval` comes to targets: those before them did well. -/
inductive TargetsCome (engine : Engine) (hold : Hold) (n : NodeId) :
    List NodeId → World → List NodeId → World → Prop
  | start {targets : List NodeId} {w : World} : TargetsCome engine hold n targets w targets w
  | target {target : NodeId} {targets targets' : List NodeId} {w w₁ w' : World} :
    (runTarget engine n target).result (hold.adding (target :: targets)) w = (.ok (), w₁) →
    TargetsCome engine hold n targets w₁ targets' w' →
      TargetsCome engine hold n (target :: targets) w targets' w'

theorem evalEach_cons (engine : Engine) (n target : NodeId) (rest : List NodeId) :
    evalEach engine n (target :: rest) = (do
      holding (target :: rest) (runTarget engine n target)
      evalEach engine n rest) := rfl

theorem TargetsCome.result {engine : Engine} {hold : Hold} {n : NodeId} {targets targets' : List NodeId}
    {w w' : World} (h : TargetsCome engine hold n targets w targets' w') :
    (evalEach engine n targets).result hold w = (evalEach engine n targets').result hold w' := by
  induction h with
  | start => rfl
  | target htarget _ ih =>
    rw [evalEach_cons, result_bind_ok ((result_holding _ _).trans htarget)]
    exact ih

theorem result_eval {engine : Engine} {call : Call} {hold : Hold} {w w₁ : World} {target : NodeId}
    {rest : List NodeId} (h : TargetsCome engine hold call.node
      (evalTargets (w.forest.seen hold) call.node) w (target :: rest) w₁) :
    (Keyword.eval engine call).result hold w =
      concluding (fun w =>
          (do evalEach engine call.node rest; return .normal : Action Flow).result hold w)
        ((runTarget engine call.node target).result (hold.adding (target :: rest)) w₁) := by
  rw [Keyword.eval, result_bind_ok (result_observe _), result_bind, h.result, ← result_bind,
    evalEach_cons, bind_assoc, concluding_bind, result_holding]

/-! ## Bodies of a declared event -/

/-- Puts the bodies of an event below a node. -/
def plantBodies (n : NodeId) (snapshots : List Snapshot) : Action (List NodeId) := do
  let trees ← gather snapshots fun t => ofExcept t.readSelectors
  let bodies ← gather trees plant
  forEach bodies fun body => insert n none body
  return bodies

theorem result_runBodies {engine : Engine} {hold : Hold} {base : Option Call} {bodies : List NodeId}
    {w w' : World} {ended : Except Error Flow}
    (h : (inTurn bodies fun body => engine.raiseFlow "lambda" body).result hold (w.basing base) =
      (resumed ended, w')) :
    (runBodies engine base bodies).result hold w = (.ok ended, w'.unbased) := by
  have hattempt : (attempt (inTurn bodies fun body => engine.raiseFlow "lambda" body)).result hold
      (w.basing base) = (.ok ended, w') := by
    rw [result_attempt, h, handedOn_resumed]
  rw [runBodies, result_bind_ok (result_editSession _)]
  refine (result_bind_ok hattempt).trans ?_
  rw [result_bind_ok (result_editSession _)]
  rfl

theorem result_runDeclared_of_bodies {engine : Engine} {call : Call} {hold : Hold} {w : World}
    {snapshots : List Snapshot} (hbodies : w.store.bodies? call.event = some snapshots) :
    (runDeclared engine call).result hold w = (do
      let bodies ← plantBodies call.node snapshots
      let outcome ← runBodies engine call.base? bodies
      untieFrom call.node bodies
      settleOn call.node (← resume outcome)
      return .normal : Action Flow).result hold w := by
  rw [runDeclared, result_bind_ok (result_askStore _), hbodies]
  simp only [plantBodies, bind_assoc, pure_bind]

theorem result_runDeclared_ended {engine : Engine} {call : Call} {hold : Hold} {w w₁ w₂ : World}
    {snapshots : List Snapshot} {bodies : List NodeId} {ended : Except Error Flow}
    (hbodies : w.store.bodies? call.event = some snapshots)
    (hplanted : (plantBodies call.node snapshots).result hold w = (.ok bodies, w₁))
    (hrun : (inTurn bodies fun body => engine.raiseFlow "lambda" body).result hold
      (w₁.basing call.base?) = (resumed ended, w₂)) (hheld : call.node ∈ hold.held)
    (wf : w₂.forest.WellFormed) :
    ∃ g, GivenBack call.node bodies w₂.forest g ∧ (runDeclared engine call).result hold w = (do
      settleOn call.node (← resume ended)
      return .normal : Action Flow).result hold (w₂.unbased.on g) := by
  obtain ⟨g, huntie, hgiven⟩ := untieFrom_givesBack hheld bodies (w := w₂.unbased) wf
  refine ⟨g, hgiven, ?_⟩
  rw [result_runDeclared_of_bodies hbodies]
  exact (result_bind_ok hplanted).trans ((result_bind_ok (result_runBodies hrun)).trans
    (result_bind_ok huntie))

theorem result_runDeclared_settling {engine : Engine} {call : Call} {hold : Hold} {w w₁ w₂ : World}
    {snapshots : List Snapshot} {bodies : List NodeId} {flow : Flow}
    (hbodies : w.store.bodies? call.event = some snapshots)
    (hplanted : (plantBodies call.node snapshots).result hold w = (.ok bodies, w₁))
    (hrun : (inTurn bodies fun body => engine.raiseFlow "lambda" body).result hold
      (w₁.basing call.base?) = (.ok flow, w₂)) (hheld : call.node ∈ hold.held)
    (wf : w₂.forest.WellFormed) :
    ∃ u, GivenBack call.node bodies w₂.forest u.forest ∧ (runDeclared engine call).result hold w =
      concluding (fun w => (.ok .normal, w)) ((settleOn call.node flow).result hold u) := by
  obtain ⟨g, hgiven, hresult⟩ := result_runDeclared_ended hbodies hplanted
    (show _ = (resumed (.ok flow), w₂) from hrun) hheld wf
  refine ⟨w₂.unbased.on g, hgiven, hresult.trans ?_⟩
  exact (result_bind_ok (result_resume _)).trans concluding_bind

/-! ## Boundaries -/

/-- A moment right inside a boundary. The first event that does not end normally there ends with the
boundary at a node, which first gives back its guests. `result` is what the boundary as a whole comes to,
and `onward` how it goes on when the flow is settled. -/
inductive Bounded (m : Machine) (t : Moment) : NodeId → List NodeId → {α : Type} →
    Except Stop α × World → (World → Except Stop α × World) → Prop
  | raise :
    Bounded m t t.node []
      (((m.engine t.patience (m.perform t.patience)).raise t.event t.node).result t.hold t.world)
      fun w => (.ok (), w)
  | eval {call : Call} {hold : Hold} {w w₁ : World} {target body : NodeId} {rest : List NodeId}
    {f : Forest} :
    TargetsCome (m.engine t.patience (m.perform t.patience)) hold call.node
      (evalTargets (w.forest.seen hold) call.node) w (target :: rest) w₁ →
    w₁.forest.copy target = (body, f) →
    Reaches m ⟨hold.adding (target :: rest), body, 0, w₁.on f⟩ t →
      Bounded m t call.node []
        ((Keyword.eval (m.engine t.patience (m.perform t.patience)) call).result hold w)
        fun w => (do
          evalEach (m.engine t.patience (m.perform t.patience)) call.node rest
          return .normal : Action Flow).result hold w
  | declared {call : Call} {w w₁ : World} {snapshots : List Snapshot} {before after : List NodeId} :
    w.store.bodies? call.event = some snapshots → call.node ∈ t.hold.held → t.event = "lambda" →
    (plantBodies call.node snapshots).result t.hold w = (.ok (before ++ t.node :: after), w₁) →
    (inTurn before fun body =>
      (m.engine t.patience (m.perform t.patience)).raiseFlow "lambda" body).result t.hold
        (w₁.basing call.base?) = (.ok .normal, t.world) →
      Bounded m t call.node (before ++ t.node :: after)
        ((runDeclared (m.engine t.patience (m.perform t.patience)) call).result t.hold w)
        fun w => (.ok .normal, w)

section Boundaries

variable {m : Machine} {t : Moment} {n : NodeId} {guests : List NodeId} {α : Type}
  {result : Except Stop α × World} {onward : World → Except Stop α × World} {flow : Flow} {w : World}

theorem Bounded.result_eq (h : Bounded m t n guests result onward) (ht : m.outcome t = (.ok flow, w))
    (hflow : flow ≠ .normal) (wf : w.forest.WellFormed) :
    ∃ hold u, GivenBack n guests w.forest u.forest ∧
      result = concluding onward ((settleOn n flow).result hold u) := by
  cases h with
  | raise =>
    refine ⟨t.hold, w, .nil wf, ?_⟩
    rw [Engine.raise, result_bind_ok ht]
    obtain ⟨_ | _, _⟩ := (settleOn t.node flow).result t.hold w <;> rfl
  | eval hcome hcopy hreaches =>
    rename_i call hold w₀ w₁ target body rest f
    refine ⟨hold.adding (target :: rest), w, .nil wf, ?_⟩
    have hbody := (hreaches.result (by rw [ht]; simpa using hflow)).trans ht
    have htarget : (runTarget (m.engine t.patience (m.perform t.patience)) call.node target).result
        (hold.adding (target :: rest)) w₁ =
          (settleOn call.node flow).result (hold.adding (target :: rest)) w := by
      rw [runTarget, result_bind_ok (result_copy _ hcopy), result_bind_ok hbody]
    rw [result_eval hcome, htarget]
  | declared hbodies hheld hevent hplanted hbefore =>
    rename_i call w₀ w₁ snapshots before after
    -- No body runs after the one that did not end normally.
    have hlast : (inTurn (t.node :: after) fun body =>
        (m.engine t.patience (m.perform t.patience)).raiseFlow "lambda" body).result t.hold t.world =
          (.ok flow, w) := by
      rw [Machine.outcome, hevent] at ht
      rw [inTurn, result_andThen_of_not_normal, ht]
      rw [ht]
      simpa using hflow
    have hrun : (inTurn (before ++ t.node :: after) fun body =>
        (m.engine t.patience (m.perform t.patience)).raiseFlow "lambda" body).result t.hold
          (w₁.basing call.base?) = (.ok flow, w) := by
      rw [inTurn_append, result_andThen_normal hbefore, hlast]
    exact ⟨t.hold, result_runDeclared_settling hbodies hplanted hrun hheld wf⟩

end Boundaries

end EventTree
