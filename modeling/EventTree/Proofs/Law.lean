import EventTree.Context
import EventTree.Proofs.Results

/-!
# Laws

A law says which worlds an action may leave, given the world that it began in. It leaves the forest
alone: whatever becomes of the nodes is allowed. An action obeys a law if it keeps to it whenever it
ends, with a result or with an error; a run that was given up for want of patience has not ended.

There is one rule for each way of making actions, so what programs do to the session and to the store
is shown by going through the definitions once, for all laws.
-/

namespace EventTree

variable {α β : Type}

namespace World

/-- The world while a declared event runs that stands in for `base`. -/
def basing (w : World) (base : Option Call) : World :=
  { w with session := { w.session with bases := base :: w.session.bases } }

/-- The world once the innermost declared event has ended. -/
def unbased (w : World) : World :=
  { w with session := { w.session with bases := w.session.bases.tail } }

/-- The world with an override taken out of the session and of the store. -/
def dropping (w : World) (base super : String) : World :=
  { w with
    session := { w.session with overrides := w.session.overrides.remove base super }
    store := w.store.removeOverride base super }

end World

theorem result_addOverride (base super : String) (hold : Hold) (w : World) :
    (Keyword.addOverride base super).result hold w =
      match w.store.overrideFault? base super with
      | some cause =>
        (.error (.error (.ofCause cause)), { w with store := w.store.addOverride base super })
      | none =>
        if w.session.overrides.closesCycle base super then
          (.error (.error (.ofCause (.overrideCycle base super))),
            { w with store := (w.store.addOverride base super).removeOverride base super })
        else
          (.ok (), { w with
            store := w.store.addOverride base super
            session := { w.session with overrides := w.session.overrides.push base super } }) := by
  unfold Keyword.addOverride
  rw [Action.result_bind_ok (Action.result_askStore _), Action.result_bind_ok (Action.result_editStore _)]
  cases w.store.overrideFault? base super with
  | some cause => rfl
  | none =>
    rw [Action.result_bind_ok Action.result_failIf_none, Action.result_bind_ok (Action.result_askSession _)]
    dsimp only
    split <;> rfl

/-- A result whose world is allowed, unless the run was given up. -/
def Allowed (allows : World → Prop) : Except Stop α × World → Prop
  | (.ok _, w) => allows w
  | (.error (.error _), w) => allows w
  | (.error .stalled, _) => True

structure Action.Obeys (act : Action α) (allows : World → World → Prop) : Prop where
  allowed : ∀ hold w, Allowed (allows w) (act.result hold w)

/-- Which worlds may come after a world, at once or after others. -/
structure Rule where
  allows : World → World → Prop
  refl : ∀ w, allows w w
  trans : ∀ {w w' w'' : World}, allows w w' → allows w' w'' → allows w w''

structure Law extends Rule where
  forest : ∀ (w : World) (f : Forest), allows w (w.on f)
  /-- Declared events and the journal are left alone too. -/
  store : ∀ (w : World) (s : EventStore), s.overrides = w.store.overrides →
    allows w { w with store := s }
  raising : ∀ {w w' : World}, allows w.deeper w' → allows w w'.shallower
  basing : ∀ {w w' : World} (base : Option Call), allows (w.basing base) w' → allows w w'.unbased
  adding : ∀ base super, (Keyword.addOverride base super).Obeys allows
  dropping : ∀ (w : World) (base super : String), allows w (w.dropping base super)

theorem Allowed.mono {allows allows' : World → Prop} {r : Except Stop α × World}
    (h : Allowed allows r) (hmono : ∀ w, allows w → allows' w) : Allowed allows' r := by
  match r, h with
  | (.ok _, w), h => exact hmono w h
  | (.error (.error _), w), h => exact hmono w h
  | (.error .stalled, _), _ => trivial

theorem Allowed.of_forall {allows : World → Prop} {r : Except Stop α × World} (h : ∀ w, allows w) :
    Allowed allows r := by
  match r with
  | (.ok _, w) => exact h w
  | (.error (.error _), w) => exact h w
  | (.error .stalled, _) => trivial

namespace Action.Obeys

variable {R : Rule}

/-! ## Sequences of actions -/

section Sequence

variable {act : Action α}

theorem pure (a : α) : (pure a : Action α).Obeys R.allows := ⟨fun _ w => R.refl w⟩

theorem fail (cause : Cause) : (fail cause : Action α).Obeys R.allows := ⟨fun _ w => R.refl w⟩

theorem stall : (stall : Action α).Obeys R.allows := ⟨fun _ _ => trivial⟩

theorem bind {next : α → Action β} (h : act.Obeys R.allows) (hn : ∀ a, (next a).Obeys R.allows) :
    (act >>= next).Obeys R.allows := by
  refine ⟨fun hold w => ?_⟩
  have hr := h.allowed hold w
  rw [result_bind]
  revert hr
  match act.result hold w with
  | (.ok a, w') => exact fun hr => ((hn a).allowed hold w').mono fun _ => R.trans hr
  | (.error (.error _), _) => exact id
  | (.error .stalled, _) => exact id

theorem ofExcept (r : Except Cause α) : (ofExcept r).Obeys R.allows := by
  cases r with
  | ok a => exact pure a
  | error cause => exact fail cause

theorem attempt (h : act.Obeys R.allows) : (attempt act).Obeys R.allows := by
  refine ⟨fun hold w => ?_⟩
  have hr := h.allowed hold w
  rw [result_attempt]
  revert hr
  match act.result hold w with
  | (.ok _, _) => exact id
  | (.error (.error _), _) => exact id
  | (.error .stalled, _) => exact id

theorem resume (r : Except Error α) : (resume r).Obeys R.allows := by
  cases r with
  | ok a => exact pure a
  | error e => exact ⟨fun _ w => R.refl w⟩

theorem holding (nodes : List NodeId) (h : act.Obeys R.allows) :
    (holding nodes act).Obeys R.allows := ⟨fun hold w => h.allowed (hold.adding nodes) w⟩

theorem goingBeside (n other : NodeId) (h : act.Obeys R.allows) :
    (goingBeside n other act).Obeys R.allows :=
  ⟨fun hold w => h.allowed (hold.goingBeside n other) w⟩

end Sequence

theorem normal : (Pure.pure .normal : Action Flow).Obeys R.allows := pure _

theorem thenNormal {act : Action α} (h : act.Obeys R.allows) :
    (act >>= fun _ => Pure.pure Flow.normal).Obeys R.allows := h.bind fun _ => normal

theorem andThen {first second : Action Flow} (h : first.Obeys R.allows)
    (h' : second.Obeys R.allows) : (andThen first second).Obeys R.allows := by
  refine h.bind fun flow => ?_
  split
  · exact h'
  · exact pure flow

theorem inTurn {items : List α} {act : α → Action Flow}
    (h : ∀ item ∈ items, (act item).Obeys R.allows) : (inTurn items act).Obeys R.allows := by
  induction items with
  | nil => exact pure _
  | cons item rest ih =>
    exact (h item List.mem_cons_self).andThen (ih fun i hi => h i (List.mem_cons_of_mem _ hi))

theorem forEach {items : List α} {act : α → Action Unit}
    (h : ∀ item, (act item).Obeys R.allows) : (forEach items act).Obeys R.allows := by
  induction items with
  | nil => exact pure _
  | cons item rest ih => exact (h item).bind fun _ => ih

/-! ## Worlds -/

theorem ask (read : Forest → α) : (ask read).Obeys R.allows := ⟨fun _ w => R.refl w⟩

theorem observe (look : Forest → α) : (observe look).Obeys R.allows := ⟨fun _ w => R.refl w⟩

theorem askStore (read : EventStore → α) : (askStore read).Obeys R.allows := ⟨fun _ w => R.refl w⟩

theorem askSession (read : Session → α) : (askSession read).Obeys R.allows := ⟨fun _ w => R.refl w⟩

variable {L : Law}

theorem edit (change : Forest → Forest) : (edit change).Obeys L.allows :=
  ⟨fun _ w => L.forest w (change w.forest)⟩

theorem grow (change : Forest → α × Forest) : (grow change).Obeys L.allows :=
  ⟨fun _ w => L.forest w (change w.forest).2⟩

theorem editEvents {change : EventStore → EventStore}
    (h : ∀ s, (change s).overrides = s.overrides) : (editStore change).Obeys L.allows :=
  ⟨fun _ w => L.store w (change w.store) (h w.store)⟩

end Action.Obeys

/-! ## Handlers -/

/-- All that an engine raises obeys the law. -/
structure Engine.Obeying (engine : Engine) (L : Law) : Prop where
  raiseFlow : ∀ event n, (engine.raiseFlow event n).Obeys L.allows
  raiseDirect : ∀ call, (engine.raiseDirect call).Obeys L.allows

/-- A handler obeys the law if all that it raises does. -/
def Handler.Obeying (handler : Handler) (L : Law) : Prop :=
  ∀ engine : Engine, engine.Obeying L → ∀ call, (handler engine call).Obeys L.allows

structure Machine.Obeying (m : Machine) (L : Law) : Prop where
  statics : ∀ entry ∈ m.table.statics, Handler.Obeying entry.2 L
  listeners : ∀ entry ∈ m.table.listeners, ∀ level, Handler.Obeying (entry.handler level) L

/-! ## Raising events -/

namespace Action.Obeys

variable {L : Law}

theorem entering {limit : Nat} {event : String} {act : Action Flow} (h : act.Obeys L.allows) :
    (entering limit event act).Obeys L.allows := by
  refine ⟨fun hold w => ?_⟩
  by_cases hlimit : limit ≤ w.session.depth
  · rw [result_entering_of_le hlimit]
    exact L.refl w
  · rw [result_entering_of_lt (Nat.lt_of_not_le hlimit)]
    have hr := h.allowed hold w.deeper
    revert hr
    match act.result hold w.deeper with
    | (.ok _, _) => exact L.raising
    | (.error (.error _), _) => exact L.raising
    | (.error .stalled, _) => exact id

section Handlers

variable {m : Machine} (hm : m.Obeying L) {engine : Engine} (he : engine.Obeying L) (call : Call)
  (key : String)

include hm he

theorem handlersOf : ∀ handler ∈ m.table.handlersOf key, (handler engine call).Obeys L.allows := by
  intro handler hh
  obtain ⟨entry, hentry, rfl⟩ := List.mem_map.mp hh
  exact hm.statics entry (List.mem_filter.mp hentry).1 engine he call

theorem runBinding (b : Binding) :
    ((match m.table.listenerHandler? b.entry with
      | none => return .normal
      | some handler => handler b.level engine call) : Action Flow).Obeys L.allows := by
  cases hb : m.table.listenerHandler? b.entry with
  | none => exact pure _
  | some handler =>
    obtain ⟨entry, hentry, rfl⟩ := Option.map_eq_some_iff.mp hb
    exact hm.listeners entry (List.mem_of_find?_eq_some hentry) b.level engine he call

theorem runBindings : (m.runBindings engine call key).Obeys L.allows :=
  (askSession _).bind fun _ => inTurn fun b _ => runBinding hm he call b

theorem runKey :
    (Action.andThen (Action.inTurn (m.table.handlersOf key) fun handler => handler engine call)
      (m.runBindings engine call key)).Obeys L.allows :=
  andThen (inTurn (handlersOf hm he call key)) (runBindings hm he call key)

theorem invoke : (m.invoke engine call).Obeys L.allows :=
  holding _ (inTurn fun key _ => runKey hm he call key)

end Handlers

end Action.Obeys

namespace Machine

variable {m : Machine} {L : Law}

/-- What a machine does once an event is counted. -/
def inside (m : Machine) (patience : Nat) (route : Route) (call : Call) : Action Flow := do
  match route, ← Action.askSession (·.overrides.supers? call.event) with
  | .resolved, some supers =>
    Action.inTurn supers fun super => m.perform patience .resolved (call.sentOn super)
  | _, _ => m.invoke (m.engine patience (m.perform patience)) call

theorem perform_succ (patience : Nat) (route : Route) (call : Call) :
    m.perform (patience + 1) route call =
      Action.entering m.settings.maxDepth call.event (m.inside patience route call) := rfl

theorem engine_obeying {patience : Nat} {perform : Route → Call → Action Flow}
    (h : ∀ route call, (perform route call).Obeys L.allows) : (m.engine patience perform).Obeying L :=
  ⟨fun event n => h .resolved (.plain event n), fun call => h .direct call⟩

theorem inside_obeys (hm : m.Obeying L) {patience : Nat}
    (h : ∀ route call, (m.perform patience route call).Obeys L.allows) (route : Route) (call : Call) :
    (m.inside patience route call).Obeys L.allows := by
  refine (Action.Obeys.askSession _).bind fun supers => ?_
  split
  · exact Action.Obeys.inTurn fun super _ => h .resolved (call.sentOn super)
  · exact Action.Obeys.invoke hm (engine_obeying h) call

theorem perform_obeys (hm : m.Obeying L) (patience : Nat) (route : Route) (call : Call) :
    (m.perform patience route call).Obeys L.allows := by
  induction patience generalizing route call with
  | zero => exact Action.Obeys.stall
  | succ patience ih =>
    rw [perform_succ]
    exact Action.Obeys.entering (inside_obeys hm ih route call)

theorem Obeying.engine (hm : m.Obeying L) (patience : Nat) :
    (m.engine patience (m.perform patience)).Obeying L := engine_obeying (perform_obeys hm patience)

end Machine

end EventTree
