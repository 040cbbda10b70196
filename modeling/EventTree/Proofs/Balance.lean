import EventTree.Proofs.Law.Keywords
import EventTree.Proofs.Trap.Blocks

/-!
# Balanced sessions

Whatever is asked of a core session, when it is done the session counts as many events as before and
has the same bases, and all links of the forest agree. While it is being done, handlers run only where
at least one event is counted and no more than the limit.
-/

namespace EventTree

/-! ## The law of balance -/

/-- The count of events and the bases are as they were. -/
structure Session.Balanced (s s' : Session) : Prop where
  depth : s'.depth = s.depth
  bases : s'.bases = s.bases

def balance : Law where
  allows w w' := w.session.Balanced w'.session
  refl _ := ⟨rfl, rfl⟩
  trans h h' := ⟨h'.depth.trans h.depth, h'.bases.trans h.bases⟩
  forest _ _ := ⟨rfl, rfl⟩
  store _ _ _ := ⟨rfl, rfl⟩
  raising h := ⟨by simp [World.shallower, h.depth, World.deeper], h.bases⟩
  basing base h := ⟨h.depth, by simp [World.unbased, h.bases, World.basing]⟩
  adding base super := by
    refine ⟨fun hold w => ?_⟩
    rw [result_addOverride]
    split
    · exact ⟨rfl, rfl⟩
    · split
      · exact ⟨rfl, rfl⟩
      · exact ⟨rfl, rfl⟩
  dropping _ _ _ := ⟨rfl, rfl⟩

theorem takeOverrides_balanced : Handler.Obeying Keyword.takeOverrides balance := by
  intro engine _ call
  have hnote : (Action.editStore (·.noting .overrides)).Obeys balance.allows :=
    Action.Obeys.editEvents fun _ => rfl
  refine hnote.bind fun _ => (Action.Obeys.askStore _).bind fun overrides => ?_
  refine Action.Obeys.thenNormal (Action.Obeys.forEach fun pair => ?_)
  refine (Action.Obeys.askSession _).bind fun closes => ?_
  split
  · exact Action.Obeys.pure ()
  · exact ⟨fun _ _ => ⟨rfl, rfl⟩⟩

theorem Machine.IsCore.balanced {m : Machine} (hm : m.IsCore) : m.Obeying balance := by
  constructor
  · intro entry he
    rw [hm.table_eq] at he
    rcases coreTable_obeying entry he with h | rfl
    · exact h
    · exact takeOverrides_balanced
  · intro entry he
    rw [hm.table_eq] at he
    cases he

theorem Action.Obeys.balanced {α : Type} {act : Action α} (h : act.Obeys balance.allows)
    {hold : Hold} {w w' : World} {outcome : Except Stop α} (hr : act.result hold w = (outcome, w'))
    (hend : outcome ≠ .error .stalled) : w.session.Balanced w'.session := by
  have hallowed := h.allowed hold w
  rw [hr] at hallowed
  match outcome, hend, hallowed with
  | .ok _, _, hallowed => exact hallowed
  | .error (.error _), _, hallowed => exact hallowed
  | .error .stalled, hend, _ => exact absurd rfl hend

/-! ## Handlers that look at the count -/

/-- A handler that does something else where no event is counted, or more than the limit. -/
def Handler.guarded (limit : Nat) (instead handler : Handler) : Handler := fun engine call => do
  let depth ← Action.askSession (·.depth)
  if 1 ≤ depth ∧ depth ≤ limit then handler engine call else instead engine call

/-- The table with every handler changed. -/
def Table.mapHandlers (t : Table) (change : Handler → Handler) : Table where
  statics := t.statics.map fun entry => (entry.1, change entry.2)
  overrides := t.overrides
  listeners := t.listeners.map fun entry =>
    { entry with handler := fun level => change (entry.handler level) }

/-- The machine with every handler guarded. -/
def Machine.guarded (m : Machine) (instead : Handler) : Machine :=
  ⟨m.settings, m.table.mapHandlers (Handler.guarded m.settings.maxDepth instead)⟩

/-- The count of events is one that handlers may run at. -/
def World.Counted (w : World) (limit : Nat) : Prop :=
  1 ≤ w.session.depth ∧ w.session.depth ≤ limit

namespace Machine

open EventTree.Action

variable {m : Machine} {instead : Handler}

theorem result_guarded {limit : Nat} {handler : Handler} {engine : Engine} {call : Call} {hold : Hold}
    {w : World} (hw : w.Counted limit) :
    (Handler.guarded limit instead handler engine call).result hold w =
      (handler engine call).result hold w := by
  unfold Handler.guarded
  rw [result_bind_ok (result_askSession _)]
  exact congrArg (fun act => Action.result act hold w) (if_pos hw)

theorem events_guarded (m : Machine) (instead : Handler) :
    (m.guarded instead).table.events = m.table.events := by
  simp [Table.events, guarded, Table.mapHandlers, Function.comp_def]

theorem handlersOf_guarded (m : Machine) (instead : Handler) (key : String) :
    (m.guarded instead).table.handlersOf key =
      (m.table.handlersOf key).map (Handler.guarded m.settings.maxDepth instead) := by
  simp [Table.handlersOf, guarded, Table.mapHandlers, List.filter_map, Function.comp_def]

theorem listenerHandler?_guarded (m : Machine) (instead : Handler) (id : Nat) :
    (m.guarded instead).table.listenerHandler? id =
      (m.table.listenerHandler? id).map fun handler level =>
        Handler.guarded m.settings.maxDepth instead (handler level) := by
  simp [Table.listenerHandler?, guarded, Table.mapHandlers, List.find?_map, Function.comp_def]

theorem counted_of_normal {act : Action Flow} (h : act.Obeys balance.allows) {hold : Hold}
    {w w' : World} {limit : Nat} (hw : w.Counted limit)
    (hr : act.result hold w = (.ok .normal, w')) : w'.Counted limit := by
  unfold World.Counted
  rw [(h.balanced hr (by simp)).depth]
  exact hw

section Invoke

variable (hm : m.Obeying balance) {engine : Engine} (he : engine.Obeying balance) (call : Call)
  {hold : Hold} {w : World} (hw : w.Counted m.settings.maxDepth)

include hm he hw

theorem result_runBindings_guarded (key : String) :
    ((m.guarded instead).runBindings engine call key).result hold w =
      (m.runBindings engine call key).result hold w := by
  unfold runBindings
  rw [result_bind_ok (result_askSession _), result_bind_ok (result_askSession _)]
  refine result_inTurn_congr (·.Counted m.settings.maxDepth) (fun b _ w hw => ?_)
    (fun b _ w w' hw hr => counted_of_normal (Obeys.runBinding hm he call b) hw hr) hw
  rw [listenerHandler?_guarded]
  cases m.table.listenerHandler? b.entry with
  | none => rfl
  | some handler => exact result_guarded hw

theorem result_invoke_guarded :
    ((m.guarded instead).invoke engine call).result hold w = (m.invoke engine call).result hold w := by
  unfold invoke
  rw [result_holding, result_holding]
  refine result_inTurn_congr (·.Counted m.settings.maxDepth) (fun key _ w hw => ?_)
    (fun key _ w w' hw hr => counted_of_normal (Obeys.runKey hm he call key) hw hr) hw
  rw [handlersOf_guarded, inTurn_map]
  refine result_andThen_congr ?_ fun w' hr => result_runBindings_guarded hm he call ?_ key
  · exact result_inTurn_congr (·.Counted m.settings.maxDepth) (fun handler _ w hw => result_guarded hw)
      (fun handler hh w w' hw hr => counted_of_normal (Obeys.handlersOf hm he call key handler hh) hw hr) hw
  · exact counted_of_normal (Obeys.inTurn (Obeys.handlersOf hm he call key)) hw hr

end Invoke

/-- Handlers run only where the count is in bounds, so guarding them changes nothing. -/
theorem perform_guarded (hm : m.Obeying balance) (instead : Handler) (patience : Nat) :
    (m.guarded instead).perform patience = m.perform patience := by
  induction patience with
  | zero => rfl
  | succ patience ih =>
    have hengine : (m.guarded instead).engine patience ((m.guarded instead).perform patience) =
        m.engine patience (m.perform patience) := by
      rw [ih]
      simp only [engine, events_guarded]
      rfl
    funext route call
    refine ext_result fun hold w => ?_
    rw [perform_succ, perform_succ]
    by_cases hlimit : m.settings.maxDepth ≤ w.session.depth
    · rw [result_entering_of_le hlimit]
      exact result_entering_of_le hlimit
    · have hlt := Nat.lt_of_not_le hlimit
      have hinside : ((m.guarded instead).inside patience route call).result hold w.deeper =
          (m.inside patience route call).result hold w.deeper := by
        -- Inside, the event itself is counted, and there was room for it.
        have hcounted : w.deeper.Counted m.settings.maxDepth := ⟨Nat.le_add_left 1 _, hlt⟩
        unfold inside
        rw [result_bind_ok (result_askSession _), result_bind_ok (result_askSession _), hengine, ih]
        split
        · rfl
        · exact result_invoke_guarded hm (hm.engine patience) call hcounted
      rw [result_entering_of_lt hlt, ← hinside]
      exact result_entering_of_lt hlt

theorem engine_guarded (hm : m.Obeying balance) (instead : Handler) (patience : Nat) :
    (m.guarded instead).engine patience ((m.guarded instead).perform patience) =
      m.engine patience (m.perform patience) := by
  rw [perform_guarded hm]
  simp only [engine, events_guarded]
  rfl

end Machine

/-! ## Requests -/

/-- What can be asked of a session from outside its handlers. -/
inductive Request where
  | raise (event : String) (node : NodeId)
  | raiseFlow (event : String) (node : NodeId)
  | raiseDirect (call : Call)
  | callBase (call : Call)
  | execute (scope : NodeId) (position : Nat)
  | evaluateCondition (node : NodeId)

namespace Request

/-- What is given back. -/
abbrev Answer : Request → Type
  | raise _ _ => Unit
  | evaluateCondition _ => Keyword.Condition
  | _ => Flow

def action (engine : Engine) : (r : Request) → Action r.Answer
  | raise event n => engine.raise event n
  | raiseFlow event n => engine.raiseFlow event n
  | raiseDirect call => engine.raiseDirect call
  | callBase call => engine.callBase call
  | execute scope position => Keyword.execute engine scope position
  | evaluateCondition n => Keyword.evaluateCondition engine n

/-- The node that a request is about. -/
def node : Request → NodeId
  | raise _ n => n
  | raiseFlow _ n => n
  | raiseDirect call => call.node
  | callBase call => call.node
  | execute scope _ => scope
  | evaluateCondition n => n

theorem holds {ι : Type} {T : Trait ι} {known : Error → Prop} {engine : ι → Engine}
    (he : T.Engines engine) (r : Request) : T.holds known fun i => r.action (engine i) := by
  cases r with
  | raise event n => exact Trait.raise he event n
  | raiseFlow event n => exact he.raiseFlow known event n
  | raiseDirect call => exact he.raiseDirect known call
  | callBase call => exact Trait.callBase he call
  | execute scope position => exact Trait.execute he scope position
  | evaluateCondition n => exact Trait.evaluateCondition he n

variable {engine : Engine}

theorem obeys {L : Law} (he : engine.Obeying L) (r : Request) : (r.action engine).Obeys L.allows :=
  have hholds : L.trait.holds (fun _ => False) fun _ => r.action engine := r.holds he.engines
  hholds

theorem keeps {P : Plot} {held : List NodeId} {bound : Nat} (he : engine.Keeping) (r : Request)
    (hn : P.Mine bound r.node) : P.Keeps held bound (r.action engine) fun _ _ => True := by
  cases r with
  | raise event n => exact Plot.Keeps.raise he event hn
  | raiseFlow event n => exact (he.raiseFlow P held bound event n hn).mono fun _ _ _ _ => trivial
  | raiseDirect call => exact (he.raiseDirect P held bound call hn).mono fun _ _ _ _ => trivial
  | callBase call =>
    obtain ⟨event, n, bases⟩ := call
    cases bases with
    | nil => exact Plot.Keeps.done _
    | cons base rest =>
      exact (he.raiseDirect P held bound ⟨base, n, rest⟩ hn).mono fun _ _ _ _ => trivial
  | execute scope position => exact (Plot.Keeps.execute he position hn).mono fun _ _ _ _ => trivial
  | evaluateCondition n => exact Plot.Keeps.evaluateCondition he hn

end Request

theorem Request.result_wellFormed {engine : Engine} (he : engine.Keeping) (r : Request) {hold : Hold}
    {w w' : World} {outcome : Except Stop r.Answer} (hw : w.Sound) (hb : w.session.bindings = [])
    (hn : w.forest.Has r.node) (hr : (r.action engine).result hold w = (outcome, w'))
    (hend : outcome ≠ .error .stalled) : w'.forest.WellFormed := by
  let P := Plot.whole hw.wellFormed
  have hready : P.Ready w := ⟨P.tended_start, hb, fun call hc => ⟨trivial, hw.base call hc⟩⟩
  have hmine : P.Mine w.forest.size r.node := ⟨trivial, hn⟩
  have hfine := (r.keeps he hmine).fine hold w (List.nil_subset _) hready (Nat.le_refl _)
  rw [hr] at hfine
  match outcome, hend, hfine with
  | .ok _, _, hfine => exact hfine.1.tended.wellFormed
  | .error (.error _), _, hfine => exact hfine.tended.wellFormed
  | .error .stalled, hend, _ => exact absurd rfl hend

/-- Whatever is asked of a core session and whatever comes of it, the session is balanced and the forest
well formed afterwards. No handler is run where the count of events is out of bounds: it does not matter
what handlers would do there. And when the count goes down at the end of an event, that event is still
counted. -/
theorem core_session_balanced (m : Machine) (hm : m.IsCore) (patience : Nat) (r : Request) (hold : Hold)
    (w : World) (hw : w.Sound) (hb : w.session.bindings = []) (hn : w.forest.Has r.node) :
    (∀ outcome w', (r.action (m.engine patience (m.perform patience))).result hold w = (outcome, w') →
      outcome ≠ .error .stalled → w.session.Balanced w'.session ∧ w'.forest.WellFormed) ∧
    (∀ instead : Handler,
      (r.action ((m.guarded instead).engine patience ((m.guarded instead).perform patience))).result
          hold w =
        (r.action (m.engine patience (m.perform patience))).result hold w) ∧
    (∀ patience route call hold (w : World) outcome w',
      (m.inside patience route call).result hold w.deeper = (outcome, w') → outcome ≠ .error .stalled →
        w'.session.depth = w.session.depth + 1) := by
  refine ⟨fun outcome w' hr hend => ?_, fun instead => ?_,
    fun p route call hold v outcome v' hr hend => ?_⟩
  · have hobeys := r.obeys (hm.balanced.engine patience)
    exact ⟨hobeys.balanced hr hend,
      r.result_wellFormed (hm.keeping patience) hw hb hn hr hend⟩
  · rw [Machine.engine_guarded hm.balanced]
  · have hobeys := Machine.inside_obeys hm.balanced (Machine.perform_obeys hm.balanced p) route call
    exact (hobeys.balanced hr hend).depth

/-- A world with a `hello` that is sent to a declared event, whose body fails while three other events are
being raised. -/
def rebuffed : World where
  forest := (Forest.plant ⟨"hello", none, []⟩ .empty).2
  store := (default : EventStore).declare "greet"
    [⟨"lambda", none, [⟨"throw", some (.string "no"), []⟩]⟩]
  session := ⟨⟨[("hello", ["greet"])]⟩, [], [], 3, [none]⟩

theorem core_session_balanced_of_rebuffed :
    let m : Machine := ⟨.default, coreTable⟩
    let result := ((Request.raise "hello" ⟨0⟩).action (m.engine 8 (m.perform 8))).result ⟨[], []⟩ rebuffed
    result.1 = .error (.error ⟨.thrown "no", ["throw", "lambda", "greet", "hello"]⟩) ∧
      rebuffed.session.Balanced result.2.session ∧ result.2.forest.WellFormed := by
  intro m result
  have herror : result.1 = .error (.error ⟨.thrown "no", ["throw", "lambda", "greet", "hello"]⟩) := by
    decide +kernel
  have wf : rebuffed.forest.WellFormed := (Forest.planted _ .empty Forest.wellFormed_empty).wellFormed
  have hsound : rebuffed.Sound := ⟨wf, fun call hc => by cases hc⟩
  have hbalanced := core_session_balanced m (Machine.isCore_coreTable _) 8 (.raise "hello" ⟨0⟩) ⟨[], []⟩
    rebuffed hsound rfl (by decide)
  exact ⟨herror, hbalanced.1 result.1 result.2 (Prod.eta _).symm (by rw [herror]; simp)⟩

end EventTree
