import EventTree.Context
import EventTree.Proofs.Results

/-!
# Traits

A trait is something that can be said of a family of actions: that one of them obeys a law, that two of
them come to the same, that one is another with some raises left out. What makes it a trait is that every
way of making actions keeps it, so what is said of the raises of an engine can be said of all that
handlers make of them. An error that was handed on as a value is known to what comes after it, and may be
given again there.
-/

namespace EventTree

/-! ## Runs cut short -/

/-- The first action comes to the same as the second, unless it stops early. -/
def Action.CutShort {α : Type} (early : Stop → Prop) (act act' : Action α) : Prop :=
  ∀ hold w, (∃ stop, early stop ∧ (act.result hold w).1 = .error stop) ∨
    act.result hold w = act'.result hold w

namespace Action.CutShort

variable {α β : Type} {early : Stop → Prop} {act act' : Action α}

theorem refl (act : Action α) : act.CutShort early act := fun _ _ => .inr rfl

theorem bind {next next' : α → Action β} (h : act.CutShort early act')
    (hn : ∀ a, (next a).CutShort early (next' a)) : (act >>= next).CutShort early (act' >>= next') := by
  intro hold w
  rcases h hold w with ⟨stop, hstop, hr⟩ | hr
  · exact .inl ⟨stop, hstop, by rw [result_bind_error (Prod.ext hr rfl)]⟩
  · rw [result_bind, result_bind, hr]
    rcases act'.result hold w with ⟨_ | a, w'⟩
    · exact .inr rfl
    · exact hn a hold w'

theorem attempt (h : act.CutShort (· = .stalled) act') :
    (Action.attempt act).CutShort (· = .stalled) (Action.attempt act') := by
  intro hold w
  rcases h hold w with ⟨stop, rfl, hr⟩ | hr
  · -- A stall is no error, so it is not handed on as a value.
    have hpair : act.result hold w = (.error .stalled, (act.result hold w).2) := Prod.ext hr rfl
    rw [result_attempt, hpair]
    exact .inl ⟨.stalled, rfl, rfl⟩
  · rw [result_attempt, result_attempt, hr]
    exact .inr rfl

theorem holding (nodes : List NodeId) (h : act.CutShort early act') :
    (Action.holding nodes act).CutShort early (Action.holding nodes act') :=
  fun hold w => h (hold.adding nodes) w

theorem goingBeside (n other : NodeId) (h : act.CutShort early act') :
    (Action.goingBeside n other act).CutShort early (Action.goingBeside n other act') :=
  fun hold w => h (hold.goingBeside n other) w

theorem inTurn {items : List α} {act act' : α → Action Flow}
    (h : ∀ item, (act item).CutShort early (act' item)) :
    (Action.inTurn items act).CutShort early (Action.inTurn items act') := by
  induction items with
  | nil => exact refl _
  | cons item rest ih =>
    refine bind (h item) fun flow => ?_
    split
    · exact ih
    · exact refl _

end Action.CutShort

/-! ## The ways of making actions -/

/-- Runs an action with a base at hand, and hands its error on as a value. -/
def Action.basing {α : Type} (base : Option Call) (act : Action α) : Action (Except Error α) := do
  Action.editSession fun s => { s with bases := base :: s.bases }
  let outcome ← Action.attempt act
  Action.editSession fun s => { s with bases := s.bases.tail }
  return outcome

theorem Action.CutShort.basing {α : Type} {act act' : Action α} (base : Option Call)
    (h : act.CutShort (· = .stalled) act') :
    (Action.basing base act).CutShort (· = .stalled) (Action.basing base act') :=
  bind (refl _) fun _ => bind h.attempt fun _ => refl _

/-- The errors that are known after an outcome was handed on. -/
def alsoKnown {α : Type} (known : Error → Prop) (r : Except Error α) : Error → Prop :=
  fun e => known e ∨ r = .error e

structure Trait (ι : Type) where
  holds : {α : Type} → (Error → Prop) → (ι → Action α) → Prop
  pure : ∀ {α : Type} {known : Error → Prop} (a : α), holds known fun _ => pure a
  fail : ∀ {α : Type} {known : Error → Prop} (cause : Cause),
    holds (α := α) known fun _ => Action.fail cause
  stall : ∀ {α : Type} {known : Error → Prop}, holds (α := α) known fun _ => Action.stall
  bind : ∀ {α β : Type} {known : Error → Prop} {act : ι → Action α} {next : ι → α → Action β},
    holds known act → (∀ a, holds known fun i => next i a) → holds known fun i => act i >>= next i
  attempt : ∀ {α β : Type} {known : Error → Prop} {act : ι → Action α}
    {next : ι → Except Error α → Action β}, holds known act →
    (∀ r, holds (alsoKnown known r) fun i => next i r) →
    holds known fun i => Action.attempt (act i) >>= next i
  resume : ∀ {α : Type} {known : Error → Prop} (r : Except Error α), (∀ e, r = .error e → known e) →
    holds known fun _ => Action.resume r
  holding : ∀ {α : Type} {known : Error → Prop} {act : ι → Action α} (nodes : List NodeId),
    holds known act → holds known fun i => Action.holding nodes (act i)
  goingBeside : ∀ {α : Type} {known : Error → Prop} {act : ι → Action α} (n other : NodeId),
    holds known act → holds known fun i => Action.goingBeside n other (act i)
  ask : ∀ {α : Type} {known : Error → Prop} (read : Forest → α), holds known fun _ => Action.ask read
  observe : ∀ {α : Type} {known : Error → Prop} (look : Forest → α),
    holds known fun _ => Action.observe look
  askStore : ∀ {α : Type} {known : Error → Prop} (read : EventStore → α),
    holds known fun _ => Action.askStore read
  askSession : ∀ {α : Type} {known : Error → Prop} (read : Session → α),
    holds known fun _ => Action.askSession read
  edit : ∀ {known : Error → Prop} (change : Forest → Forest), holds known fun _ => Action.edit change
  grow : ∀ {α : Type} {known : Error → Prop} (change : Forest → α × Forest),
    holds known fun _ => Action.grow change
  editEvents : ∀ {known : Error → Prop} {change : EventStore → EventStore},
    (∀ s, (change s).overrides = s.overrides) → holds known fun _ => Action.editStore change
  addOverride : ∀ {known : Error → Prop} (base super : String),
    holds known fun _ => Keyword.addOverride base super
  dropOverride : ∀ {known : Error → Prop} (base super : String),
    holds known fun _ => do
      Action.editSession fun s => { s with overrides := s.overrides.remove base super }
      Action.editStore (·.removeOverride base super)
  /-- A base is at hand only while the bodies of the event that stands in for it run. -/
  basing : ∀ {α β : Type} {known : Error → Prop} {act : ι → Action α}
    {next : ι → Except Error α → Action β} (base : Option Call), holds known act →
    (∀ r, holds (alsoKnown known r) fun i => next i r) →
    holds known fun i => Action.basing base (act i) >>= next i

namespace Trait

variable {ι α β : Type} (T : Trait ι) {known : Error → Prop}

theorem normal : T.holds known fun _ => (return Flow.normal : Action Flow) := T.pure _

theorem failIf (cause : Option Cause) : T.holds known fun _ => Action.failIf cause := by
  cases cause with
  | none => exact T.pure ()
  | some cause => exact T.fail cause

theorem ofExcept (r : Except Cause α) : T.holds known fun _ => Action.ofExcept r := by
  cases r with
  | ok a => exact T.pure a
  | error cause => exact T.fail cause

/-! ## Sequences -/

variable {T}

theorem thenNormal {act : ι → Action α} (h : T.holds known act) :
    T.holds known fun i => act i >>= fun _ => Pure.pure Flow.normal :=
  T.bind h fun _ => T.normal

theorem andThen {first second : ι → Action Flow} (h : T.holds known first) (h' : T.holds known second) :
    T.holds known fun i => Action.andThen (first i) (second i) := by
  refine T.bind h fun flow => ?_
  split
  · exact h'
  · exact T.pure flow

theorem inTurn {items : List α} {act : ι → α → Action Flow}
    (h : ∀ item ∈ items, T.holds known fun i => act i item) :
    T.holds known fun i => Action.inTurn items (act i) := by
  induction items with
  | nil => exact T.normal
  | cons item rest ih =>
    exact andThen (h item List.mem_cons_self) (ih fun j hj => h j (List.mem_cons_of_mem _ hj))

theorem forEach {items : List α} {act : ι → α → Action Unit} (h : ∀ item, T.holds known fun i => act i item) :
    T.holds known fun i => Action.forEach items (act i) := by
  induction items with
  | nil => exact T.pure ()
  | cons item rest ih => exact T.bind (h item) fun _ => ih

theorem gather {items : List α} {act : ι → α → Action β} (h : ∀ item, T.holds known fun i => act i item) :
    T.holds known fun i => Action.gather items (act i) := by
  induction items with
  | nil => exact T.pure []
  | cons item rest ih => exact T.bind (h item) fun _ => T.bind ih fun _ => T.pure _

/-! ## Forests -/

variable (T)

theorem create (name : String) : T.holds known fun _ => Action.create name := T.grow _

theorem plant (t : Tree Selector) : T.holds known fun _ => Action.plant t := T.grow _

theorem copy (n : NodeId) : T.holds known fun _ => Action.copy n := T.grow _

theorem copyValue (v : Option LiveValue) : T.holds known fun _ => Action.copyValue v := T.grow _

theorem setValue (n : NodeId) (v : LiveValue) : T.holds known fun _ => Action.setValue n v := T.edit _

theorem createWith (name : String) (value : Option LiveValue) :
    T.holds known fun _ => Action.createWith name value :=
  T.bind (T.create name) fun n => T.bind (T.edit _) fun _ => T.pure n

theorem insert (parent : NodeId) (position : Option Nat) (child : NodeId) :
    T.holds known fun _ => Action.insert parent position child :=
  T.bind (T.ask _) fun fault => T.bind (T.failIf fault) fun _ => T.edit _

theorem untie (n : NodeId) : T.holds known fun _ => Action.untie n :=
  T.bind (T.observe _) fun fault => T.bind (T.failIf fault) fun _ => T.edit _

theorem replace (n other : NodeId) : T.holds known fun _ => Action.replace n other :=
  T.bind (T.observe _) fun fault => T.bind (T.failIf fault) fun _ => T.edit _

end Trait

/-! ## Engines and machines -/

/-- Engines that have the trait in all that they raise, and answer alike to all other questions. What the
ceiling of a loop is, they may differ in. -/
structure Trait.Engines {ι : Type} (T : Trait ι) (engine : ι → Engine) : Prop where
  raiseFlow : ∀ known event n, T.holds known fun i => (engine i).raiseFlow event n
  raiseDirect : ∀ known call, T.holds known fun i => (engine i).raiseDirect call
  staticEvents : ∃ events, ∀ i, (engine i).staticEvents () = events
  patience : ∃ patience, ∀ i, (engine i).patience = patience

namespace Trait

variable {ι : Type} {T : Trait ι} {known : Error → Prop}

/-- Handlers that stand in the same places of the tables of some machines. -/
structure Handlers (T : Trait ι) (m : ι → Machine) (engine : ι → Engine) : Prop where
  listeners : ∀ i, (m i).table.listeners = []
  statics : ∃ entries : List (String × (ι → Handler)),
    (∀ i, (m i).table.statics = entries.map fun entry => (entry.1, entry.2 i)) ∧
      ∀ entry ∈ entries, ∀ known call, T.holds known fun i => entry.2 i (engine i) call

theorem Handlers.invoke {m : ι → Machine} {engine : ι → Engine} (h : T.Handlers m engine) (call : Call) :
    T.holds known fun i => (m i).invoke (engine i) call := by
  obtain ⟨hlisteners, entries, hstatics, hentries⟩ := h
  refine T.holding _ (inTurn fun key _ => andThen ?_ ?_)
  · have hmap : ∀ i, Action.inTurn ((m i).table.handlersOf key) (fun handler => handler (engine i) call) =
        Action.inTurn (entries.filter fun entry => entry.1 == key) fun entry =>
          entry.2 i (engine i) call := by
      intro i
      unfold Table.handlersOf
      rw [hstatics, List.filter_map, Action.inTurn_map, Action.inTurn_map]
      rfl
    simp only [hmap]
    exact inTurn fun entry hentry => hentries entry (List.mem_filter.mp hentry).1 known call
  · refine T.bind (T.askSession _) fun bindings => inTurn fun b _ => ?_
    have hnone : ∀ i, (m i).table.listenerHandler? b.entry = none := by
      intro i
      unfold Table.listenerHandler?
      rw [hlisteners]
      rfl
    simp only [hnone]
    exact T.normal

end Trait

end EventTree
