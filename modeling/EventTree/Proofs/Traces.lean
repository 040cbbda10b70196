import EventTree.Proofs.Balance

/-!
# Traces

An error is raised within some event and leaves the events around it, one after the other, until something
traps it. Its trace lists just the events that it left, innermost first. Which raises an event makes while
it runs is told by interrupting it: a raise is made if the run comes to an end there when it is stopped at
that raise.
-/

namespace EventTree

/-! ## Raises and the events that an error leaves -/

/-- A raise of an event: what is raised, under which hold and in which world. -/
structure Raise where
  route : Route
  call : Call
  hold : Hold
  world : World

namespace Raise

open Classical in
/-- Raises events as they are raised otherwise, but gives the run up at one raise. -/
noncomputable def stopping (q : Raise) (raise : Route → Call → Action Flow) :
    Route → Call → Action Flow := fun route call hold => ExceptT.mk fun w =>
  if (⟨route, call, hold, w⟩ : Raise) = q then (.error .stalled, w)
  else (raise route call).result hold w

theorem result_stopping_self (q : Raise) (raise : Route → Call → Action Flow) :
    (q.stopping raise q.route q.call).result q.hold q.world = (.error .stalled, q.world) :=
  if_pos rfl

theorem stopping_cutShort (q : Raise) (raise : Route → Call → Action Flow) (route : Route) (call : Call) :
    (q.stopping raise route call).CutShort (· = .stalled) (raise route call) := by
  intro hold w
  by_cases hq : (⟨route, call, hold, w⟩ : Raise) = q
  · refine .inl ⟨.stalled, rfl, ?_⟩
    rw [← hq, result_stopping_self]
  · exact .inr (if_neg hq)

end Raise

namespace Machine

/-- What a machine does once an event is counted, given what raises events for it. -/
def insideBy (m : Machine) (patience : Nat) (raise : Route → Call → Action Flow) (route : Route)
    (call : Call) : Action Flow := do
  match route, ← Action.askSession (·.overrides.supers? call.event) with
  | .resolved, some supers => Action.inTurn supers fun super => raise .resolved (call.sentOn super)
  | _, _ => m.invoke (m.engine patience raise) call

/-- What comes of a raise. -/
def raised (m : Machine) (patience : Nat) (q : Raise) : Except Stop Flow × World :=
  (m.perform patience q.route q.call).result q.hold q.world

/-- What comes of the event itself, once it is counted. -/
def within (m : Machine) (patience : Nat) (q : Raise) : Except Stop Flow × World :=
  (m.inside patience q.route q.call).result q.hold q.world.deeper

/-- The first raise makes the second one, itself and not through other events. -/
def Makes (m : Machine) (patience : Nat) (q inner : Raise) : Prop :=
  ((m.insideBy patience (inner.stopping (m.perform patience)) q.route q.call).result q.hold
    q.world.deeper).1 = .error .stalled

/-- An error leaves a raise, and these are the raises that it leaves on its way, innermost first. It comes
up within the innermost one, where no event has noted it yet; and each of the others ends with the error
that left a raise which it made itself. -/
inductive Leaves (m : Machine) : Nat → Raise → Error → List Raise → Prop
  | innermost {patience : Nat} {q : Raise} {e : Error} {w' : World} :
      q.world.session.depth < m.settings.maxDepth →
      m.within patience q = (.error (.error e), w') → e.trace = [] →
      Leaves m (patience + 1) q (e.crossing q.call.event) [q]
  | around {patience : Nat} {q inner : Raise} {e : Error} {w' : World} {frames : List Raise} :
      q.world.session.depth < m.settings.maxDepth →
      m.within patience q = (.error (.error e), w') → m.Makes patience q inner →
      inner.world.session.depth = q.world.session.depth + 1 → Leaves m patience inner e frames →
      Leaves m (patience + 1) q (e.crossing q.call.event) (frames ++ [q])

namespace Leaves

variable {m : Machine} {patience : Nat} {q : Raise} {e : Error} {frames : List Raise}

theorem trace (h : m.Leaves patience q e frames) : e.trace = frames.map (·.call.event) := by
  induction h with
  | innermost _ _ htrace => simp [Error.crossing, htrace]
  | around _ _ _ _ _ ih => simp [Error.crossing, ih]

theorem getLast? (h : m.Leaves patience q e frames) : frames.getLast? = some q := by
  cases h with
  | innermost => rfl
  | around => simp

theorem depth_lt (h : m.Leaves patience q e frames) : q.world.session.depth < m.settings.maxDepth := by
  cases h with
  | innermost hdepth => exact hdepth
  | around hdepth => exact hdepth

theorem length_le (h : m.Leaves patience q e frames) :
    frames.length ≤ m.settings.maxDepth - q.world.session.depth := by
  induction h with
  | innermost hdepth => simp; omega
  | around hdepth _ _ hinner _ ih =>
    rw [List.length_append, List.length_singleton]
    omega

end Leaves

end Machine

/-! ## Where errors come from -/

/-- The raises of a machine, with one of them stopped at or with none. -/
noncomputable def Machine.raising (m : Machine) (patience : Nat) :
    Option Raise → Route → Call → Action Flow
  | none => m.perform patience
  | some q => q.stopping (m.perform patience)

/-- An error came back from a raise that was made on the way, and the run stops there when it is stopped at
that raise. -/
def FromRaise (m : Machine) (patience : Nat) {α : Type} (act : Option Raise → Action α) (hold : Hold)
    (w : World) (e : Error) : Prop :=
  ∃ q w', m.raised patience q = (.error (.error e), w') ∧ q.world.session.depth = w.session.depth ∧
    ((act (some q)).result hold w).1 = .error .stalled

/-- Stopping at a raise changes nothing but that the run may end there, and every error is a new one, a
known one, or one that came back from a raise. -/
structure Traced (m : Machine) (patience : Nat) {α : Type} (known : Error → Prop)
    (act : Option Raise → Action α) : Prop where
  cutShort : ∀ q, (act (some q)).CutShort (· = .stalled) (act none)
  balanced : (act none).Obeys balance.allows
  origin : ∀ {hold w e w'}, (act none).result hold w = (.error (.error e), w') →
    e.trace = [] ∨ known e ∨ FromRaise m patience act hold w e

namespace Traced

open EventTree.Action

variable {m : Machine} {patience : Nat} {α β : Type} {known : Error → Prop}

theorem const {act : Action α} (hbalanced : act.Obeys balance.allows)
    (hnew : ∀ {hold w e w'}, act.result hold w = (.error (.error e), w') → e.trace = []) :
    Traced m patience known fun _ => act :=
  ⟨fun _ => .refl act, hbalanced, fun hr => .inl (hnew hr)⟩

theorem calm {act : Action α} (hbalanced : act.Obeys balance.allows)
    (hok : ∀ hold w, ∃ a w', act.result hold w = (.ok a, w')) : Traced m patience known fun _ => act := by
  refine const hbalanced fun {hold w e w'} hr => ?_
  obtain ⟨a, w'', hok⟩ := hok hold w
  rw [hok] at hr
  cases hr

section Bind

variable {act : Option Raise → Action α} {next : Option Raise → α → Action β}

theorem fromRaise_bind {hold : Hold} {w : World} {e : Error} (h : FromRaise m patience act hold w e) :
    FromRaise m patience (fun i => act i >>= next i) hold w e := by
  obtain ⟨q, w', hraised, hdepth, hstalled⟩ := h
  refine ⟨q, w', hraised, hdepth, ?_⟩
  rw [result_bind_error (Prod.ext hstalled rfl)]

/-- A raise that is made after the first part of a run is made in the run, for stopping at it leaves the
first part as it is, or ends it. -/
theorem fromRaise_next (hcut : ∀ q, (act (some q)).CutShort (· = .stalled) (act none))
    (hbalanced : (act none).Obeys balance.allows) {hold : Hold} {w w' : World} {a : α} {e : Error}
    (hr : (act none).result hold w = (.ok a, w'))
    (h : FromRaise m patience (fun i => next i a) hold w' e) :
    FromRaise m patience (fun i => act i >>= next i) hold w e := by
  obtain ⟨q, w'', hraised, hdepth, hstalled⟩ := h
  refine ⟨q, w'', hraised, hdepth.trans (hbalanced.balanced hr (by simp)).depth, ?_⟩
  rcases hcut q hold w with ⟨stop, rfl, hstop⟩ | hsame
  · rw [result_bind_error (Prod.ext hstop rfl)]
  · rw [result_bind_ok (hsame.trans hr)]
    exact hstalled

/-- What follows an action may know more errors than the action, as long as these are accounted for. -/
theorem bindKnowing {knows : α → Error → Prop}
    (hcut : ∀ q, (act (some q)).CutShort (· = .stalled) (act none))
    (hbalanced : (act none).Obeys balance.allows)
    (horigin : ∀ {hold w e w'}, (act none).result hold w = (.error (.error e), w') →
      e.trace = [] ∨ known e ∨ FromRaise m patience act hold w e)
    (hknows : ∀ {hold w a w' e}, (act none).result hold w = (.ok a, w') → knows a e →
      e.trace = [] ∨ known e ∨ FromRaise m patience act hold w e)
    (hn : ∀ a, Traced m patience (knows a) fun i => next i a) :
    Traced m patience known fun i => act i >>= next i := by
  refine ⟨fun q => (hcut q).bind fun a => (hn a).cutShort q,
    hbalanced.bind fun a => (hn a).balanced, fun {hold w e w'} hr => ?_⟩
  -- The error came up in the first action or in what follows it.
  rw [result_bind] at hr
  cases hfirst : (act none).result hold w with
  | mk outcome w₁ =>
    rw [hfirst] at hr
    cases outcome with
    | error stop =>
      cases hr
      rcases horigin hfirst with hnew | hknown | hraise
      · exact .inl hnew
      · exact .inr (.inl hknown)
      · exact .inr (.inr (fromRaise_bind hraise))
    | ok a =>
      rcases (hn a).origin hr with hnew | hknown | hraise
      · exact .inl hnew
      · rcases hknows hfirst hknown with hnew | hknown | hraise
        · exact .inl hnew
        · exact .inr (.inl hknown)
        · exact .inr (.inr (fromRaise_bind hraise))
      · exact .inr (.inr (fromRaise_next hcut hbalanced hfirst hraise))

end Bind

theorem bind {act : Option Raise → Action α} {next : Option Raise → α → Action β}
    (h : Traced m patience known act) (hn : ∀ a, Traced m patience known fun i => next i a) :
    Traced m patience known fun i => act i >>= next i :=
  bindKnowing h.cutShort h.balanced h.origin (fun _ hknown => .inr (.inl hknown)) hn

theorem handedOn_cases {first : Except Stop α × World} {outcome : Except Stop (Except Error α)} {w' : World}
    {after : World → World} (h : onward (fun r w => (.ok r, after w)) (handedOn first) = (outcome, w')) :
    (∃ a, outcome = .ok (.ok a)) ∨
      (∃ e w₁, first = (.error (.error e), w₁) ∧ outcome = .ok (.error e)) ∨ outcome = .error .stalled := by
  rcases first with ⟨(e | _) | a, w₁⟩
  · cases h
    exact .inr (.inl ⟨e, w₁, rfl, rfl⟩)
  · cases h
    exact .inr (.inr rfl)
  · cases h
    exact .inl ⟨a, rfl⟩

/-- An error that was handed on came up before the rest was begun. What is done to the world around the
action that hands it on does not matter, as long as no event is counted. -/
theorem handing {act : Option Raise → Action α} {hand : Option Raise → Action (Except Error α)}
    {next : Option Raise → Except Error α → Action β} (before after : World → World)
    (hdepth : ∀ w, (before w).session.depth = w.session.depth)
    (hresult : ∀ i hold w, (hand i).result hold w =
      onward (fun r w => (.ok r, after w)) (handedOn ((act i).result hold (before w))))
    (hcut : ∀ q, (hand (some q)).CutShort (· = .stalled) (hand none))
    (hbalanced : (hand none).Obeys balance.allows) (h : Traced m patience known act)
    (hn : ∀ r, Traced m patience (alsoKnown known r) fun i => next i r) :
    Traced m patience known fun i => hand i >>= next i := by
  refine bindKnowing hcut hbalanced (fun {hold w e w'} hr => ?_) (fun {hold w r w' e} hr hknown => ?_) hn
  · rw [hresult] at hr
    rcases handedOn_cases hr with ⟨_, hok⟩ | ⟨_, _, _, hok⟩ | hstalled
    · cases hok
    · cases hok
    · cases hstalled
  · rcases hknown with hknown | rfl
    · exact .inr (.inl hknown)
    · rw [hresult] at hr
      obtain ⟨_, hok⟩ | ⟨e', w₁, herror, hok⟩ | hstalled := handedOn_cases hr
      · cases hok
      · cases hok
        rcases h.origin herror with hnew | hknown | ⟨q, w₂, hraised, hq, hstalled⟩
        · exact .inl hnew
        · exact .inr (.inl hknown)
        · refine .inr (.inr ⟨q, w₂, hraised, hq.trans (hdepth w), ?_⟩)
          have hpair : (act (some q)).result hold (before w) = (.error .stalled, _) :=
            Prod.ext hstalled rfl
          rw [hresult, hpair]
          rfl
      · cases hstalled

theorem attempt {act : Option Raise → Action α} {next : Option Raise → Except Error α → Action β}
    (h : Traced m patience known act)
    (hn : ∀ r, Traced m patience (alsoKnown known r) fun i => next i r) :
    Traced m patience known fun i => Action.attempt (act i) >>= next i := by
  refine handing (fun w => w) (fun w => w) (fun _ => rfl) (fun i hold w => ?_)
    (fun q => (h.cutShort q).attempt) h.balanced.attempt h hn
  rw [result_attempt]
  generalize (act i).result hold w = first
  rcases first with ⟨(_ | _) | _, _⟩ <;> rfl

theorem basing {act : Option Raise → Action α} {next : Option Raise → Except Error α → Action β}
    (base : Option Call) (h : Traced m patience known act)
    (hn : ∀ r, Traced m patience (alsoKnown known r) fun i => next i r) :
    Traced m patience known fun i => Action.basing base (act i) >>= next i :=
  handing (World.basing · base) World.unbased (fun _ => rfl) (fun i => result_basing base (act i))
    (fun q => (h.cutShort q).basing base) (h.balanced.basing base) h hn

theorem holding {act : Option Raise → Action α} (nodes : List NodeId) (h : Traced m patience known act) :
    Traced m patience known fun i => Action.holding nodes (act i) :=
  ⟨fun q => (h.cutShort q).holding nodes, h.balanced.holding nodes, fun hr => h.origin hr⟩

theorem goingBeside {act : Option Raise → Action α} (n other : NodeId) (h : Traced m patience known act) :
    Traced m patience known fun i => Action.goingBeside n other (act i) :=
  ⟨fun q => (h.cutShort q).goingBeside n other, h.balanced.goingBeside n other, fun hr => h.origin hr⟩

theorem resume (r : Except Error α) (hknown : ∀ e, r = .error e → known e) :
    Traced m patience known fun _ => Action.resume r := by
  refine ⟨fun _ => .refl _, .resume r, fun {hold w e w'} hr => ?_⟩
  cases r with
  | ok a => cases hr
  | error e =>
    cases hr
    exact .inr (.inl (hknown e rfl))

theorem addOverride (base super : String) :
    Traced m patience known fun _ => Keyword.addOverride base super := by
  refine const (balance.adding base super) fun {hold w e w'} hr => ?_
  rw [result_addOverride] at hr
  split at hr
  · cases hr
    rfl
  · split at hr
    · cases hr
      rfl
    · cases hr

end Traced

/-- The trait of runs that can be stopped at any one of their raises. -/
def tracing (m : Machine) (patience : Nat) : Trait (Option Raise) where
  holds := Traced m patience
  pure a := .calm (.pure a) fun _ _ => ⟨_, _, rfl⟩
  fail cause := .const (.fail cause) fun hr => by cases hr; rfl
  stall := .const .stall fun hr => by cases hr
  bind := .bind
  attempt := .attempt
  resume := .resume
  holding := .holding
  goingBeside := .goingBeside
  ask read := .calm (.ask read) fun _ _ => ⟨_, _, rfl⟩
  observe look := .calm (.observe look) fun _ _ => ⟨_, _, rfl⟩
  askStore read := .calm (.askStore read) fun _ _ => ⟨_, _, rfl⟩
  askSession read := .calm (.askSession read) fun _ _ => ⟨_, _, rfl⟩
  edit change := .calm (.edit change) fun _ _ => ⟨_, _, rfl⟩
  grow change := .calm (.grow change) fun _ _ => ⟨_, _, rfl⟩
  editEvents h := .calm (.editEvents h) fun _ _ => ⟨_, _, rfl⟩
  addOverride := .addOverride
  dropOverride base super := .calm ⟨fun _ w => balance.dropping w base super⟩ fun _ _ => ⟨_, _, rfl⟩
  basing := .basing

theorem Action.crossing_eq_error {event : String} {first : Except Stop Flow × World} {e : Error}
    (h : crossing event first.1 = .error (.error e)) :
    ∃ e' w', first = (.error (.error e'), w') ∧ e = e'.crossing event := by
  rcases first with ⟨(e' | _) | a, w'⟩
  · cases h
    exact ⟨e', w', rfl, rfl⟩
  · cases h
  · cases h

theorem traced_takeOverrides (m : Machine) (patience : Nat) (known : Error → Prop)
    (engine : Option Raise → Engine) (call : Call) :
    Traced m patience known fun i => Keyword.takeOverrides (engine i) call := by
  have hnote : (tracing m patience).holds known fun _ => Action.editStore (·.noting .overrides) :=
    (tracing m patience).editEvents fun _ => rfl
  refine (tracing m patience).bind hnote fun _ => (tracing m patience).bind ((tracing m patience).askStore _)
    fun overrides => Trait.thenNormal (Trait.forEach fun pair => ?_)
  refine (tracing m patience).bind ((tracing m patience).askSession _) fun closes => ?_
  split
  · exact (tracing m patience).pure ()
  · exact .calm ⟨fun _ _ => ⟨rfl, rfl⟩⟩ fun _ _ => ⟨_, _, rfl⟩

namespace Machine.IsCore

variable {m : Machine} (hm : m.IsCore) (patience : Nat)

include hm

theorem traced_raising (known : Error → Prop) (route : Route) (call : Call) :
    Traced m patience known fun i => m.raising patience i route call := by
  refine ⟨fun q => q.stopping_cutShort _ route call, perform_obeys hm.balanced patience route call,
    fun {hold w e w'} hr => .inr (.inr ⟨⟨route, call, hold, w⟩, w', hr, rfl, ?_⟩)⟩
  exact congrArg Prod.fst (Raise.result_stopping_self ⟨route, call, hold, w⟩ _)

theorem tracing_engines : (tracing m patience).Engines fun i => m.engine patience (m.raising patience i) where
  raiseFlow known event n := hm.traced_raising patience known .resolved (.plain event n)
  raiseDirect known call := hm.traced_raising patience known .direct call
  staticEvents := ⟨_, fun _ => rfl⟩
  patience := ⟨_, fun _ => rfl⟩

theorem tracing_handlers :
    (tracing m patience).Handlers (fun _ => m) fun i => m.engine patience (m.raising patience i) where
  listeners _ := (congrArg Table.listeners hm.table_eq).trans rfl
  statics := by
    refine ⟨coreTable.statics.map fun entry => (entry.1, fun _ => entry.2), fun _ => ?_, ?_⟩
    · simp [hm.table_eq, Function.comp_def]
    · intro entry hentry known call
      obtain ⟨entry, hmem, rfl⟩ := List.mem_map.mp hentry
      have hengines := hm.tracing_engines patience
      rcases coreTable_keeps (T := tracing m patience) entry hmem with hkeeps | rfl | rfl
      · exact hkeeps _ hengines known call
      · exact Trait.whileLoop hengines ⟨m.settings.maxIterations, fun _ => rfl⟩ call
      · exact traced_takeOverrides m patience known (fun i => m.engine patience (m.raising patience i)) call

theorem traced_inside (known : Error → Prop) (route : Route) (call : Call) :
    Traced m patience known fun i => m.insideBy patience (m.raising patience i) route call := by
  refine (tracing m patience).bind ((tracing m patience).askSession _) fun supers => ?_
  split
  · exact Trait.inTurn fun super _ => hm.traced_raising patience known .resolved (call.sentOn super)
  · exact (hm.tracing_handlers patience).invoke call

theorem leaves_of_raised {patience : Nat} {q : Raise} {e : Error} {w' : World}
    (h : m.raised patience q = (.error (.error e), w')) :
    (m.settings.maxDepth ≤ q.world.session.depth ∧
      e = .ofCause (.tooDeep q.call.event m.settings.maxDepth) ∧ w' = q.world) ∨
    ∃ frames, m.Leaves patience q e frames := by
  induction patience generalizing q e w' with
  | zero => cases h
  | succ patience ih =>
    rw [raised, perform_succ] at h
    by_cases hdepth : m.settings.maxDepth ≤ q.world.session.depth
    · rw [Action.result_entering_of_le hdepth] at h
      cases h
      exact .inl ⟨hdepth, rfl, rfl⟩
    · have hlt : q.world.session.depth < m.settings.maxDepth := by omega
      rw [Action.result_entering_of_lt hlt] at h
      -- the error that leaves the event is the one within it, with the event noted
      obtain ⟨e', w₁, hwithin, rfl⟩ := Action.crossing_eq_error (congrArg Prod.fst h)
      have htraced := hm.traced_inside patience (fun _ => False) q.route q.call
      rcases htraced.origin hwithin with hnew | hknown | ⟨inner, w₂, hraised, hinner, hstalled⟩
      · exact .inr ⟨[q], .innermost hlt hwithin hnew⟩
      · exact hknown.elim
      · -- A raise that was refused was not entered, so its event is not noted.
        rcases ih hraised with ⟨_, rfl, _⟩ | ⟨frames, hframes⟩
        · exact .inr ⟨[q], .innermost hlt hwithin rfl⟩
        · exact .inr ⟨frames ++ [q], .around hlt hwithin hstalled hinner hframes⟩

end Machine.IsCore

/-! ## Errors that wait for what comes last -/

/-- The body of a `try` that does not trap, or of a `catch`, ends with an error, and the `finally` after it
ends normally. -/
inductive Pending (engine : Engine) (hold : Hold) (n : NodeId) (w : World) : Handler → Error → World → Prop
  | ofTry {r : Keyword.Rescue} {last : NodeId} {e : Error} {w₁ w' : World} :
      Keyword.rescue (w.forest.seen hold) n = .ok r → r.last = some last →
      Ran engine hold n 0 w (.error e) w₁ →
      (r.onError = none ∨ (w₁.forest.seen hold).parent n = none) →
      Ran engine ((hold.adding ((w₁.forest.seen hold).parent n).toList).goingBeside n last) last 0 w₁
        (.ok .normal) w' →
      Pending engine hold n w Keyword.tryBlock e w'
  | ofCatch {scope caught last : NodeId} {e : Error} {w₁ w₂ w₃ w₄ w' : World} :
      (w.forest.seen hold).follows "try" n → (w.forest.seen hold).parent n = some scope →
      w.forest.find? scope Keyword.trappedName = some caught →
      (Action.untie caught).result (hold.adding [scope]) w = (.ok (), w₁) →
      (Keyword.insertAll n 0 (w₁.forest.children caught)).result (hold.adding [scope]) w₁ = (.ok (), w₂) →
      Ran engine (hold.adding [scope]) n (w₁.forest.children caught).length w₂ (.error e) w₃ →
      (Keyword.untieFrom n (w₁.forest.children caught)).result (hold.adding [scope]) w₃ = (.ok (), w₄) →
      (w₄.forest.seen (hold.adding [scope])).nextNamed? "finally" n = some last →
      Ran engine ((hold.adding [scope]).goingBeside n last) last 0 w₄ (.ok .normal) w' →
      Pending engine hold n w Keyword.catchBlock e w'

theorem Pending.result {engine : Engine} {hold : Hold} {call : Call} {w w' : World} {handler : Handler}
    {e : Error} (h : Pending engine hold call.node w handler e w') :
    (handler engine call).result hold w = (.error (.error e), w') := by
  cases h with
  | @ofTry r last _ w₁ _ hrescue hlast hbody hopen hfinally =>
    rw [Keyword.tryBlock, Action.result_bind_ok (Action.result_observe _), hrescue,
      Action.result_bind_ok (Action.result_ofExcept_ok r), Action.result_bind_ok hbody]
    dsimp only
    rw [Action.result_bind_ok (Action.result_observe _)]
    split
    · rename_i honError hscope
      rcases hopen with hnone | hnone
      · rw [hnone] at honError
        cases honError
      · rw [hnone] at hscope
        cases hscope
    · rw [Action.result_holding, hlast]
      exact Keyword.result_settle_some hfinally
  | ofCatch hfollows hparent hcaught huntie hlend hbody hback hlast hfinally =>
    have hcatch := Keyword.result_catchBlock_caught hfollows hparent hcaught huntie rfl hlend hbody hback
    rw [if_neg (by simp), hlast] at hcatch
    exact hcatch.trans (Keyword.result_settle_some hfinally)

/-! ## Traces list what was left -/

/-- What the trace of an error says. A raise that comes back with an error was refused for its depth, and
then no event is noted and nothing has changed; or the error left events one within the other, the raised
one last, and its trace lists each of them once, innermost first. So it is no longer than there was room
for. And an error that waits for a `finally` that ends normally comes out as it was. -/
theorem error_trace_lists_left (m : Machine) (hm : m.IsCore) :
    (∀ patience q e w', m.raised patience q = (.error (.error e), w') →
      (m.settings.maxDepth ≤ q.world.session.depth ∧ e.kind = .resourceExhausted ∧ e.trace = [] ∧
        w' = q.world) ∨
      (q.world.session.depth < m.settings.maxDepth ∧ e.trace.getLast? = some q.call.event ∧
        e.trace.length ≤ m.settings.maxDepth - q.world.session.depth ∧
        ∃ frames, m.Leaves patience q e frames ∧ e.trace = frames.map (·.call.event))) ∧
    ∀ engine hold w handler call e w', Pending engine hold call.node w handler e w' →
      (handler engine call).result hold w = (.error (.error e), w') := by
  refine ⟨fun patience q e w' h => ?_, fun engine hold w handler call e w' h => h.result⟩
  rcases hm.leaves_of_raised h with ⟨hdepth, rfl, rfl⟩ | ⟨frames, hframes⟩
  · exact .inl ⟨hdepth, rfl, rfl, rfl⟩
  · have htrace := hframes.trace
    refine .inr ⟨hframes.depth_lt, ?_, ?_, frames, hframes, htrace⟩
    · rw [htrace, List.getLast?_map, hframes.getLast?]
      rfl
    · rw [htrace, List.length_map]
      exact hframes.length_le

/-- A world with a `hello` that is sent to a declared event, while three other events are being raised, and
with a `try` and a `finally` like those in its body. -/
def beset : World where
  forest := (Forest.plant ⟨"scope", none, [⟨"hello", none, []⟩,
    ⟨"try", none, [⟨"throw", some (.string "no"), []⟩]⟩, ⟨"finally", none, []⟩]⟩ .empty).2
  store := (default : EventStore).declare "greet" [⟨"lambda", none,
    [⟨"try", none, [⟨"throw", some (.string "no"), []⟩]⟩, ⟨"finally", none, []⟩]⟩]
  session := ⟨⟨[("hello", ["greet"])]⟩, [], [], 3, [none]⟩

theorem Ran.of_fst {engine : Engine} {hold : Hold} {n : NodeId} {position : Nat} {w : World}
    {outcome : Except Error Flow}
    (h : ((Action.attempt (Keyword.execute engine n position)).result hold w).1 = .ok outcome) :
    Ran engine hold n position w outcome
      ((Action.attempt (Keyword.execute engine n position)).result hold w).2 := Prod.ext h rfl

theorem error_trace_lists_left_of_beset :
    let m : Machine := ⟨⟨1, 8, false⟩, coreTable⟩
    let q : Raise := ⟨.resolved, .plain "hello" ⟨1⟩, ⟨[], []⟩, beset⟩
    let e : Error := ⟨.thrown "no", ["throw", "try", "lambda", "greet", "hello"]⟩
    (m.raised 8 q).1 = .error (.error e) ∧
      (∃ frames, m.Leaves 8 q e frames ∧ e.trace = frames.map (·.call.event)) ∧
      ∃ w', (Keyword.tryBlock (m.engine 8 (m.perform 8)) (.plain "try" ⟨2⟩)).result ⟨[], []⟩ beset =
        (.error (.error ⟨.thrown "no", ["throw"]⟩), w') := by
  intro m q e
  have hm : m.IsCore := Machine.isCore_coreTable _
  have herror : (m.raised 8 q).1 = .error (.error e) := by decide +kernel
  refine ⟨herror, ?_, ?_⟩
  · rcases (error_trace_lists_left m hm).1 8 q e (m.raised 8 q).2 (Prod.ext herror rfl) with hleft | hleft
    · exact absurd hleft.1 (by decide)
    · exact hleft.2.2.2
  · have hrescue : Keyword.rescue (beset.forest.seen ⟨[], []⟩) ⟨2⟩ = .ok ⟨none, some ⟨4⟩⟩ := by rfl
    have hbody : Ran (m.engine 8 (m.perform 8)) ⟨[], []⟩ ⟨2⟩ 0 beset (.error ⟨.thrown "no", ["throw"]⟩) _ :=
      .of_fst (by decide +kernel)
    refine ⟨_, (error_trace_lists_left m hm).2 _ _ _ _ (.plain "try" ⟨2⟩) _ _
      (.ofTry hrescue rfl hbody (.inl rfl) (.of_fst ?_))⟩
    decide +kernel

end EventTree
