import EventTree.Proofs.Law.Keywords
import EventTree.Proofs.Override.Replay

/-!
# Session and store agree on overrides

Programs change the overrides of the session and those of the store together, so both have the same ones
in the same order, and a new session that takes over the stored overrides starts with them too. Only the
handler that takes them over makes a difference, when it is run once more.
-/

namespace EventTree

open EventTree.Action Keyword

/-! ## The law of agreement -/

/-- Session and store have the same overrides in the same order, and these make no cycle. -/
structure World.Agreed (w : World) : Prop where
  proper : w.session.overrides.Proper
  supers : ∀ base, w.session.overrides.supersOf base = supersIn w.store.overrides base
  acyclic : Acyclic fun base super => (base, super) ∈ w.store.overrides

namespace World.Agreed

variable {w : World} (hw : w.Agreed)

include hw

theorem congr {w' : World} (hsession : w'.session.overrides = w.session.overrides)
    (hstore : w'.store.overrides = w.store.overrides) : w'.Agreed := by
  refine ⟨?_, fun base => ?_, ?_⟩
  · rw [hsession]
    exact hw.proper
  · rw [hsession, hstore]
    exact hw.supers base
  · rw [hstore]
    exact hw.acyclic

theorem dropping (base super : String) : (w.dropping base super).Agreed := by
  refine ⟨hw.proper.remove base super, fun other => ?_, ?_⟩
  · exact (hw.proper.supersOf_remove base super other).trans (by
      rw [hw.supers, hw.supers]
      exact (supersIn_eraseLast w.store.overrides base super other).symm)
  · exact hw.acyclic.mono fun _ _ h => mem_of_mem_eraseLast h

theorem addOverride (base super : String) (hold : Hold) :
    Allowed World.Agreed ((Keyword.addOverride base super).result hold w) := by
  rw [result_addOverride]
  split
  · rename_i cause hfault
    exact hw.congr rfl (EventStore.overrides_addOverride_of_some hfault)
  · rename_i hfault
    have hstore := EventStore.overrides_addOverride_of_none hfault
    split
    · -- The session refuses what the store has taken, so the store gives it back.
      refine hw.congr rfl ?_
      change eraseLast (base, super) (w.store.addOverride base super).overrides = _
      rw [hstore, eraseLast_append_singleton]
    · refine ⟨hw.proper.push base super, fun other => ?_, ?_⟩
      · change (w.session.overrides.push base super).supersOf other =
          supersIn (w.store.addOverride base super).overrides other
        rw [OverrideGraph.supersOf_push, hstore, supersIn_append, supersIn_cons, hw.supers, hw.supers]
        split
        · rename_i ho
          rw [ho]
          rfl
        · exact (List.append_nil _).symm
      · change Acyclic fun base' super' => (base', super') ∈ (w.store.addOverride base super).overrides
        rw [hstore]
        exact EventStore.overrideFault?_eq_none_iff.mp hfault

end World.Agreed

/-- What agrees goes on to agree. -/
def agreement : Law where
  allows w w' := w.Agreed → w'.Agreed
  refl _ hw := hw
  trans h h' hw := h' (h hw)
  forest _ _ hw := hw.congr rfl rfl
  store _ _ hs hw := hw.congr rfl hs
  raising h hw := (h (hw.congr rfl rfl)).congr rfl rfl
  basing _ h hw := (h (hw.congr rfl rfl)).congr rfl rfl
  adding base super := ⟨fun hold w => by
    by_cases hw : w.Agreed
    · exact (hw.addOverride base super hold).mono fun _ hw' _ => hw'
    · exact Allowed.of_forall fun _ h => absurd h hw⟩
  dropping _ base super hw := hw.dropping base super

/-! ## Machines that take over no overrides -/

/-- The machine that gives up where it would run a handler of its own for an event. -/
def Machine.barring (m : Machine) (event : String) : Machine where
  settings := m.settings
  table := { m.table with
    statics := m.table.statics.map fun entry =>
      if entry.1 = event then (entry.1, fun _ _ => stall) else entry }

theorem Machine.handlersOf_barring {m : Machine} {event key : String} (h : key ≠ event) :
    (m.barring event).table.handlersOf key = m.table.handlersOf key := by
  unfold Table.handlersOf barring
  dsimp only
  induction m.table.statics with
  | nil => rfl
  | cons entry rest ih =>
    by_cases hk : entry.1 = key
    · simp [hk, h, ih]
    · by_cases he : entry.1 = event
      · simp [he, h.symm, ih]
      · simp [he, hk, ih]

theorem Machine.IsCore.barring_agreeing {m : Machine} (hm : m.IsCore) :
    (m.barring startEvent).Obeying agreement := by
  constructor
  · intro entry he
    obtain ⟨entry, hentry, rfl⟩ := List.mem_map.mp he
    split
    · exact fun _ _ _ => Obeys.stall
    · rename_i hne
      rw [hm.table_eq] at hentry
      rcases coreTable_obeying entry hentry with h | rfl
      · exact h
      · exact absurd rfl hne
  · intro entry he
    change entry ∈ m.table.listeners at he
    rw [hm.table_eq] at he
    cases he

/-- The worlds that a machine comes to by raising events on nodes of any forests, from `w₀` on. No run is
given up, and none comes to the handler that takes over stored overrides. -/
inductive Machine.Raises (m : Machine) (w₀ : World) : World → Prop
  | start : Raises m w₀ w₀
  | next {w w' : World} {forest : Forest} {hold : Hold} {patience : Nat} {event : String} {n : NodeId}
      {outcome : Except Stop Unit} : Raises m w₀ w →
      ((m.engine patience (m.perform patience)).raise event n).result hold (w.on forest) =
        (outcome, w') →
      outcome ≠ .error .stalled →
      (((m.barring startEvent).engine patience ((m.barring startEvent).perform patience)).raise event
        n).result hold (w.on forest) = (outcome, w') → Raises m w₀ w'

theorem Machine.Raises.agreed {m : Machine} (hm : m.IsCore) {w₀ w : World} (h : m.Raises w₀ w)
    (hw₀ : w₀.Agreed) : w.Agreed := by
  induction h with
  | start => exact hw₀
  | @next w w' forest hold patience event n outcome _ _ hend hbarred ih =>
    -- The barred machine did the same, and it keeps the law.
    have hobeys := Obeys.raise (hm.barring_agreeing.engine patience) event n
    have hallowed := hobeys.allowed hold (w.on forest)
    rw [hbarred] at hallowed
    have hon : (w.on forest).Agreed := ih.congr rfl rfl
    match outcome, hend, hallowed with
    | .ok _, _, hallowed => exact hallowed hon
    | .error (.error _), _, hallowed => exact hallowed hon
    | .error .stalled, hend, _ => exact absurd rfl hend

/-! ## Statements on overrides -/

/-- Declared events and listeners are as they were. -/
def undisturbed : Rule where
  allows w w' := (∀ event, w'.store.bodies? event = w.store.bodies? event) ∧
    w'.session.bindings = w.session.bindings
  refl _ := ⟨fun _ => rfl, rfl⟩
  trans h h' := ⟨fun event => (h'.1 event).trans (h.1 event), h'.2.trans h.2⟩

theorem World.Plain.of_undisturbed {w w' : World} {event : String} (hw : w.Plain event)
    (h : undisturbed.allows w w') : w'.store.bodies? event = none ∧
      ∀ key ∈ Machine.keysOf event, w'.session.bindingsOf key = [] := by
  refine ⟨(h.1 event).trans hw.bodies, fun key hkey => ?_⟩
  rw [Session.bindingsOf, h.2]
  exact hw.listeners key hkey

theorem EventStore.bodies?_addOverride (s : EventStore) (base super event : String) :
    (s.addOverride base super).bodies? event = s.bodies? event := by
  unfold EventStore.addOverride
  dsimp only
  split <;> rfl

theorem addOverride_undisturbed (base super : String) :
    (addOverride base super).Obeys undisturbed.allows := by
  refine ⟨fun hold w => ?_⟩
  have hbodies := w.store.bodies?_addOverride base super
  rw [result_addOverride]
  split
  · exact ⟨hbodies, rfl⟩
  · split
    · exact ⟨hbodies, rfl⟩
    · exact ⟨hbodies, rfl⟩

theorem dropOverride_undisturbed (base super : String) :
    (do
      editSession fun s => { s with overrides := s.overrides.remove base super }
      editStore (·.removeOverride base super)).Obeys undisturbed.allows :=
  ⟨fun _ _ => ⟨fun _ => rfl, rfl⟩⟩

/-- The keywords that change overrides, and what answers to them. -/
inductive Overriding : String → Handler → Prop
  | add : Overriding "override" overrideEvent
  | remove : Overriding "remove-override" removeOverride

namespace Overriding

variable {event : String} {handler : Handler} (h : Overriding event handler)

include h

theorem undisturbed (engine : Engine) (call : Call) :
    (handler engine call).Obeys undisturbed.allows := by
  cases h with
  | add =>
    refine (Obeys.observe _).bind fun pairs => (Obeys.ofExcept pairs).bind fun _ => ?_
    exact Obeys.thenNormal (Obeys.forEach fun pair => addOverride_undisturbed pair.1 pair.2)
  | remove =>
    refine (Obeys.observe _).bind fun pairs => (Obeys.ofExcept pairs).bind fun _ => ?_
    exact Obeys.thenNormal (Obeys.forEach fun pair => dropOverride_undisturbed pair.1 pair.2)

/-- What is raised meanwhile does not matter, since nothing is. -/
theorem engine_eq (engine engine' : Engine) : handler engine = handler engine' := by
  cases h <;> rfl

theorem ne_startEvent : event ≠ startEvent := by
  cases h <;> decide

theorem handlersOf {m : Machine} (hm : m.IsCore) : m.table.handlersOf event = [handler] := by
  rw [hm.table_eq]
  cases h <;> rfl

theorem ne_catchAll : event ≠ catchAll := by
  cases h <;> decide

theorem result_invoke {m : Machine} {engine : Engine} {n : NodeId} {hold : Hold} {w : World}
    (hhandler : m.table.handlersOf event = [handler])
    (hcatchAll : m.table.handlersOf catchAll = [runDeclared]) (hw : w.Plain event) :
    (m.invoke engine (.plain event n)).result hold w =
      (handler engine (.plain event n)).result (hold.adding [n]) w := by
  rw [Machine.result_invoke_of_quiet h.ne_catchAll hcatchAll]
  · rw [show (Call.plain event n).event = event from rfl, hhandler, result_inTurn_singleton]
    rfl
  · intro w' hr
    rw [show (Call.plain event n).event = event from rfl, hhandler, result_inTurn_singleton] at hr
    have hallowed := (h.undisturbed engine (.plain event n)).allowed (hold.adding [n]) w
    rw [show (handler engine (.plain event n)).result (hold.adding [n]) w = (.ok .normal, w') from hr]
      at hallowed
    exact hw.of_undisturbed hallowed

theorem result_raise_barring {m : Machine} (hm : m.IsCore) {patience : Nat} {n : NodeId} {hold : Hold}
    {w : World} (hw : w.Plain event) :
    (((m.barring startEvent).engine patience ((m.barring startEvent).perform patience)).raise event
      n).result hold w = ((m.engine patience (m.perform patience)).raise event n).result hold w := by
  let m' := m.barring startEvent
  have hcatchAll : m.table.handlersOf catchAll = [runDeclared] := hm.table_eq ▸ Machine.handlersOf_catchAll
  have hcatchAll' : m'.table.handlersOf catchAll = [runDeclared] :=
    (Machine.handlersOf_barring (by decide)).trans hcatchAll
  have hhandler' : m'.table.handlersOf event = [handler] :=
    (Machine.handlersOf_barring h.ne_startEvent).trans (h.handlersOf hm)
  have hflow : ((m.barring startEvent).perform patience .resolved (.plain event n)).result hold w =
      (m.perform patience .resolved (.plain event n)).result hold w := by
    cases patience with
    | zero => rfl
    | succ patience =>
      by_cases hdepth : m.settings.maxDepth ≤ w.session.depth
      · have hdepth' : m'.settings.maxDepth ≤ w.session.depth := hdepth
        rw [Machine.perform_succ, Machine.perform_succ, result_entering_of_le hdepth,
          result_entering_of_le hdepth']
        rfl
      · have hlt := Nat.lt_of_not_le hdepth
        have hlt' : w.session.depth < m'.settings.maxDepth := hlt
        refine (Machine.result_perform_of_none hlt' hw.supers).trans ?_
        refine Eq.trans ?_ (Machine.result_perform_of_none hlt hw.supers).symm
        refine congrArg (leaving event) ((h.result_invoke hhandler' hcatchAll' hw.deeper).trans ?_)
        refine Eq.trans ?_ (h.result_invoke (h.handlersOf hm) hcatchAll hw.deeper).symm
        rw [h.engine_eq]
  unfold Engine.raise
  rw [result_bind, result_bind]
  exact congrArg _ hflow

end Overriding

theorem Machine.Raises.overriding {m : Machine} (hm : m.IsCore) {w₀ w w' : World} (hw : m.Raises w₀ w)
    {event : String} (hevent : event ∈ ["override", "remove-override"]) (hplain : w.Plain event)
    {forest : Forest} {hold : Hold} {patience : Nat} {n : NodeId} {outcome : Except Stop Unit}
    (hr : ((m.engine patience (m.perform patience)).raise event n).result hold (w.on forest) =
      (outcome, w')) (hend : outcome ≠ .error .stalled) : m.Raises w₀ w' := by
  have hplain : (w.on forest).Plain event := hplain.of_eq rfl rfl
  refine .next hw hr hend ?_
  rcases List.mem_pair.mp hevent with rfl | rfl
  · exact (Overriding.add.result_raise_barring hm hplain).trans hr
  · exact (Overriding.remove.result_raise_barring hm hplain).trans hr

/-! ## New sessions -/

theorem Context.start_core {l : Loader} (hl : Loader.core l.settings = .ok l)
    (hdepth : 0 < l.settings.maxDepth) {patience : Nat} (hpatience : 0 < patience)
    {store : EventStore} {g : OverrideGraph} (hg : OverrideGraph.empty.addAll store.overrides = .ok g)
    (hbodies : store.bodies? startEvent = none) :
    Context.start l patience store =
      (.ok ⟨⟨l.settings, l.table⟩, .start g⟩, store.noting .overrides) := by
  have htable : l.table = coreTable := Machine.IsCore.table_eq (m := ⟨l.settings, l.table⟩) ⟨l, hl, rfl⟩
  rw [← Loader.addPossible_of_addAll hg]
  refine start_takes ?_ rfl ?_ ?_ hdepth hpatience (by rw [hbodies]; rfl) <;> rw [htable] <;> rfl

theorem World.agreed_start (forest : Forest) {store : EventStore} (h : store.overrides = []) :
    World.Agreed ⟨forest, store, .start .empty⟩ := by
  refine ⟨OverrideGraph.proper_empty, fun base => ?_, acyclic_of_not_sends fun x y hstored => ?_⟩
  · rw [h]
    rfl
  · rw [h] at hstored
    cases hstored

/-- A core session that starts on an empty store and raises events, on any nodes and with any end, agrees
with the store on the supers of every event, as long as no run comes to the handler of the start event. A
new session then starts with the same overrides, unless a program declared the start event. Raising
`override` and `remove-override` does not come to that handler while nothing stands in for them. -/
theorem session_agrees_with_store (l : Loader) (hl : Loader.core l.settings = .ok l)
    (hdepth : 0 < l.settings.maxDepth) (patience : Nat) (hpatience : 0 < patience)
    (slot : String → Fin 64) :
    ∃ c store, Context.start l patience (.empty slot) = (.ok c, store) ∧
      ∀ forest w, c.machine.Raises ⟨forest, store, c.session⟩ w →
        (∀ base, w.session.overrides.supersOf base = supersIn w.store.overrides base) ∧
        (w.store.bodies? startEvent = none →
          ∃ c' store', Context.start l patience w.store = (.ok c', store') ∧
            ∀ base, c'.session.overrides.supers? base = w.session.overrides.supers? base) ∧
        (∀ event ∈ ["override", "remove-override"], w.Plain event →
          ∀ forest' hold p n outcome w',
            ((c.engine p).raise event n).result hold (w.on forest') = (outcome, w') →
            outcome ≠ .error .stalled → c.machine.Raises ⟨forest, store, c.session⟩ w') := by
  have hm : Machine.IsCore ⟨l.settings, l.table⟩ := ⟨l, hl, rfl⟩
  have hempty : (EventStore.empty slot).bodies? startEvent = none := ite_self none
  refine ⟨_, _, Context.start_core hl hdepth hpatience rfl hempty, fun forest w hw => ?_⟩
  have hagreed : w.Agreed := hw.agreed hm (World.agreed_start forest rfl)
  refine ⟨hagreed.supers, fun hbodies => ?_, fun event hevent hplain forest' hold p n outcome w' hr => ?_⟩
  · obtain ⟨g, hg⟩ := (exists_addAll_empty_iff w.store.overrides).mpr hagreed.acyclic
    refine ⟨_, _, Context.start_core hl hdepth hpatience hg hbodies, fun base => ?_⟩
    obtain ⟨hproper, hsupers⟩ := OverrideGraph.addAll_supers OverrideGraph.proper_empty hg
    have hsame : g.supersOf base = w.session.overrides.supersOf base := by
      rw [hsupers, hagreed.supers]
      rfl
    change g.supers? base = _
    rw [hproper.supers?_eq, hagreed.proper.supers?_eq, hsame]
  · exact hw.overriding hm hevent hplain hr

/-- Two statements on overrides; the first one fails on its third pair. -/
def rerouting : Tree Selector :=
  ⟨"root", none,
    [⟨"override", some (.string "a"),
      [⟨"super", some (.string "b"), []⟩, ⟨"super", some (.string "c"), []⟩,
        ⟨"super", some (.string "a"), []⟩]⟩,
      ⟨"remove-override", some (.string "a"), [⟨"super", some (.string "b"), []⟩]⟩]⟩

theorem session_agrees_with_store_of_rerouting :
    let l : Loader := ⟨.default, coreUnits.map (⟨·, []⟩), 0⟩
    let m : Machine := ⟨l.settings, l.table⟩
    let engine := m.engine 8 (m.perform 8)
    let w₀ : World := ⟨(Forest.plant rerouting .empty).2, (EventStore.empty fun _ => 0).noting .overrides,
      .start .empty⟩
    let r₁ := (engine.raise "override" ⟨1⟩).result ⟨[], []⟩ w₀
    let r₂ := (engine.raise "remove-override" ⟨5⟩).result ⟨[], []⟩ r₁.2
    r₁.1 = .error (.error ⟨.overrideCycle "a" "a", ["override"]⟩) ∧ r₂.1 = .ok () ∧
      r₂.2.session.overrides.supersOf "a" = ["c"] ∧
      ∀ base, r₂.2.session.overrides.supersOf base = supersIn r₂.2.store.overrides base := by
  intro l m engine w₀ r₁ r₂
  have hfirst : r₁.1 = .error (.error ⟨.overrideCycle "a" "a", ["override"]⟩) := by decide +kernel
  have hsecond : r₂.1 = .ok () := by decide +kernel
  have hl : Loader.core l.settings = .ok l := Loader.core_eq .default
  have hempty : (EventStore.empty fun _ => 0).bodies? startEvent = none := ite_self none
  obtain ⟨c, store, hstart, hagrees⟩ :=
    session_agrees_with_store l hl (by decide) 8 (by decide) fun _ => 0
  rw [Context.start_core hl (by decide) (by decide) rfl hempty] at hstart
  obtain ⟨hc, rfl⟩ := Prod.mk.inj hstart
  obtain rfl := Except.ok.inj hc
  have hplain₁ : r₁.2.Plain "remove-override" :=
    ⟨by decide +kernel, by decide +kernel, by decide +kernel⟩
  have hr₁ : m.Raises w₀ r₁.2 :=
    (hagrees w₀.forest w₀ .start).2.2 "override" (by simp) ⟨rfl, ite_self none, fun _ _ => rfl⟩
      w₀.forest ⟨[], []⟩ 8 ⟨1⟩ r₁.1 r₁.2 (Prod.eta r₁).symm (by rw [hfirst]; simp)
  have hr₂ : m.Raises w₀ r₂.2 :=
    (hagrees w₀.forest r₁.2 hr₁).2.2 "remove-override" (by simp) hplain₁ r₁.2.forest ⟨[], []⟩ 8 ⟨5⟩
      r₂.1 r₂.2 (Prod.eta r₂).symm (by rw [hsecond]; simp)
  exact ⟨hfirst, hsecond, by decide +kernel, (hagrees w₀.forest r₂.2 hr₂).1⟩

/-- An `override` that is sent to the start event takes over the stored override once more. And if it is
sent to `event` and declares the start event, a new session need not even start. -/
theorem session_disagrees_after_replay :
    let l : Loader := ⟨.default, coreUnits.map (⟨·, []⟩), 0⟩
    let m : Machine := ⟨l.settings, l.table⟩
    let engine := m.engine 8 (m.perform 8)
    let statement (super : String) : Tree Selector :=
      ⟨"override", some (.string "override"), [⟨"super", some (.string super), []⟩]⟩
    let declaration : Tree Selector :=
      ⟨"override", some (.string startEvent), [⟨"lambda", none, [⟨"throw", some (.string "no"), []⟩]⟩]⟩
    let raised (t : Tree Selector) (w : World) : World :=
      ((engine.raise "override" ⟨0⟩).result ⟨[], []⟩ (w.on (Forest.plant t .empty).2)).2
    let replayed := raised (statement startEvent) (raised (statement startEvent) default)
    let declared := raised declaration (raised (statement "event") default)
    (replayed.session.overrides.supersOf "override" = [startEvent, startEvent] ∧
      supersIn replayed.store.overrides "override" = [startEvent]) ∧
    (Context.start l 8 declared.store).1.isOk = false := by
  decide +kernel

end EventTree
