import EventTree.Proofs.Signal.Boundary

/-!
# Signals reach their consumer

A `return` goes outwards to the nearest boundary, whatever stands around it, and what it carries lands on
the node there. A `break` or `continue` goes to the nearest loop, and is refused at the boundary if there
is none before. On its way a signal meets no statement: what it leaves is what it was given in, with the
loops on its way put back.
-/

namespace EventTree

open EventTree.Action Keyword

namespace Moment

/-- The value that a `return` reads. -/
def returned (s : Moment) : Option LiveValue :=
  returnedValue s.world.forest (s.hold.adding [s.node]) s.node

/-- What a `return` takes with it is finite. -/
structure IsFinite (s : Moment) : Prop where
  children : ∀ c ∈ s.world.forest.children s.node, s.world.forest.IsFinite c
  value : ∀ k, s.returned = some (.node k) → s.world.forest.IsFinite k

/-- The signal that a statement gives to a loop. -/
def signal? (s : Moment) : Option Flow :=
  if s.event = "break" then some .breaking
  else if s.event = "continue" then some .continuing
  else none

end Moment

/-- What came with `r` in `w` is on a node: its value, if there is one, and its children after those that
the node has when it has given back its guests. -/
structure Delivered (s : Moment) (n r : NodeId) (guests : List NodeId) (w u w' : World) : Prop where
  value : w'.forest.value n = (w.forest.value r).or (u.forest.value n)
  value_isSome : (w.forest.value r).isSome = s.returned.isSome
  children : w'.forest.children n =
    (u.forest.children n).filter (· ∉ guests) ++ w.forest.children r
  /-- They are trees like those of the statement. -/
  faithful : s.IsFinite →
    (w.forest.children r).map w'.forest.view =
      (s.world.forest.children s.node).map s.world.forest.view ∧
    w'.forest.viewValue (w.forest.value r) = s.world.forest.viewValue s.returned

/-! ## Signals -/

section Signals

variable {m : Machine} (hm : m.IsCore) {s : Moment} {patience : Nat} (hs : m.Admits s patience)

include hm hs

theorem outcome_of_handler (handler : Handler) {flow : Flow} {g : Forest}
    (hhandler : coreTable.handlersOf s.event = [handler]) (hevent : s.event ≠ catchAll)
    (hr : (handler (m.engine patience (m.perform patience)) (.plain s.event s.node)).result
      (s.hold.adding [s.node]) s.world.deeper = (.ok flow, s.world.deeper.on g)) :
    m.outcome s = (.ok flow, s.world.on g) := by
  have hplain : (s.world.deeper.on g).Plain s.event := hs.plain.deeper.of_eq rfl rfl
  rw [Machine.outcome, hs.patience_eq,
    Machine.result_raiseKeyword hm hhandler hevent hs.plain hs.depth_lt hr hplain]
  rfl

theorem outcome_return (hevent : s.event = "return") (wf : s.world.forest.WellFormed)
    (hn : s.world.forest.Has s.node) :
    m.outcome s = (.ok (.returning ⟨s.world.forest.size⟩),
      s.world.on (s.world.forest.returned s.returned s.node)) := by
  refine outcome_of_handler hm hs returnStatement (by rw [hevent]; rfl)
    (by rw [hevent]; decide) ?_
  rw [hevent]
  exact result_returnStatement (w := s.world.deeper) wf hn

theorem outcome_signal {flow : Flow} (hsignal : s.signal? = some flow) :
    m.outcome s = (.ok flow, s.world) := by
  unfold Moment.signal? at hsignal
  split at hsignal
  · rename_i hevent
    obtain rfl := Option.some.inj hsignal
    exact outcome_of_handler hm hs breakStatement (by rw [hevent]; rfl)
      (by rw [hevent]; decide) rfl
  · split at hsignal
    · rename_i hevent
      obtain rfl := Option.some.inj hsignal
      exact outcome_of_handler hm hs continueStatement (by rw [hevent]; rfl)
        (by rw [hevent]; decide) rfl
    · cases hsignal

end Signals

/-! ## Consumers -/

theorem Frame.lets_passing {flow : Flow} (hflow : flow ≠ .normal) {frames : List Frame}
    (h : ∀ frame ∈ frames, frame = passing) : ∀ frame ∈ frames, frame.Lets flow := by
  intro frame hframe
  rw [h frame hframe]
  exact hflow

theorem Moment.signal?_cases {s : Moment} {flow : Flow} (h : s.signal? = some flow) :
    flow = .breaking ∨ flow = .continuing := by
  unfold signal? at h
  grind

section Consumers

variable {m : Machine} {t s : Moment} {n : NodeId} {guests : List NodeId} {α : Type}
  {result : Except Stop α × World} {onward : World → Except Stop α × World}

theorem Bounded.delivers (h : Bounded m t n guests result onward) {r : NodeId} {w u : World}
    (ht : m.outcome t = (.ok (.returning r), u)) (hn : s.world.forest.Has n)
    (hcarrying : s.world.forest.Carrying s.returned s.node r w.forest)
    (hcarries : s.world.forest.Carries w.forest u.forest) :
    ∃ w', Delivered s n r guests w u w' ∧ result = onward w' := by
  obtain ⟨hold, u₁, hgiven, hresult⟩ := h.result_eq ht (by simp) hcarries.wellFormed
  have hcarries₁ := hcarries.givenBack hn hgiven
  obtain ⟨g, hsettle, hreceives⟩ := settleOn_receives hold hcarries₁ hn hcarrying.new
    hcarrying.has
  refine ⟨u₁.on g, ⟨?_, hcarrying.value_isSome, ?_, fun hfinite => ?_⟩, ?_⟩
  · rw [World.forest_on, hreceives.value_eq, hgiven.value_eq]
  · rw [World.forest_on, hreceives.children_eq, hgiven.children_eq, if_pos rfl]
  · exact hcarrying.faithful hfinite.children hfinite.value g hreceives.sameNode hreceives.size_le
  · rw [hresult, hsettle]
    rfl

theorem Bounded.refuses (h : Bounded m t n guests result onward) {flow : Flow} {u : World}
    (ht : m.outcome t = (.ok flow, u)) (hflow : flow = .breaking ∨ flow = .continuing)
    (wf : u.forest.WellFormed) : ∃ e, result.1 = .error (.error e) ∧ e.kind = .structural := by
  obtain ⟨hold, u₁, -, hresult⟩ := h.result_eq ht (by rintro rfl; simp at hflow) wf
  rcases hflow with rfl | rfl
  · exact ⟨.ofCause (.strayBreak (u₁.forest.name n)), by rw [hresult]; rfl, rfl⟩
  · exact ⟨.ofCause (.strayContinue (u₁.forest.name n)), by rw [hresult]; rfl, rfl⟩

end Consumers

section Nestings

variable {m : Machine} (hm : m.IsCore) {t s : Moment} {frames : List Frame} {patience : Nat}
  (hnested : Nested m t frames s) (hs : m.Admits s patience) (wf : s.world.forest.WellFormed)
  (hwithin : ∀ frame ∈ frames, frame.Within s.world.forest)

include hm hnested hs wf hwithin

theorem Nested.outcome_return (hevent : s.event = "return") (hn : s.world.forest.Has s.node) :
    ∃ r w, m.outcome s = (.ok (.returning r), w) ∧
      m.outcome t = (.ok (.returning r), unwind frames w) ∧
      s.world.forest.Carrying s.returned s.node r w.forest ∧
      s.world.forest.Carries w.forest (unwind frames w).forest := by
  have hreturn := EventTree.outcome_return hm hs hevent wf hn
  have hcarrying : s.world.forest.Carrying s.returned s.node ⟨s.world.forest.size⟩
      (s.world.forest.returned s.returned s.node) :=
    Forest.carrying_returned wf s.node fun k hk => has_returnedValue wf hn hk
  have hcarries := hcarrying.carries wf
  refine ⟨_, _, hreturn, ?_, hcarrying, carries_unwind (w := s.world.on _) hcarries hwithin⟩
  refine hnested.outcome (w := s.world.on _) hcarries hm hreturn (fun frame _ => ?_) hwithin
  -- Even a loop lets a `return` out.
  cases frame with
  | passing => exact nofun
  | looping pass => rfl

theorem Nested.outcome_signal {flow : Flow} (hsignal : s.signal? = some flow)
    (hpassing : ∀ frame ∈ frames, frame = .passing) :
    m.outcome t = (.ok flow, unwind frames s.world) := by
  have hflow : flow ≠ .normal := by
    rintro rfl
    simpa using Moment.signal?_cases hsignal
  exact hnested.outcome wf.carries hm (EventTree.outcome_signal hm hs hsignal)
    (Frame.lets_passing hflow hpassing) hwithin

end Nestings

theorem Nested.outcome_loop {m : Machine} (hm : m.IsCore) {t s : Moment} {pass : Pass}
    {inner : List Frame} {patience : Nat} (hnested : Nested m t (.looping pass :: inner) s)
    (hs : m.Admits s patience) (wf : s.world.forest.WellFormed)
    (hwithin : ∀ frame ∈ inner, frame.Within s.world.forest) {flow : Flow}
    (hsignal : s.signal? = some flow) (hpassing : ∀ frame ∈ inner, frame = .passing)
    (hplain : ∀ w', (pass.leave flow).result (t.hold.adding [t.node]) (unwind inner s.world) =
      (.ok .normal, w') → w'.Plain t.event) :
    m.outcome t = leaving t.event
      ((pass.leave flow).result (t.hold.adding [t.node]) (unwind inner s.world)) := by
  cases hnested with
  | inside henters hinner =>
    have hu := hinner.outcome_signal hm hs wf hwithin hsignal hpassing
    refine henters.outcome hm hu ?_ hplain
    rintro rfl
    simpa using Moment.signal?_cases hsignal

/-- Between a signal and its consumer only the depth changes, apart from the loops that are put back. -/
theorem plain_unwind {frames : List Frame} {w : World} {event : String} (h : w.Plain event) :
    (unwind frames w).Plain event := by
  induction frames with
  | nil => exact h
  | cons frame frames ih =>
    cases frame with
    | passing => exact ih.shallower
    | looping pass =>
      rw [unwind_cons, Frame.unwound, Frame.left]
      exact (ih.on _).shallower

/-- Take any nesting of constructs in a core context, with a signal at its inner end.

A `return` comes out of every frame unchanged, and the node of the boundary right outside gets the value
and the children. A `break` or `continue` comes out of every frame but that of a loop: `break` ends the
loop, and after `continue` it goes on with the passes that are still to come. With no loop on the way the
boundary refuses the signal.

What a signal leaves behind it is `unwind`, which asks no engine: whatever statements follow, none of
them is raised before the signal is with its consumer. -/
theorem signal_reaches_consumer {m : Machine} (hm : m.IsCore) {t s : Moment} {frames : List Frame}
    {patience : Nat} (hnested : Nested m t frames s) (hs : m.Admits s patience)
    (hsound : t.world.Sound) (hlisteners : t.world.session.bindings = [])
    (hnode : t.world.forest.Has t.node) :
    (s.event = "return" → ∃ r w, m.outcome s = (.ok (.returning r), w) ∧
      m.outcome t = (.ok (.returning r), unwind frames w) ∧
      (∀ k, ¬ s.world.forest.Has k → w.forest.Has k →
        (unwind frames w).forest.cell k = w.forest.cell k) ∧
      ∀ {n guests} {α : Type} {result : Except Stop α × World} {onward}, t.world.forest.Has n →
        Bounded m t n guests result onward →
          ∃ w', Delivered s n r guests w (unwind frames w) w' ∧ result = onward w') ∧
    ∀ flow, s.signal? = some flow →
      ((∀ frame ∈ frames, frame = .passing) →
        m.outcome t = (.ok flow, unwind frames s.world) ∧
        ∀ {n guests} {α : Type} {result : Except Stop α × World} {onward},
          Bounded m t n guests result onward →
            ∃ e, result.1 = .error (.error e) ∧ e.kind = .structural) ∧
      ∀ pass inner, frames = .looping pass :: inner → (∀ frame ∈ inner, frame = .passing) →
        (flow = .breaking → s.world.Plain t.event →
          m.outcome t = (.ok .normal, unwind frames s.world)) ∧
        (flow = .continuing →
          (∀ w', (pass.leave .continuing).result (t.hold.adding [t.node]) (unwind inner s.world) =
            (.ok .normal, w') → w'.Plain t.event) →
          m.outcome t = leaving t.event
            ((pass.leave .continuing).result (t.hold.adding [t.node]) (unwind inner s.world))) := by
  let P := Plot.whole hsound.wellFormed
  have hready : P.Ready t.world :=
    ⟨P.tended_start, hlisteners, fun call hc => ⟨trivial, hsound.base call hc⟩⟩
  obtain ⟨hready', hmine, hsize, hwithin⟩ := hnested.ready hm hready ⟨trivial, hnode⟩
  have wf := hready'.tended.wellFormed
  refine ⟨fun hevent => ?_, fun flow hsignal => ⟨fun hpassing => ?_, ?_⟩⟩
  · obtain ⟨r, w, hreturn, hout, hcarrying, hcarries⟩ :=
      hnested.outcome_return hm hs wf hwithin hevent hmine.2
    refine ⟨r, w, hreturn, hout, hcarries.cell_eq, fun hn hbounded => ?_⟩
    exact hbounded.delivers hout (Nat.lt_of_lt_of_le hn hsize) hcarrying hcarries
  · have hout := hnested.outcome_signal hm hs wf hwithin hsignal hpassing
    refine ⟨hout, fun hbounded => ?_⟩
    exact hbounded.refuses hout (Moment.signal?_cases hsignal)
      (carries_unwind wf.carries hwithin).wellFormed
  · rintro pass inner rfl hpassing
    have hinner := fun frame hframe => hwithin frame (List.mem_cons_of_mem _ hframe)
    have hcarries := carries_unwind wf.carries hinner
    refine ⟨?_, ?_⟩
    · rintro rfl hplain
      have hleave : (pass.leave .breaking).result (t.hold.adding [t.node]) (unwind inner s.world) =
          (.ok .normal, (unwind inner s.world).on (pass.restored (unwind inner s.world).forest)) :=
        Pass.result_leave hcarries.wellFormed
          (hcarries.has (hwithin (.looping pass) List.mem_cons_self)) rfl
      rw [hnested.outcome_loop hm hs wf hinner hsignal hpassing, hleave]
      · rw [leaving_ok, unwind_cons, Frame.unwound, Frame.left]
      · rw [hleave]
        intro w' hw'
        rw [← (Prod.mk.inj hw').2]
        exact (plain_unwind hplain).on _
    · rintro rfl hplain
      exact hnested.outcome_loop hm hs wf hinner hsignal hpassing hplain

/-! ## An errand -/

namespace Errand

def machine : Machine := ⟨.default, coreTable⟩

def engine (patience : Nat) : Engine := machine.engine patience (machine.perform patience)

/-- A `return` in a branch in a loop, with a statement that fails after each of them. -/
def errand : Tree Selector :=
  ⟨"lambda", none,
    [⟨"while", some (.bool true),
        [⟨"if", some (.bool true),
            [⟨"return", some (.string "milk"), [⟨"eggs", none, []⟩]⟩,
              ⟨"throw", none, []⟩]⟩,
          ⟨"throw", none, []⟩]⟩,
      ⟨"throw", none, []⟩]⟩

def hold : Hold := ⟨[], []⟩

def world : World := ⟨(Forest.plant errand .empty).2, default, default⟩

def start : Moment := ⟨8, hold, world, "lambda", ⟨0⟩⟩

def inLambda : Moment := ⟨7, (hold.adding [⟨0⟩]).adding [⟨0⟩], world.deeper, "while", ⟨1⟩⟩

/-- The world in which the loop has its copy. -/
def looped : World := inLambda.world.deeper.on (inLambda.world.forest.copy ⟨1⟩).2

def pristine : NodeId := (inLambda.world.forest.copy ⟨1⟩).1

def inWhile : Moment where
  patience := 6
  hold := (inLambda.hold.adding [⟨1⟩]).adding [⟨1⟩]
  world := ((evaluateCondition (engine 6) ⟨1⟩).result (inLambda.hold.adding [⟨1⟩]) looped).2
  event := "if"
  node := ⟨2⟩

def inIf : Moment where
  patience := 5
  hold := (inWhile.hold.adding [⟨2⟩]).adding [⟨2⟩]
  world := ((evaluateCondition (engine 5) ⟨2⟩).result (inWhile.hold.adding [⟨2⟩]) inWhile.world.deeper).2
  event := "return"
  node := ⟨3⟩

def frames : List Frame :=
  [.passing, .looping ⟨⟨1⟩, pristine, true,
    whilePasses (engine 6) ⟨1⟩ pristine (some machine.settings.maxIterations) 5 1⟩, .passing]

theorem eq_of_fst {α β : Type} {r : α × β} {a : α} (h : r.1 = a) : r = (a, r.2) := Prod.ext h rfl

/-- What is there to see when a body of the errand has come to a statement. -/
structure Seen (w : World) (event : String) (scope n : NodeId) : Prop where
  supers : (w.session.overrides.supers? event).isNone
  bodies : (w.store.bodies? event).isNone
  listeners : w.session.bindings.isEmpty
  depth : w.session.depth < machine.settings.maxDepth
  child : w.forest.child? scope 0 = some n
  name : w.forest.name n = event

instance (w : World) (event : String) (scope n : NodeId) : Decidable (Seen w event scope n) :=
  decidable_of_iff ((w.session.overrides.supers? event).isNone ∧ (w.store.bodies? event).isNone ∧
      w.session.bindings.isEmpty ∧ w.session.depth < machine.settings.maxDepth ∧
      w.forest.child? scope 0 = some n ∧ w.forest.name n = event)
    ⟨fun ⟨a, b, c, d, e, f⟩ => ⟨a, b, c, d, e, f⟩, fun ⟨a, b, c, d, e, f⟩ => ⟨a, b, c, d, e, f⟩⟩

namespace Seen

variable {t : Moment} {scope : NodeId} (h : Seen t.world t.event scope t.node)

include h

theorem admits {patience : Nat} (hp : t.patience = patience + 1) : machine.Admits t patience := by
  refine ⟨hp, ⟨Option.isNone_iff_eq_none.mp h.supers, Option.isNone_iff_eq_none.mp h.bodies,
    fun key _ => ?_⟩, h.depth⟩
  rw [Session.bindingsOf, List.isEmpty_iff.mp h.listeners]
  rfl

theorem reaches {hold : Hold} {patience : Nat} (hhold : t.hold = hold.adding [scope])
    (hp : t.patience = patience + 1) (hdata : isDataName t.event = false) :
    Reaches machine ⟨hold, scope, 0, t.world⟩ t := by
  refine ⟨hhold, h.name.symm, ?_⟩
  rw [hp]
  exact .here h.child (h.name.symm ▸ hdata)

end Seen

theorem seen_while : Seen inLambda.world "while" ⟨0⟩ ⟨1⟩ := by decide +kernel

theorem seen_if : (((evaluateCondition (engine 6) ⟨1⟩).result (inLambda.hold.adding [⟨1⟩]) looped).1 =
    .ok ⟨true, 0⟩) ∧ Seen inWhile.world "if" ⟨1⟩ ⟨2⟩ := by decide +kernel

theorem seen_return : (((evaluateCondition (engine 5) ⟨2⟩).result (inWhile.hold.adding [⟨2⟩])
    inWhile.world.deeper).1 = .ok ⟨true, 0⟩) ∧ Seen inIf.world "return" ⟨2⟩ ⟨3⟩ := by decide +kernel

theorem enters_lambda : Enters machine start .passing inLambda :=
  ⟨⟨rfl, World.plain_start _ _, by decide⟩, _, .lambda,
    seen_while.reaches (t := inLambda) rfl rfl (by decide)⟩

theorem tests_while : Tests (engine 6) (inLambda.hold.adding [⟨1⟩]) ⟨1⟩
    (some machine.settings.maxIterations) 0 looped 0 inWhile.world := by
  refine ⟨?_, by decide⟩
  rw [inWhile]
  dsimp only
  exact eq_of_fst seen_if.1

theorem tests_if : (evaluateCondition (engine 5) ⟨2⟩).result (inWhile.hold.adding [⟨2⟩])
    inWhile.world.deeper = (.ok ⟨true, 0⟩, inIf.world) := by
  rw [inIf]
  dsimp only
  exact eq_of_fst seen_return.1

theorem enters_while : Enters machine inLambda (.looping ⟨⟨1⟩, pristine, true,
    whilePasses (engine 6) ⟨1⟩ pristine (some machine.settings.maxIterations) 5 1⟩) inWhile :=
  ⟨seen_while.admits (t := inLambda) rfl, _, .whileLoop rfl (by decide +kernel) .start tests_while,
    seen_if.2.reaches (t := inWhile) rfl rfl (by decide)⟩

theorem enters_if : Enters machine inWhile .passing inIf :=
  ⟨seen_if.2.admits (t := inWhile) rfl, _, .ifBranch tests_if,
    seen_return.2.reaches (t := inIf) rfl rfl (by decide)⟩

theorem nested : Nested machine start frames inIf :=
  .inside enters_lambda (.inside enters_while (.inside enters_if (.here _)))

end Errand

theorem signal_reaches_consumer_of_errand :
    Nested Errand.machine Errand.start Errand.frames Errand.inIf ∧
      ∃ r w w', Delivered Errand.inIf ⟨0⟩ r [] w (unwind Errand.frames w) w' ∧
        ((Errand.engine 8).raise "lambda" ⟨0⟩).result Errand.hold Errand.world = (.ok (), w') ∧
        w'.forest.value ⟨0⟩ = some (.string "milk") ∧
        (w'.forest.children ⟨0⟩).map w'.forest.name = ["while", "throw", "eggs"] := by
  have wf : Errand.world.forest.WellFormed :=
    (Forest.planted _ .empty Forest.wellFormed_empty).wellFormed
  have hs : Errand.machine.Admits Errand.inIf 4 := Errand.seen_return.2.admits rfl
  obtain ⟨r, w, -, -, -, hreceived⟩ := (signal_reaches_consumer (Machine.isCore_coreTable _)
    Errand.nested hs ⟨wf, fun call hc => by cases hc⟩ rfl (by decide)).1 rfl
  obtain ⟨w', hdelivered, hresult⟩ := hreceived (by decide) Bounded.raise
  have hw' : w' = (((Errand.engine 8).raise "lambda" ⟨0⟩).result Errand.hold Errand.world).2 :=
    (congrArg Prod.snd hresult).symm
  refine ⟨Errand.nested, r, w, w', hdelivered, hresult, ?_⟩
  rw [hw']
  decide +kernel

end EventTree
