import EventTree.Proofs.Plot.Machine
import EventTree.Proofs.Raising
import EventTree.Proofs.Signal.Restoring

/-!
# Statements inside statements

A run stands at a statement of a body, which a statement of a body around it is executing, and so on
outwards. Around each statement is a frame: what is left to do there once the body has ended. A loop has
its node to put back and passes to go on with; any other construct has nothing left to do.

A signal goes outwards through the frames and meets no statement: what it leaves behind is the world that
it was given in, with the loops on its way put back.
-/

namespace EventTree

open EventTree.Action Keyword

/-! ## Moments -/

/-- An event that is about to be raised on a node. -/
structure Moment where
  patience : Nat
  hold : Hold
  world : World
  event : String
  node : NodeId

/-- A body that is about to be executed, from a position on. -/
structure Site where
  hold : Hold
  scope : NodeId
  position : Nat
  world : World

namespace Machine

/-- What raising the event comes to. -/
def outcome (m : Machine) (t : Moment) : Except Stop Flow × World :=
  ((m.engine t.patience (m.perform t.patience)).raiseFlow t.event t.node).result t.hold t.world

/-- Nothing stands in the way of raising the event, and its handlers have some patience. -/
structure Admits (m : Machine) (t : Moment) (patience : Nat) : Prop where
  patience_eq : t.patience = patience + 1
  plain : t.world.Plain t.event
  depth_lt : t.world.session.depth < m.settings.maxDepth

end Machine

/-! ## Sequences -/

/-- Executing the children of a scope comes to a statement: the children before it ended normally. -/
inductive Arrives (engine : Engine) (hold : Hold) (scope : NodeId) :
    Nat → Nat → World → NodeId → World → Prop
  | here {fuel position : Nat} {w : World} {y : NodeId} :
    w.forest.child? scope position = some y → isDataName (w.forest.name y) = false →
      Arrives engine hold scope (fuel + 1) position w y w
  | past {fuel position : Nat} {w w₁ w' : World} {x y : NodeId} :
    w.forest.child? scope position = some x →
    (runStatement engine x).result hold w = (.ok .normal, w₁) →
      Arrives engine hold scope fuel (w₁.forest.positionAfter scope x position) w₁ y w' →
        Arrives engine hold scope (fuel + 1) position w y w'

theorem Arrives.result {engine : Engine} {hold : Hold} {scope y : NodeId} {fuel position : Nat}
    {w w' : World} (h : Arrives engine hold scope fuel position w y w')
    (hend : ((engine.raiseFlow (w'.forest.name y) y).result hold w').1 ≠ .ok .normal) :
    (executeFrom engine scope fuel position).result hold w =
      (engine.raiseFlow (w'.forest.name y) y).result hold w' := by
  induction h with
  | here hchild hdata =>
    have hrun : (runStatement engine _).result hold _ = _ := result_runStatement rfl hdata
    rw [executeFrom, result_bind_ok (result_ask _), hchild]
    dsimp only
    rw [result_andThen_of_not_normal (hrun ▸ hend), hrun]
  | past hchild hrun _ ih =>
    rw [executeFrom, result_bind_ok (result_ask _), hchild]
    dsimp only
    rw [result_andThen_normal hrun, result_bind_ok (result_ask _), ih hend]

/-- Executing a body comes to a moment. -/
structure Reaches (m : Machine) (site : Site) (t : Moment) : Prop where
  hold_eq : t.hold = site.hold.adding [site.scope]
  event_eq : t.event = t.world.forest.name t.node
  arrives : Arrives (m.engine t.patience (m.perform t.patience)) t.hold site.scope t.patience
    site.position site.world t.node t.world

theorem Reaches.result {m : Machine} {site : Site} {t : Moment} (h : Reaches m site t)
    (hend : (m.outcome t).1 ≠ .ok .normal) :
    (execute (m.engine t.patience (m.perform t.patience)) site.scope site.position).result site.hold
      site.world = m.outcome t := by
  have hend' := h.arrives.result (by rw [← h.event_eq]; exact hend)
  rw [execute, result_holding, ← h.hold_eq]
  refine hend'.trans ?_
  rw [← h.event_eq]
  rfl

/-! ## Frames -/

/-- What a flow that ends a loop becomes; with any other the loop goes on. -/
def Flow.pastLoop : Flow → Option Flow
  | .breaking => some .normal
  | .returning r => some (.returning r)
  | .normal | .continuing => none

/-- A loop in the middle of a pass. -/
structure Pass where
  node : NodeId
  pristine : NodeId
  /-- Whether the pass puts the node back, or leaves that to the next one. -/
  tidies : Bool
  /-- The passes that are still to come. -/
  rest : Action Flow

/-- What is left to do around a body once it has ended. -/
inductive Frame where
  | passing
  | looping (pass : Pass)

namespace Pass

def tidy (pass : Pass) : Action Unit :=
  if pass.tidies then restore pass.node pass.pristine else return

/-- What a pass does once its body has ended. -/
def close (pass : Pass) (flow : Flow) : Action Flow := do
  pass.tidy
  match flow.pastLoop with
  | some ended => return ended
  | none => pass.rest

/-- The loop is put back at the end. -/
def leave (pass : Pass) (flow : Flow) : Action Flow := do
  let outcome ← attempt (pass.close flow)
  restore pass.node pass.pristine
  resume outcome

def tidied (pass : Pass) (f : Forest) : Forest :=
  if pass.tidies then f.restored pass.node pass.pristine else f

/-- What a loop that has ended makes of the forest. -/
def restored (pass : Pass) (f : Forest) : Forest :=
  (pass.tidied f).restored pass.node pass.pristine

end Pass

namespace Frame

/-- What is done once the body has ended with a flow. -/
def after : Frame → Flow → Action Flow
  | passing, flow => pure flow
  | looping pass, flow => pass.leave flow

/-- What a signal leaves of a world. -/
def left : Frame → World → World
  | passing, w => w
  | looping pass, w => w.on (pass.restored w.forest)

/-- What a signal leaves when it has gone outwards through the frame. -/
def unwound (frame : Frame) (w : World) : World := (frame.left w).shallower

/-- The flow goes on outwards: only a `return` leaves a loop. -/
def Lets : Frame → Flow → Prop
  | passing, flow => flow ≠ .normal
  | looping _, flow => flow.pastLoop = some flow

/-- The node of a loop is there. -/
def Within : Frame → Forest → Prop
  | passing, _ => True
  | looping pass, f => f.Has pass.node

end Frame

/-- What a signal leaves when it has gone outwards through frames, of which the last is the innermost. -/
def unwind (frames : List Frame) (w : World) : World := frames.foldr Frame.unwound w

theorem unwind_cons (frame : Frame) (frames : List Frame) (w : World) :
    unwind (frame :: frames) w = frame.unwound (unwind frames w) := rfl

/-! ## Passes -/

/-- The condition of a loop holds, and one more pass than those done is not too many. -/
structure Tests (engine : Engine) (hold : Hold) (n : NodeId) (ceiling : Option Nat) (passes : Nat)
    (w : World) (offset : Nat) (w' : World) : Prop where
  condition : (evaluateCondition engine n).result hold w = (.ok ⟨true, offset⟩, w')
  ceiling : ∀ limit, ceiling = some limit → passes < limit

/-- A `while` comes to a pass: in the passes before it the loop went on. -/
inductive WhileComes (engine : Engine) (hold : Hold) (n pristine : NodeId) (ceiling : Option Nat) :
    Nat → Nat → World → Nat → Nat → World → Prop
  | start {fuel passes : Nat} {w : World} :
    WhileComes engine hold n pristine ceiling fuel passes w fuel passes w
  | pass {fuel passes offset fuel' passes' : Nat} {w w₁ w₂ w₃ w' : World} {flow : Flow} :
    Tests engine hold n ceiling passes w offset w₁ →
    (execute engine n offset).result hold w₁ = (.ok flow, w₂) → flow.pastLoop = none →
    (restore n pristine).result hold w₂ = (.ok (), w₃) →
    WhileComes engine hold n pristine ceiling fuel (passes + 1) w₃ fuel' passes' w' →
      WhileComes engine hold n pristine ceiling (fuel + 1) passes w fuel' passes' w'

/-- Puts a loop back and binds its item. -/
def bindItem (n pristine : NodeId) (item : Option LiveValue) : Action Unit := do
  restore n pristine
  let bound ← createWith itemName (← copyValue item)
  insert n (some 0) bound

/-- A `for-each` comes to items: in the passes before them the loop went on. -/
inductive ItemsCome (engine : Engine) (hold : Hold) (n pristine : NodeId) :
    List (Option LiveValue) → World → List (Option LiveValue) → World → Prop
  | start {items : List (Option LiveValue)} {w : World} :
    ItemsCome engine hold n pristine items w items w
  | pass {item : Option LiveValue} {items items' : List (Option LiveValue)} {w w₁ w₂ w' : World}
    {flow : Flow} :
    (bindItem n pristine item).result hold w = (.ok (), w₁) →
    (execute engine n 0).result (hold.adding (Value.nodes items)) w₁ = (.ok flow, w₂) →
    flow.pastLoop = none →
    ItemsCome engine hold n pristine items w₂ items' w' →
      ItemsCome engine hold n pristine (item :: items) w items' w'

/-! ## Constructs -/

/-- Handling an event on a node comes to executing a body, with a frame around it. -/
inductive Opens (engine : Engine) (hold : Hold) (n : NodeId) (w : World) :
    String → Frame → Site → Prop
  | lambda : Opens engine hold n w "lambda" .passing ⟨hold, n, 0, w⟩
  | ifBranch {offset : Nat} {w₁ : World} :
    (evaluateCondition engine n).result hold w = (.ok ⟨true, offset⟩, w₁) →
      Opens engine hold n w "if" .passing ⟨hold, n, offset, w₁⟩
  | elseIfBranch {offset : Nat} {w₁ : World} :
    (w.forest.seen hold).chainTaken ((w.forest.seen hold).siblingsBefore n) = some false →
    (evaluateCondition engine n).result hold w = (.ok ⟨true, offset⟩, w₁) →
      Opens engine hold n w "else-if" .passing ⟨hold, n, offset, w₁⟩
  | elseBranch :
    w.forest.hasValue n = false →
    (w.forest.seen hold).chainTaken ((w.forest.seen hold).siblingsBefore n) = some false →
      Opens engine hold n w "else" .passing ⟨hold, n, 0, w⟩
  | switch {body : NodeId} :
    w.forest.choiceFault? n = none → (w.forest.seen hold).chosenBody? n = some body →
      Opens engine hold n w "switch" .passing
        ⟨hold.adding (Value.nodes [(w.forest.seen hold).singleValue n]), body, 0, w⟩
  | tryBlock {onError : NodeId} :
    rescue (w.forest.seen hold) n = .ok ⟨some onError, none⟩ →
      Opens engine hold n w "try" .passing ⟨hold, n, 0, w⟩
  | whileLoop {pristine : NodeId} {f : Forest} {limit : Option Nat} {fuel passes offset : Nat}
    {w₁ w₂ : World} :
    w.forest.copy n = (pristine, f) → ceiling engine.settings.maxIterations f n = limit →
    WhileComes engine hold n pristine limit engine.patience 0 (w.on f) (fuel + 1) passes w₁ →
    Tests engine hold n limit passes w₁ offset w₂ →
      Opens engine hold n w "while"
        (.looping ⟨n, pristine, true, whilePasses engine n pristine limit fuel (passes + 1)⟩)
        ⟨hold, n, offset, w₂⟩
  | forEachLoop {pristine : NodeId} {f : Forest} {all rest : List (Option LiveValue)}
    {item : Option LiveValue} {w₁ w₂ : World} :
    items (w.forest.seen hold) n = .ok all → w.forest.copy n = (pristine, f) →
    ItemsCome engine hold n pristine all (w.on f) (item :: rest) w₁ →
    (bindItem n pristine item).result hold w₁ = (.ok (), w₂) →
      Opens engine hold n w "for-each"
        (.looping ⟨n, pristine, false, itemPasses engine n pristine rest⟩)
        ⟨hold.adding (Value.nodes rest), n, 0, w₂⟩

/-- Raising the event of a moment comes to another moment, one level further in. -/
structure Enters (m : Machine) (t : Moment) (frame : Frame) (u : Moment) : Prop where
  admits : m.Admits t u.patience
  opens : ∃ site, Opens (m.engine u.patience (m.perform u.patience)) (t.hold.adding [t.node]) t.node
    t.world.deeper t.event frame site ∧ Reaches m site u

/-- Raising the event of a moment comes to another moment, through frames of which the first is the
outermost. -/
inductive Nested (m : Machine) : Moment → List Frame → Moment → Prop
  | here (t : Moment) : Nested m t [] t
  | inside {t u s : Moment} {frame : Frame} {frames : List Frame} :
    Enters m t frame u → Nested m u frames s → Nested m t (frame :: frames) s

/-! ## Worlds on the way -/

section Worlds

variable {P : Plot} {hold : Hold} {w w' : World}

theorem Plot.Keeps.after_ok {α : Type} {act : Action α} {post : Nat → α → Prop} {a : α}
    (h : P.Keeps [] w.forest.size act post) (hw : P.Ready w) (hr : act.result hold w = (.ok a, w')) :
    P.After w w' ∧ post w'.forest.size a := by
  have hfine := h.fine hold w (List.nil_subset _) hw (Nat.le_refl _)
  rw [hr] at hfine
  exact hfine

theorem Plot.Keeps.after_ended {α : Type} {act : Action α} {post : Nat → α → Prop}
    {outcome : Except Error α} (h : P.Keeps [] w.forest.size act post) (hw : P.Ready w)
    (hr : act.result hold w = (resumed outcome, w')) : P.After w w' := by
  have hfine := h.fine hold w (List.nil_subset _) hw (Nat.le_refl _)
  rw [hr] at hfine
  rcases outcome with e | a
  · exact hfine
  · exact hfine.1

theorem result_copy (hold : Hold) {n pristine : NodeId} {f : Forest}
    (h : w.forest.copy n = (pristine, f)) : (copy n).result hold w = (.ok pristine, w.on f) := by
  rw [copy, result_grow, h]
  rfl

theorem Plot.Ready.deeper (h : P.Ready w) : P.Ready w.deeper := ⟨h.tended, h.bindings, h.base⟩

theorem Frame.Within.mono {frame : Frame} {f g : Forest} (h : frame.Within f) (hle : f.size ≤ g.size) :
    frame.Within g := by
  cases frame with
  | passing => trivial
  | looping pass => exact Nat.lt_of_lt_of_le h hle

variable {engine : Engine} (he : engine.Keeping)

include he

theorem Arrives.after {scope y : NodeId} {fuel position : Nat}
    (h : Arrives engine hold scope fuel position w y w') (hw : P.Ready w)
    (hs : P.Mine w.forest.size scope) : P.After w w' ∧ P.Mine w'.forest.size y := by
  induction h with
  | here hchild _ => exact ⟨hw.after, hw.tended.closed.child? hs hchild⟩
  | past hchild hrun _ ih =>
    rename_i w w₁ _ x y _
    have hx := hw.tended.closed.child? hs hchild
    have hkeeps : P.Keeps [] w.forest.size (runStatement engine x) P.NewFlow := by
      refine Plot.Keeps.askAny.bind fun b name hb _ => ?_
      split
      · exact Plot.Keeps.normal
      · exact he.raiseFlow P [] b name x (hx.mono hb)
    obtain ⟨hafter, -⟩ := hkeeps.after_ok hw hrun
    obtain ⟨hrest, hy⟩ := ih (hafter.ready hw) (hs.mono hafter.size_le)
    exact ⟨hafter.trans hrest, hy⟩

variable {n : NodeId} (hn : P.Mine w.forest.size n) (hw : P.Ready w)

include hn hw

theorem Tests.after {limit : Option Nat} {passes offset : Nat}
    (h : Tests engine hold n limit passes w offset w') : P.After w w' :=
  ((Plot.Keeps.evaluateCondition he hn).after_ok hw h.condition).1

theorem WhileComes.after {pristine : NodeId} {limit : Option Nat} {fuel passes fuel' passes' : Nat}
    (h : WhileComes engine hold n pristine limit fuel passes w fuel' passes' w') : P.After w w' := by
  induction h with
  | start => exact hw.after
  | pass htests hbody _ hrestore _ ih =>
    have h₁ := htests.after he hn hw
    have hn₁ := hn.mono h₁.size_le
    have h₂ := ((Plot.Keeps.execute he _ hn₁).after_ok (h₁.ready hw) hbody).1
    have hn₂ := hn₁.mono h₂.size_le
    have h₃ := ((Plot.Keeps.restore hn₂).after_ok (h₂.ready (h₁.ready hw)) hrestore).1
    have h := (h₁.trans h₂).trans h₃
    exact h.trans (ih (hn.mono h.size_le) (h.ready hw))

omit he in
theorem bindItem_after {pristine : NodeId} {item : Option LiveValue}
    (h : (bindItem n pristine item).result hold w = (.ok (), w')) : P.After w w' := by
  have hkeeps : P.Keeps [] w.forest.size (bindItem n pristine item) fun _ _ => True := by
    refine (Plot.Keeps.restore hn).bind fun b _ hb _ => ?_
    refine (Plot.Keeps.copyValue item).bind fun b₁ v hb₁ hv => ?_
    refine (Plot.Keeps.createWith _ hv).bind fun b₂ bound hb₂ hbound => ?_
    exact Plot.Keeps.insert (hn.mono (Nat.le_trans (Nat.le_trans hb hb₁) hb₂)) hbound _
  exact (hkeeps.after_ok hw h).1

theorem ItemsCome.after {pristine : NodeId} {items items' : List (Option LiveValue)}
    (h : ItemsCome engine hold n pristine items w items' w') : P.After w w' := by
  induction h with
  | start => exact hw.after
  | pass hbind hbody _ _ ih =>
    have h₁ := bindItem_after hn hw hbind
    have hn₁ := hn.mono h₁.size_le
    have h₂ := ((Plot.Keeps.execute he _ hn₁).after_ok (h₁.ready hw) hbody).1
    have h := h₁.trans h₂
    exact h.trans (ih (hn.mono h.size_le) (h.ready hw))

theorem Opens.after {event : String} {frame : Frame} {site : Site}
    (h : Opens engine hold n w event frame site) :
    P.After w site.world ∧ P.Mine site.world.forest.size site.scope ∧
      frame.Within site.world.forest := by
  -- Every construct but a choice executes its own node.
  have hown : ∀ {w₁ : World}, P.After w w₁ → P.After w w₁ ∧ P.Mine w₁.forest.size n ∧
      w₁.forest.Has n := fun h₁ => ⟨h₁, hn.mono h₁.size_le, (hn.mono h₁.size_le).2⟩
  have hcopy : ∀ {pristine : NodeId} {f : Forest}, w.forest.copy n = (pristine, f) →
      P.After w (w.on f) := fun hf =>
    ((Plot.Keeps.copy n).after_ok hw (result_copy hold hf)).1
  cases h with
  | lambda => exact ⟨hw.after, hn, trivial⟩
  | ifBranch hc =>
    have h₁ := ((Plot.Keeps.evaluateCondition he hn).after_ok hw hc).1
    exact ⟨h₁, (hown h₁).2.1, trivial⟩
  | elseIfBranch _ hc =>
    have h₁ := ((Plot.Keeps.evaluateCondition he hn).after_ok hw hc).1
    exact ⟨h₁, (hown h₁).2.1, trivial⟩
  | elseBranch => exact ⟨hw.after, hn, trivial⟩
  | switch _ hbody =>
    have hmem := Plot.Keeps.mem_of_chosenBody? hbody
    exact ⟨hw.after, (hw.tended.closed_seen hold).child _ _ hn hmem, trivial⟩
  | tryBlock => exact ⟨hw.after, hn, trivial⟩
  | whileLoop hf _ hcomes htests =>
    have h₁ := hcopy hf
    have h₂ := h₁.trans (hcomes.after he (hn.mono h₁.size_le) (h₁.ready hw))
    exact hown (h₂.trans (htests.after he (hn.mono h₂.size_le) (h₂.ready hw)))
  | forEachLoop _ hf hcome hbind =>
    have h₁ := hcopy hf
    have h₂ := h₁.trans (hcome.after he (hn.mono h₁.size_le) (h₁.ready hw))
    exact hown (h₂.trans (bindItem_after (hn.mono h₂.size_le) (h₂.ready hw) hbind))

end Worlds

section Moments

variable {m : Machine} (hm : m.IsCore) {P : Plot} {t s : Moment} (hw : P.Ready t.world)
  (hn : P.Mine t.world.forest.size t.node)

include hm hw hn

theorem Enters.ready {frame : Frame} (h : Enters m t frame s) :
    P.Ready s.world ∧ P.Mine s.world.forest.size s.node ∧ t.world.forest.size ≤ s.world.forest.size ∧
      frame.Within s.world.forest := by
  obtain ⟨site, hopens, hreaches⟩ := h.opens
  have he := hm.keeping s.patience
  have hn' : P.Mine t.world.deeper.forest.size t.node := hn
  obtain ⟨h₁, hscope, hwithin⟩ := hopens.after he hn' hw.deeper
  have hw₁ := h₁.ready hw.deeper
  obtain ⟨h₂, hy⟩ := hreaches.arrives.after he hw₁ hscope
  exact ⟨h₂.ready hw₁, hy, Nat.le_trans h₁.size_le h₂.size_le, hwithin.mono h₂.size_le⟩

theorem Nested.ready {frames : List Frame} (h : Nested m t frames s) :
    P.Ready s.world ∧ P.Mine s.world.forest.size s.node ∧ t.world.forest.size ≤ s.world.forest.size ∧
      ∀ frame ∈ frames, frame.Within s.world.forest := by
  induction h with
  | here => exact ⟨hw, hn, Nat.le_refl _, by simp⟩
  | inside henters hnested ih =>
    obtain ⟨hw₁, hn₁, hle₁, hwithin⟩ := henters.ready hm hw hn
    obtain ⟨hw₂, hn₂, hle₂, hall⟩ := ih hw₁ hn₁
    refine ⟨hw₂, hn₂, Nat.le_trans hle₁ hle₂, fun frame hframe => ?_⟩
    rcases List.mem_cons.mp hframe with rfl | hframe
    · exact hwithin.mono hle₂
    · exact hall frame hframe

end Moments

end EventTree
