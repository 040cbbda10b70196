import EventTree.Proofs.Core
import EventTree.Proofs.Trait
import Mathlib.Data.List.Basic

/-!
# Keywords keep all traits

Every keyword of the core keeps every trait, but for the one that takes over stored overrides and, where
engines differ in the ceiling of loops, `while`.
-/

namespace EventTree

namespace Trait

variable {ι : Type} {T : Trait ι} {known : Error → Prop}

/-! ## Boundaries and sequences -/

theorem copyEach (n : NodeId) (children : List NodeId) :
    T.holds known fun _ => Action.forEach children fun child => (do
      let child ← Action.copy child
      Action.insert n none child) :=
  forEach fun child => T.bind (T.copy child) fun _ => T.insert _ _ _

theorem settleOn (n : NodeId) (flow : Flow) : T.holds known fun _ => EventTree.settleOn n flow := by
  cases flow with
  | normal => exact T.pure ()
  | breaking | continuing => exact T.bind (T.ask _) fun _ => T.fail _
  | returning r =>
    have hlast : T.holds known fun _ => (do
        Action.forEach (← Action.ask (·.children r)) fun c => Action.insert n none c) :=
      T.bind (T.ask _) fun _ => forEach fun _ => T.insert _ _ _
    refine T.bind (T.ask _) fun v => T.bind (T.edit _) fun _ => ?_
    cases v with
    | none => exact hlast
    | some v => exact T.bind (T.setValue _ _) fun _ => hlast

section Engines

variable {engine : ι → Engine} (he : T.Engines engine)

include he

theorem raise (event : String) (n : NodeId) : T.holds known fun i => (engine i).raise event n :=
  T.bind (he.raiseFlow known event n) fun flow => settleOn n flow

theorem callBase (call : Call) : T.holds known fun i => (engine i).callBase call := by
  unfold Engine.callBase
  split
  · exact T.normal
  · exact he.raiseDirect known _

theorem executeFrom (scope : NodeId) (fuel position : Nat) :
    T.holds known fun i => Keyword.executeFrom (engine i) scope fuel position := by
  induction fuel generalizing position with
  | zero => exact T.stall
  | succ fuel ih =>
    refine T.bind (T.ask _) fun statement => ?_
    cases statement with
    | none => exact T.normal
    | some statement =>
      refine andThen (T.bind (T.ask _) fun name => ?_) (T.bind (T.ask _) fun next => ih next)
      split
      · exact T.normal
      · exact he.raiseFlow known name statement

theorem execute (scope : NodeId) (position : Nat) :
    T.holds known fun i => Keyword.execute (engine i) scope position := by
  obtain ⟨patience, hpatience⟩ := he.patience
  unfold Keyword.execute
  simp only [hpatience]
  exact T.holding _ (executeFrom he scope patience position)

theorem evalEach (n : NodeId) (targets : List NodeId) :
    T.holds known fun i => Keyword.evalEach (engine i) n targets := by
  induction targets with
  | nil => exact T.pure ()
  | cons target rest ih =>
    refine T.bind (T.holding _ ?_) fun _ => ih
    exact T.bind (T.copy target) fun body => T.bind (execute he body 0) fun flow => settleOn n flow

end Engines

/-! ## Conditions -/

theorem clearMarkers (n : NodeId) : T.holds known fun _ => Keyword.clearMarkers n :=
  T.bind (T.ask _) fun _ => forEach fun marker => T.untie marker

section Engines

variable {engine : ι → Engine} (he : T.Engines engine)

include he

theorem operatorNames : T.holds known fun i => Keyword.operatorNames (engine i) :=
  T.bind (T.create _) fun n => T.bind (raise he _ n) fun _ => T.ask _

theorem runCondition (n condition : NodeId) :
    T.holds known fun i => Keyword.runCondition (engine i) n condition :=
  T.bind (T.ask _) fun name => T.bind (raise he name condition) fun _ => T.bind (T.ask _) fun _ => T.edit _

theorem testNode (n : NodeId) : T.holds known fun i => Keyword.testNode (engine i) n := by
  refine T.bind (operatorNames he) fun operators => T.bind (T.ask _) fun found => ?_
  refine T.bind (T.ofExcept found) fun found => ?_
  refine T.bind (forEach fun condition => runCondition he n condition) fun _ => ?_
  exact T.bind (T.observe _) fun _ => T.bind (T.setValue _ _) fun _ => T.pure _

theorem evaluateCondition (n : NodeId) :
    T.holds known fun i => Keyword.evaluateCondition (engine i) n := by
  refine T.holding _ (T.attempt (testNode he n) fun outcome => ?_)
  refine T.attempt (clearMarkers n) fun cleared => ?_
  refine T.bind (T.resume outcome fun e h => .inl (.inr h)) fun _ => ?_
  exact T.bind (T.resume cleared fun e h => .inr h) fun _ => T.pure _

end Engines

theorem conditionalParent (n : NodeId) : T.holds known fun _ => Keyword.conditionalParent n := by
  refine T.bind (T.observe _) fun parent => ?_
  cases parent with
  | some p => exact T.pure p
  | none => exact T.bind (T.ask _) fun _ => T.fail _

theorem previousCondition (n : NodeId) : T.holds known fun _ => Keyword.previousCondition n := by
  refine T.bind (conditionalParent n) fun parent => T.bind (T.ask _) fun hadValue => ?_
  refine T.bind (T.observe _) fun value => T.bind (T.setValue _ _) fun _ => ?_
  refine T.bind (T.observe _) fun previous => ?_
  cases previous with
  | some previous => exact T.pure _
  | none =>
    dsimp only
    split
    · exact T.pure _
    · exact T.bind (T.ask _) fun _ => T.fail _

theorem setMarker (n : NodeId) (value : Bool) : T.holds known fun _ => Keyword.setMarker n value := by
  refine T.bind (T.ask _) fun marker => ?_
  cases marker with
  | some marker => exact T.setValue _ _
  | none => exact T.bind (T.createWith _ _) fun _ => T.insert _ _ _

/-! ## Assignments -/

theorem destination (n : NodeId) : T.holds known fun _ => Keyword.destination n := by
  refine T.bind (T.ask _) fun v => ?_
  split
  · exact T.pure _
  · exact T.bind (T.ask _) fun _ => T.fail _

theorem assigned {engine : ι → Engine} (he : T.Engines engine) (n : NodeId) :
    T.holds known fun i => Keyword.assigned (engine i) n := by
  refine T.bind (T.ask _) fun source => ?_
  cases source with
  | some source => exact T.observe _
  | none =>
    refine T.bind (T.ask _) fun statement => ?_
    cases statement with
    | none => exact T.pure none
    | some statement =>
      refine T.bind (T.ask _) fun name => ?_
      split
      · exact T.pure none
      · exact T.bind (raise he name statement) fun _ => T.observe _

theorem replaceBy (source : Option LiveValue) (n : NodeId) :
    T.holds known fun _ => Keyword.replaceBy source n := by
  unfold Keyword.replaceBy
  split
  · exact T.untie n
  · exact T.bind (T.copy _) fun other => T.replace n other
  · exact T.bind (T.ask _) fun _ => T.fail _

theorem contributed (source : NodeId) : T.holds known fun _ => Keyword.contributed source := by
  refine T.bind (T.ask _) fun v => ?_
  split
  · refine T.bind (T.observe _) fun found => ?_
    split
    · exact T.pure _
    · exact T.bind (T.ask _) fun _ => gather fun _ => T.createWith _ _
  · exact T.pure _
  · exact T.ask _

/-! ## Loops and branches -/

theorem restore (n pristine : NodeId) : T.holds known fun _ => Keyword.restore n pristine :=
  T.bind (T.edit _) fun _ => T.bind (T.ask _) fun v => T.bind (T.copyValue v) fun _ =>
    T.bind (T.edit _) fun _ => T.bind (T.ask _) fun children => copyEach n children

theorem restoring (n : NodeId) {loop : ι → NodeId → Action Flow}
    (h : ∀ pristine, T.holds known fun i => loop i pristine) :
    T.holds known fun i => Keyword.restoring n (loop i) := by
  refine T.bind (T.copy n) fun pristine => T.attempt (h pristine) fun outcome => ?_
  exact T.bind (restore n pristine) fun _ => T.resume outcome fun e h => .inr h

theorem checkCeiling (ceiling : Option Nat) (passes : Nat) :
    T.holds known fun _ => Keyword.checkCeiling ceiling passes := by
  unfold Keyword.checkCeiling
  split
  · exact T.pure ()
  · split
    · exact T.fail _
    · exact T.pure ()

/-- What can be said of all parts of a pass and of one part after the other, can be said of all passes. It
need not be the trait itself, so that more may be said of loops with other ceilings. -/
theorem whilePasses {kept : {α : Type} → (ι → Action α) → Prop}
    (hkept : ∀ {α : Type} {act : ι → Action α}, T.holds known act → kept act)
    (hbind : ∀ {α β : Type} {act : ι → Action α} {next : ι → α → Action β}, kept act →
      (∀ a, kept fun i => next i a) → kept fun i => act i >>= next i)
    {engine : ι → Engine} (he : T.Engines engine) (n pristine : NodeId) (ceiling : ι → Option Nat)
    (hceiling : ∀ passes, kept fun i => Keyword.checkCeiling (ceiling i) passes) (fuel passes : Nat) :
    kept fun i => Keyword.whilePasses (engine i) n pristine (ceiling i) fuel passes := by
  induction fuel generalizing passes with
  | zero => exact hkept T.stall
  | succ fuel ih =>
    refine hbind (hkept (evaluateCondition he n)) fun condition => ?_
    split
    · refine hbind (hceiling passes) fun _ => hbind (hkept (execute he n _)) fun flow => ?_
      refine hbind (hkept (restore n pristine)) fun _ => ?_
      cases flow with
      | breaking | returning => exact hkept (T.pure _)
      | normal | continuing => exact ih (passes + 1)
    · exact hkept T.normal

theorem whileLoop {engine : ι → Engine} (he : T.Engines engine)
    (hlimit : ∃ limit, ∀ i, (engine i).settings.maxIterations = limit) (call : Call) :
    T.holds known fun i => Keyword.whileLoop (engine i) call := by
  obtain ⟨patience, hpatience⟩ := he.patience
  obtain ⟨limit, hlimit⟩ := hlimit
  unfold Keyword.whileLoop
  simp only [hpatience, hlimit]
  refine restoring call.node fun pristine => T.bind (T.ask _) fun ceiling => ?_
  exact whilePasses id T.bind he call.node pristine (fun _ => ceiling) (checkCeiling ceiling) patience 0

theorem itemPasses {engine : ι → Engine} (he : T.Engines engine) (n pristine : NodeId)
    (items : List (Option LiveValue)) :
    T.holds known fun i => Keyword.itemPasses (engine i) n pristine items := by
  induction items with
  | nil => exact T.normal
  | cons item rest ih =>
    refine T.bind (restore n pristine) fun _ => T.bind (T.copyValue item) fun value => ?_
    refine T.bind (T.createWith _ _) fun bound => T.bind (T.insert _ _ _) fun _ => ?_
    refine T.bind (T.holding _ (execute he n 0)) fun flow => ?_
    cases flow with
    | breaking | returning => exact T.pure _
    | normal | continuing => exact ih

theorem earlierTaken (n : NodeId) : T.holds known fun _ => Keyword.earlierTaken n := by
  refine T.bind (T.observe _) fun taken => ?_
  cases taken with
  | some taken => exact T.pure taken
  | none => exact T.bind (T.ask _) fun _ => T.fail _

theorem branch {engine : ι → Engine} (he : T.Engines engine) (n : NodeId) :
    T.holds known fun i => Keyword.branch (engine i) n := by
  refine T.bind (evaluateCondition he n) fun condition => ?_
  split
  · exact execute he n _
  · exact T.normal

/-! ## Traps -/

theorem settle {engine : ι → Engine} (he : T.Engines engine) (n : NodeId) (last : Option NodeId)
    (pending : Except Error Flow) (hknown : ∀ e, pending = .error e → known e) :
    T.holds known fun i => Keyword.settle (engine i) n last pending := by
  cases last with
  | none => exact T.resume pending hknown
  | some last =>
    refine T.bind (T.goingBeside n last (execute he last 0)) fun flow => ?_
    split
    · exact T.resume pending hknown
    · exact T.pure flow

theorem leaveTrapped (scope : NodeId) (e : Error) :
    T.holds known fun _ => Keyword.leaveTrapped scope e := by
  have hplant : T.holds known fun _ => (do
      let n ← Action.plant (Keyword.trapped e)
      Action.insert scope (some 0) n) := T.bind (T.plant _) fun _ => T.insert _ _ _
  refine T.bind (T.ask _) fun stale => ?_
  cases stale with
  | none => exact hplant
  | some stale => exact T.bind (T.untie stale) fun _ => hplant

theorem untieFrom (parent : NodeId) (nodes : List NodeId) :
    T.holds known fun _ => Keyword.untieFrom parent nodes := by
  refine forEach fun n => T.bind (T.ask _) fun p => ?_
  split
  · exact T.untie n
  · exact T.pure ()

theorem insertAll (parent : NodeId) (position : Nat) (nodes : List NodeId) :
    T.holds known fun _ => Keyword.insertAll parent position nodes := by
  induction nodes generalizing position with
  | nil => exact T.pure ()
  | cons n rest ih => exact T.bind (T.insert _ _ _) fun _ => ih (position + 1)

/-! ## Declared events -/

theorem listNames (n : NodeId) (filters : List String) (origin : String) (names : List String) :
    T.holds known fun _ => Keyword.listNames n filters origin names := by
  refine forEach fun name => ?_
  split
  · exact T.bind (T.grow _) fun _ => T.pure ()
  · exact T.pure ()

end Trait

/-! ## Handlers -/

/-- A handler keeps a trait if it has the trait on all engines that have it. -/
def Handler.Keeps {ι : Type} (handler : Handler) (T : Trait ι) : Prop :=
  ∀ engine : ι → Engine, T.Engines engine → ∀ known call, T.holds known fun i => handler (engine i) call

namespace Handler.Keeps

open Trait

variable {ι : Type} {T : Trait ι}

theorem lambda : Handler.Keeps Keyword.lambda T := fun _ he _ call => execute he call.node 0

theorem eval : Handler.Keeps Keyword.eval T := fun _ he _ call =>
  T.bind (T.observe _) fun targets => thenNormal (evalEach he call.node targets)

theorem returnStatement : Handler.Keeps Keyword.returnStatement T := by
  intro engine _ known call
  refine T.bind (T.ask _) fun name => T.bind (T.create name) fun returned => ?_
  refine T.bind (T.observe _) fun v => T.bind (T.copyValue v) fun v => T.bind (T.edit _) fun _ => ?_
  exact T.bind (T.ask _) fun children => T.bind (copyEach returned children) fun _ => T.pure _

theorem ending (flow : Flow) : Handler.Keeps (fun _ _ => return flow) T := fun _ _ _ _ => T.pure _

theorem set : Handler.Keeps Keyword.set T := by
  intro engine he known call
  refine T.bind (destination _) fun selector => T.bind (assigned he _) fun source => ?_
  refine T.bind (T.observe _) fun found => ?_
  dsimp only
  split
  · exact thenNormal (forEach fun n => T.bind (T.copyValue source) fun _ => T.edit _)
  · exact T.bind (T.ask _) fun _ => thenNormal (forEach fun _ => T.edit _)
  · exact thenNormal (T.holding _ (forEach fun n => replaceBy source n))
  · exact thenNormal (T.fail _)

theorem add : Handler.Keeps Keyword.add T := by
  intro engine he known call
  refine T.bind (destination _) fun selector => T.bind (T.observe _) fun found => ?_
  have hcopies : T.holds known fun _ => (do
      let sources ← Action.ask (·.findAll call.node Keyword.sourceName)
      let copies ← Action.gather sources fun source => do
        Action.gather (← Keyword.contributed source) Action.copy
      Action.forEach found.nodes fun destination =>
        Action.forEach copies.flatten fun n => do
          let child ← Action.copy n
          Action.insert destination none child
      return Flow.normal) := by
    refine T.bind (T.ask _) fun sources => ?_
    refine T.bind (gather fun source => T.bind (contributed source) fun _ => gather T.copy)
      fun copies => ?_
    exact thenNormal (forEach fun destination => copyEach destination _)
  dsimp only
  split
  · exact T.bind (T.fail _) fun _ => hcopies
  · exact hcopies

theorem compared (test : Ordering → Bool) : Handler.Keeps (Keyword.compared test) T := fun _ _ _ _ =>
  T.bind (conditionalParent _) fun _ => T.bind (T.observe _) fun _ => T.bind (T.ask _) fun _ =>
    thenNormal (T.setValue _ _)

theorem containing (wanted : Bool) : Handler.Keeps (Keyword.containing wanted) T := fun _ _ _ _ =>
  T.bind (conditionalParent _) fun _ => T.bind (T.observe _) fun _ => thenNormal (T.setValue _ _)

theorem naming (names : List String) : Handler.Keeps (Keyword.naming names) T := fun _ _ _ _ =>
  thenNormal (forEach fun _ => T.bind (T.grow _) fun _ => T.pure ())

theorem or : Handler.Keeps Keyword.or T := by
  intro engine he known call
  refine T.bind (previousCondition _) fun found => T.bind (T.ask _) fun isTrue => ?_
  dsimp only
  split
  · exact T.bind (T.setValue _ _) fun _ => thenNormal (setMarker _ _)
  · refine thenNormal (T.holding _ (T.bind (evaluateCondition he _) fun own => ?_))
    split
    · exact setMarker _ _
    · exact clearMarkers _

theorem and : Handler.Keeps Keyword.and T := by
  intro engine he known call
  refine T.bind (previousCondition _) fun found => T.bind (T.ask _) fun marked => ?_
  dsimp only
  split
  · exact thenNormal (T.setValue _ _)
  · refine T.bind (T.ask _) fun isTrue => ?_
    split
    · exact T.bind (T.holding _ (evaluateCondition he _)) fun _ => thenNormal (T.pure ())
    · exact thenNormal (T.setValue _ _)

theorem not : Handler.Keeps Keyword.not T := by
  intro engine he known call
  refine T.bind (T.ask _) fun misplaced => ?_
  have hrest : T.holds known fun _ => (do
      let found ← Keyword.previousCondition call.node
      Keyword.clearMarkers found.1
      let value ← Keyword.isTrue found.2
      Action.setValue call.node (.bool !value)
      return Flow.normal) :=
    T.bind (previousCondition _) fun _ => T.bind (clearMarkers _) fun _ => T.bind (T.ask _) fun _ =>
      thenNormal (T.setValue _ _)
  dsimp only
  split
  · exact T.bind (T.fail _) fun _ => hrest
  · exact hrest

theorem ifBranch : Handler.Keeps Keyword.ifBranch T := fun _ he _ call => branch he call.node

theorem elseIfBranch : Handler.Keeps Keyword.elseIfBranch T := by
  intro engine he known call
  refine T.bind (earlierTaken _) fun taken => ?_
  split
  · exact T.normal
  · exact branch he _

theorem elseBranch : Handler.Keeps Keyword.elseBranch T := by
  intro engine he known call
  have hrest : T.holds known fun i => (do
      if ← Keyword.earlierTaken call.node then return Flow.normal
      else Keyword.execute (engine i) call.node 0) := by
    refine T.bind (earlierTaken _) fun taken => ?_
    split
    · exact T.normal
    · exact execute he _ 0
  refine T.bind (T.ask _) fun hasValue => ?_
  dsimp only
  split
  · exact T.bind (T.fail _) fun _ => hrest
  · exact hrest

theorem forEachLoop : Handler.Keeps Keyword.forEachLoop T := fun _ he _ call =>
  T.bind (T.observe _) fun items => T.bind (T.ofExcept items) fun items =>
    restoring call.node fun pristine => itemPasses he call.node pristine items

theorem switch : Handler.Keeps Keyword.switch T := by
  intro engine he known call
  refine T.bind (T.ask _) fun fault => T.bind (T.failIf fault) fun _ => T.bind (T.observe _) fun value => ?_
  refine T.bind (T.observe _) fun body => ?_
  cases body with
  | some body => exact T.holding _ (execute he body 0)
  | none => exact T.normal

theorem tryBlock : Handler.Keeps Keyword.tryBlock T := by
  intro engine he known call
  refine T.bind (T.observe _) fun rescue => T.bind (T.ofExcept rescue) fun rescue => ?_
  refine T.attempt (execute he call.node 0) fun outcome => ?_
  cases outcome with
  | ok flow =>
    cases flow with
    | normal => exact T.normal
    | breaking | continuing | returning => exact settle he _ _ _ fun e h => by cases h
  | error e =>
    refine T.bind (T.observe _) fun scope => ?_
    split
    · exact thenNormal (leaveTrapped _ e)
    · exact T.holding _ (settle he _ _ _ fun e h => .inr h)

theorem catchBlock : Handler.Keeps Keyword.catchBlock T := by
  intro engine he known call
  refine T.bind (T.observe _) fun scope => ?_
  cases scope with
  | none => exact T.fail _
  | some scope =>
    refine T.holding _ (T.bind (T.ask _) fun caught => ?_)
    cases caught with
    | none => exact T.normal
    | some caught =>
      refine T.bind (T.untie caught) fun _ => T.bind (T.ask _) fun details => ?_
      refine T.bind (insertAll _ _ _) fun _ => T.attempt (execute he _ _) fun outcome => ?_
      refine T.bind (untieFrom _ _) fun _ => ?_
      split
      · exact T.normal
      · exact T.bind (T.observe _) fun last => settle he _ last _ fun e h => .inr h

theorem finallyBlock : Handler.Keeps Keyword.finallyBlock T := by
  intro engine he known call
  refine T.bind (T.observe _) fun placed => ?_
  split
  · exact execute he _ 0
  · exact T.fail _

theorem throwStatement : Handler.Keeps Keyword.throwStatement T := by
  intro engine _ known call
  refine T.bind (T.observe _) fun message => ?_
  cases message with
  | some message => exact T.fail _
  | none => exact T.fail _

theorem declareEvent : Handler.Keeps Keyword.declareEvent T := by
  intro engine _ known call
  refine T.bind (T.observe _) fun names => T.bind (T.ofExcept names) fun names => ?_
  refine T.bind (T.ask _) fun bodies => ?_
  have hrest : T.holds known fun _ => (do
      Action.forEach names fun name => Action.editStore (·.declare name bodies)
      return Flow.normal) := thenNormal (forEach fun _ => T.editEvents fun _ => rfl)
  dsimp only
  split
  · exact T.bind (T.fail _) fun _ => hrest
  · exact hrest

theorem overrides_remove (s : EventStore) (name : String) : (s.remove name).overrides = s.overrides := by
  unfold EventStore.remove
  split
  · rfl
  · rfl

theorem removeEvent : Handler.Keeps Keyword.removeEvent T := fun _ _ _ _ =>
  T.bind (T.observe _) fun names => T.bind (T.ofExcept names) fun _ =>
    thenNormal (forEach fun name => T.editEvents fun s => overrides_remove s name)

theorem runDeclared : Handler.Keeps Keyword.runDeclared T := by
  intro engine he known call
  refine T.bind (T.askStore _) fun bodies => ?_
  cases bodies with
  | none => exact T.normal
  | some snapshots =>
    refine T.bind (gather fun t => T.ofExcept (Tree.readSelectors t)) fun trees => ?_
    refine T.bind (gather T.plant) fun bodies => T.bind (forEach fun body => T.insert _ _ body) fun _ => ?_
    refine T.basing _ (inTurn fun body _ => he.raiseFlow known "lambda" body) fun outcome => ?_
    refine T.bind (untieFrom _ _) fun _ => T.bind (T.resume outcome fun e h => .inr h) fun flow => ?_
    exact thenNormal (Trait.settleOn _ flow)

theorem overrideEvent : Handler.Keeps Keyword.overrideEvent T := fun _ _ _ _ =>
  T.bind (T.observe _) fun pairs => T.bind (T.ofExcept pairs) fun _ =>
    thenNormal (forEach fun pair => T.addOverride pair.1 pair.2)

theorem removeOverride : Handler.Keeps Keyword.removeOverride T := fun _ _ _ _ =>
  T.bind (T.observe _) fun pairs => T.bind (T.ofExcept pairs) fun _ =>
    thenNormal (forEach fun pair => T.dropOverride pair.1 pair.2)

theorem callBase : Handler.Keeps Keyword.callBase T := by
  intro engine he known call
  refine T.bind (T.askSession _) fun base => ?_
  cases base with
  | some base => exact he.raiseDirect known base
  | none => exact T.normal

theorem listEvents : Handler.Keeps Keyword.listEvents T := by
  intro engine he known call
  obtain ⟨events, hevents⟩ := he.staticEvents
  have hnote : T.holds known fun _ => Action.editStore (·.noting .names) := T.editEvents fun _ => rfl
  refine T.bind (T.observe _) fun filters => T.bind (T.askSession _) fun instances => ?_
  refine T.bind hnote fun _ => T.bind (T.askStore _) fun declared => ?_
  simp only [hevents]
  refine T.bind (listNames _ _ _ _) fun _ => T.bind (listNames _ _ _ _) fun _ => ?_
  exact thenNormal (listNames _ _ _ _)

end Handler.Keeps

/-! ## The core -/

open Handler.Keeps in
theorem coreTable_keeps {ι : Type} {T : Trait ι} :
    ∀ entry ∈ coreTable.statics, Handler.Keeps entry.2 T ∨ entry = ("while", Keyword.whileLoop) ∨
      entry = (Keyword.startEvent, Keyword.takeOverrides) := by
  refine List.forall_iff_forall_mem.mp ?_
  -- One after the other, in the order in which the core loads them.
  exact ⟨.inl lambda, .inl eval, .inl returnStatement, .inl (ending _), .inl (ending _),
    .inl set, .inl add,
    .inl (compared _), .inl (compared _), .inl (compared _), .inl (compared _), .inl (compared _),
    .inl (compared _), .inl (containing _), .inl (containing _), .inl (naming _),
    .inl or, .inl and, .inl not, .inl (naming _),
    .inl ifBranch, .inl elseIfBranch, .inl elseBranch,
    .inr (.inl rfl), .inl forEachLoop,
    .inl tryBlock, .inl catchBlock, .inl finallyBlock, .inl throwStatement,
    .inl switch,
    .inl declareEvent, .inl removeEvent, .inl overrideEvent, .inl removeOverride, .inl callBase,
    .inl listEvents, .inr (.inr rfl), .inl runDeclared⟩

end EventTree
