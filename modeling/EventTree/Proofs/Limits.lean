import EventTree.Proofs.Balance

/-!
# Limits

The limits on depth and on passes only guard: a run that none of them refused anything comes to the same
under all higher limits. To tell such runs, refusals are watched for. A refused raise or loop gives the
run up where it would come back with its error, before anything can trap it.
-/

namespace EventTree

/-! ## Watching for refusals -/

namespace Action

variable {α : Type}

/-- An outcome, unless it is the error of a refusal. -/
def unrefused : Except Stop α → Except Stop α
  | .error (.error e) => if e.kind = .resourceExhausted then .error .stalled else .error (.error e)
  | outcome => outcome

/-- Gives the run up if an action comes back with a refusal. -/
def watched (act : Action α) : Action α := fun hold => ExceptT.mk do
  return unrefused (← (act hold).run)

theorem result_watched (act : Action α) (hold : Hold) (w : World) :
    act.watched.result hold w = (unrefused (act.result hold w).1, (act.result hold w).2) := rfl

end Action

/-- All raises are watched. -/
def Engine.watched (engine : Engine) : Engine :=
  { engine with
    raiseFlow := fun event n => (engine.raiseFlow event n).watched
    raiseDirect := fun call => (engine.raiseDirect call).watched }

namespace Keyword

/-- The passes of a `while`, up to its ceiling. -/
def loopPasses (engine : Engine) (n pristine : NodeId) : Action Flow := do
  let ceiling ← Action.ask (ceiling engine.settings.maxIterations · n)
  whilePasses engine n pristine ceiling engine.patience 0

theorem whileLoop_eq (engine : Engine) (call : Call) :
    whileLoop engine call = restoring call.node (loopPasses engine call.node) := rfl

/-- A loop whose passes are watched, since putting the loop back may fail and hide that it was refused. -/
def watchedLoop : Handler := fun engine call =>
  restoring call.node fun pristine => (loopPasses engine call.node pristine).watched

end Keyword

/-- A handler that makes only watched raises, and is a watched loop if it answers to `while`. -/
def Handler.watchedFor (event : String) (handler : Handler) : Handler := fun engine call =>
  if event = "while" then Keyword.watchedLoop engine.watched call else handler engine.watched call

namespace Machine

/-- The machine that gives a run up as soon as a raise or a loop was refused. -/
def watched (m : Machine) : Machine where
  settings := m.settings
  table := { m.table with
    statics := m.table.statics.map fun entry => (entry.1, entry.2.watchedFor entry.1) }

/-- What is asked for is done, with a result or an error, and nothing was refused meanwhile. -/
def Unrefused (m : Machine) (patience : Nat) (r : Request) (hold : Hold) (w : World) : Prop :=
  ((r.action (m.watched.engine patience (m.watched.perform patience)).watched).result hold w).1 ≠
    .error .stalled

end Machine

/-! ## Refusals cut runs short -/

/-- A run was given up, or ends with a refusal. -/
def Stop.Refusing : Stop → Prop
  | .stalled => True
  | .error e => e.kind = .resourceExhausted

namespace Action.CutShort

variable {α : Type} {act act' : Action α}

theorem refusing (h : act.CutShort (· = .stalled) act') : act.CutShort Stop.Refusing act' := by
  intro hold w
  rcases h hold w with ⟨stop, rfl, hr⟩ | hr
  · exact .inl ⟨.stalled, trivial, hr⟩
  · exact .inr hr

theorem watched (h : act.CutShort Stop.Refusing act') : act.watched.CutShort (· = .stalled) act' := by
  intro hold w
  rw [result_watched]
  rcases h hold w with ⟨stop, hstop, hr⟩ | hr
  · refine .inl ⟨.stalled, rfl, ?_⟩
    rw [hr]
    cases stop with
    | stalled => rfl
    | error e => exact if_pos hstop
  · -- The other run may be refused as well, and then only this one is given up.
    rw [hr]
    rcases act'.result hold w with ⟨(e | _) | a, w'⟩
    · by_cases he : e.kind = .resourceExhausted
      · exact .inl ⟨.stalled, rfl, if_pos he⟩
      · exact .inr (Prod.ext (if_neg he) rfl)
    · exact .inl ⟨.stalled, rfl, rfl⟩
    · exact .inr rfl

theorem entering {limit limit' : Nat} (hlimit : limit ≤ limit') (event : String) {act act' : Action Flow}
    (h : act.CutShort Stop.Refusing act') :
    (entering limit event act).CutShort Stop.Refusing (entering limit' event act') := by
  intro hold w
  by_cases hdepth : limit ≤ w.session.depth
  · rw [result_entering_of_le hdepth]
    exact .inl ⟨.error (.ofCause (.tooDeep event limit)), rfl, rfl⟩
  · rw [result_entering_of_lt (by omega), result_entering_of_lt (by omega)]
    rcases h hold w.deeper with ⟨stop, hstop, hr⟩ | hr
    · rw [hr]
      cases stop with
      | stalled => exact .inl ⟨.stalled, trivial, rfl⟩
      | error e => exact .inl ⟨.error (e.crossing event), hstop, rfl⟩
    · rw [hr]
      exact .inr rfl

theorem checkCeiling {limit limit' : Nat} (hlimit : limit ≤ limit') (f : Forest) (n : NodeId)
    (passes : Nat) :
    (Keyword.checkCeiling (Keyword.ceiling limit f n) passes).CutShort Stop.Refusing
      (Keyword.checkCeiling (Keyword.ceiling limit' f n) passes) := by
  have hchecked : (Keyword.checkCeiling (some limit) passes).CutShort Stop.Refusing
      (Keyword.checkCeiling (some limit') passes) := by
    unfold Keyword.checkCeiling
    dsimp only
    by_cases hpasses : limit < passes + 1
    · rw [if_pos hpasses]
      exact fun hold w => .inl ⟨.error (.ofCause (.tooManyPasses limit)), rfl, rfl⟩
    · rw [if_neg hpasses, if_neg (by omega)]
      exact refl _
  unfold Keyword.ceiling
  split
  · split
    · exact hchecked
    · exact refl _
  · exact hchecked

end Action.CutShort

/-! ## Runs side by side -/

open EventTree.Action in
/-- Of two runs side by side the first comes to the same as the second, unless it is given up. -/
def sideBySide : Trait Bool where
  holds _ act := (act true).CutShort (· = .stalled) (act false)
  pure _ := .refl _
  fail _ := .refl _
  stall := .refl _
  bind := .bind
  attempt h hn := h.attempt.bind hn
  resume _ _ := .refl _
  holding := .holding
  goingBeside := .goingBeside
  ask _ := .refl _
  observe _ := .refl _
  askStore _ := .refl _
  askSession _ := .refl _
  edit _ := .refl _
  grow _ := .refl _
  editEvents _ := .refl _
  addOverride _ _ := .refl _
  dropOverride _ _ := .refl _
  basing base h hn := (h.basing base).bind hn

/-- Of two runs side by side the first comes to the same as the second, unless it is given up or ends with
a refusal. This is no trait: a refusal that was trapped goes unseen. -/
def SameOrRefused {α : Type} (act : Bool → Action α) : Prop :=
  (act true).CutShort Stop.Refusing (act false)

namespace Machine

variable {m m' : Machine}

theorem handlersOf_while : coreTable.handlersOf "while" = [Keyword.whileLoop] := rfl

theorem eq_whileLoop {handler : Handler} (h : ("while", handler) ∈ coreTable.statics) :
    handler = Keyword.whileLoop := by
  have hmem : handler ∈ coreTable.handlersOf "while" :=
    List.mem_map.mpr ⟨_, List.mem_filter.mpr ⟨h, beq_self_eq_true _⟩, rfl⟩
  rw [handlersOf_while] at hmem
  exact List.mem_singleton.mp hmem

/-- Engines side by side, the second with a higher ceiling for loops. -/
structure Guarding (engine engine' : Engine) : Prop where
  engines : sideBySide.Engines fun b => cond b engine engine'
  ceiling : engine.settings.maxIterations ≤ engine'.settings.maxIterations

namespace Guarding

variable {engine engine' : Engine} (h : Guarding engine engine')

include h

theorem loopPasses (n pristine : NodeId) :
    (Keyword.loopPasses engine n pristine).CutShort Stop.Refusing
      (Keyword.loopPasses engine' n pristine) := by
  intro hold w
  obtain ⟨patience, hpatience⟩ := h.engines.patience
  unfold Keyword.loopPasses
  rw [Action.result_bind_ok (Action.result_ask _), Action.result_bind_ok (Action.result_ask _),
    show engine.patience = patience from hpatience true,
    show engine'.patience = patience from hpatience false]
  have hsame : ∀ {α : Type} {act : Bool → Action α}, sideBySide.holds (fun _ => False) act →
      SameOrRefused act := fun hact => hact.refusing
  have hpasses := Trait.whilePasses hsame (fun hact hnext => hact.bind hnext) h.engines n pristine
    (fun b => Keyword.ceiling (cond b engine engine').settings.maxIterations w.forest n)
    (Action.CutShort.checkCeiling h.ceiling w.forest n) patience 0
  exact hpasses hold w

theorem watchedLoop (call : Call) :
    (Keyword.watchedLoop engine call).CutShort (· = .stalled) (Keyword.whileLoop engine' call) := by
  have hrestoring : sideBySide.holds (fun _ => False) fun b => Keyword.restoring call.node (cond b
      (fun pristine => (Keyword.loopPasses engine call.node pristine).watched)
      (Keyword.loopPasses engine' call.node)) :=
    Trait.restoring call.node fun pristine => (h.loopPasses call.node pristine).watched
  rw [Keyword.whileLoop_eq]
  exact hrestoring

end Guarding

section Core

variable (hm : m.IsCore) (hm' : m'.IsCore) (hdepth : m.settings.maxDepth ≤ m'.settings.maxDepth)
  (hpasses : m.settings.maxIterations ≤ m'.settings.maxIterations)

include hm hm'

theorem events_watched : m.watched.table.events = m'.table.events := by
  unfold watched Table.events
  rw [hm.table_eq, hm'.table_eq]
  simp [Function.comp_def]

include hpasses

theorem guarding {patience : Nat}
    (h : ∀ route call, (m.watched.perform patience route call).CutShort Stop.Refusing
      (m'.perform patience route call)) :
    Guarding (m.watched.engine patience (m.watched.perform patience)).watched
      (m'.engine patience (m'.perform patience)) where
  engines :=
    { raiseFlow := fun _ event n => (h .resolved (.plain event n)).watched
      raiseDirect := fun _ call => (h .direct call).watched
      staticEvents := ⟨m'.table.events, Bool.rec rfl (events_watched hm hm')⟩
      patience := ⟨patience, Bool.rec rfl rfl⟩ }
  ceiling := hpasses

theorem handlers {patience : Nat}
    (h : ∀ route call, (m.watched.perform patience route call).CutShort Stop.Refusing
      (m'.perform patience route call)) :
    sideBySide.Handlers (fun b => cond b m.watched m') fun b =>
      cond b (m.watched.engine patience (m.watched.perform patience))
        (m'.engine patience (m'.perform patience)) where
  listeners := by
    have hcore : coreTable.listeners = [] := rfl
    refine Bool.rec ?_ ?_
    · exact (congrArg Table.listeners hm'.table_eq).trans hcore
    · exact (congrArg Table.listeners hm.table_eq).trans hcore
  statics := by
    have hguarding := guarding hm hm' hpasses h
    refine ⟨coreTable.statics.map fun entry =>
      (entry.1, fun b => cond b (entry.2.watchedFor entry.1) entry.2), ?_, ?_⟩
    · refine Bool.rec ?_ ?_
      · simp [hm'.table_eq, Function.comp_def]
      · simp [watched, hm.table_eq, Function.comp_def]
    · intro entry hentry known call
      obtain ⟨⟨event, handler⟩, hmem, rfl⟩ := List.mem_map.mp hentry
      -- what the watched handler does, by the name that it answers to
      by_cases hwhile : event = "while"
      · subst hwhile
        obtain rfl := eq_whileLoop hmem
        exact hguarding.watchedLoop call
      · have hplain : ∀ engine, handler.watchedFor event engine call = handler engine.watched call :=
          fun engine => if_neg hwhile
        change Action.CutShort _ (handler.watchedFor event _ call) (handler _ call)
        rw [hplain]
        rcases coreTable_keeps (T := sideBySide) _ hmem with hkeeps | heq | heq
        · exact hkeeps _ hguarding.engines known call
        · exact absurd (congrArg Prod.fst heq) hwhile
        · cases heq
          exact .refl _

include hdepth

theorem perform_cutShort (patience : Nat) (route : Route) (call : Call) :
    (m.watched.perform patience route call).CutShort Stop.Refusing (m'.perform patience route call) := by
  induction patience generalizing route call with
  | zero => exact .refl _
  | succ patience ih =>
    rw [perform_succ, perform_succ]
    refine .entering hdepth call.event ?_
    refine .bind (.refl _) fun supers => ?_
    have hinvoke : sideBySide.holds (fun _ => False) _ := (handlers hm hm' hpasses ih).invoke call
    split
    · exact .inTurn fun super => ih .resolved (call.sentOn super)
    · exact hinvoke.refusing

end Core

end Machine

/-- Limits only guard. Whatever is asked of a core session, if it is done and no raise and no loop was
refused meanwhile, then under all higher limits the same comes of it: the same result or error, the same
forest, the same store and the same session. -/
theorem limits_only_guard (m m' : Machine) (hm : m.IsCore) (hm' : m'.IsCore)
    (hdepth : m.settings.maxDepth ≤ m'.settings.maxDepth)
    (hpasses : m.settings.maxIterations ≤ m'.settings.maxIterations) (patience : Nat) (r : Request)
    (hold : Hold) (w : World) (h : m.Unrefused patience r hold w) :
    (r.action (m'.engine patience (m'.perform patience))).result hold w =
      (r.action (m.engine patience (m.perform patience))).result hold w := by
  -- the watched run comes to the same under its own limits and under the higher ones
  have hsame : ∀ n : Machine, n.IsCore → m.settings.maxDepth ≤ n.settings.maxDepth →
      m.settings.maxIterations ≤ n.settings.maxIterations →
      (r.action (m.watched.engine patience (m.watched.perform patience)).watched).result hold w =
        (r.action (n.engine patience (n.perform patience))).result hold w := by
    intro n hn hdepth hpasses
    have hguarding := Machine.guarding hm hn hpasses (Machine.perform_cutShort hm hn hdepth hpasses patience)
    have hholds : sideBySide.holds (fun _ => False) _ := r.holds hguarding.engines
    rcases hholds hold w with ⟨stop, rfl, hstalled⟩ | heq
    · exact absurd hstalled h
    · exact heq
  rw [← hsame m' hm' hdepth hpasses, hsame m hm (Nat.le_refl _) (Nat.le_refl _)]

/-- A world with a `lambda` that takes one pass of a loop and would trap its error. -/
def measured : World where
  forest := (Forest.plant ⟨"lambda", none, [⟨"try", none, [⟨"while", some (.bool true),
    [⟨"break", none, []⟩]⟩]⟩, ⟨"catch", none, []⟩]⟩ .empty).2
  store := default
  session := default

/-- One pass and four events one within the other are just enough. -/
theorem limits_only_guard_of_measured :
    let m : Machine := ⟨⟨1, 4, false⟩, coreTable⟩
    let m' : Machine := ⟨.default, coreTable⟩
    let r : Request := .raise "lambda" ⟨0⟩
    m.Unrefused 8 r ⟨[], []⟩ measured ∧
      ((r.action (m.engine 8 (m.perform 8))).result ⟨[], []⟩ measured).1 = .ok () ∧
      (r.action (m'.engine 8 (m'.perform 8))).result ⟨[], []⟩ measured =
        (r.action (m.engine 8 (m.perform 8))).result ⟨[], []⟩ measured := by
  intro m m' r
  have hunrefused : m.Unrefused 8 r ⟨[], []⟩ measured := by
    unfold Machine.Unrefused
    decide +kernel
  refine ⟨hunrefused, by decide +kernel, ?_⟩
  exact limits_only_guard m m' (Machine.isCore_coreTable _) (Machine.isCore_coreTable _) (by decide)
    (by decide) 8 r ⟨[], []⟩ measured hunrefused

-- a refusal that the program traps is still one
example :
    let m : Machine := ⟨⟨0, 4, false⟩, coreTable⟩
    let r : Request := .raise "lambda" ⟨0⟩
    ((r.action (m.engine 8 (m.perform 8))).result ⟨[], []⟩ measured).1 = .ok () ∧
      ¬ m.Unrefused 8 r ⟨[], []⟩ measured := by
  unfold Machine.Unrefused
  decide +kernel

end EventTree
