import EventTree.Dispatch

/-!
# Results of actions

What an action comes to under a hold, from a world: an outcome and the world that it leaves. Each way
of making actions has one equation here; later proofs use these and never open the monad.
-/

namespace EventTree.Action

variable {α β : Type}

/-- The outcome of an action and the world that it leaves. -/
def result (act : Action α) (hold : Hold) (w : World) : Except Stop α × World :=
  (act hold).run.run w

/-- Hands the result of one action to the next; an action that stopped is the end. -/
def onward (next : α → World → Except Stop β × World) : Except Stop α × World → Except Stop β × World
  | (.ok a, w) => next a w
  | (.error stop, w) => (.error stop, w)

section

variable {hold : Hold} {w : World}

@[simp]
theorem result_pure (a : α) : (pure a : Action α).result hold w = (.ok a, w) := rfl

theorem result_bind (act : Action α) (next : α → Action β) :
    (act >>= next).result hold w =
      onward (fun a w => (next a).result hold w) (act.result hold w) := by
  simp only [result, bind, ReaderT.bind, ExceptT.bind, ExceptT.run, ExceptT.mk, ExceptT.bindCont,
    StateT.bind, StateT.run]
  split
  rename_i h
  rw [h]
  rename_i r _
  cases r <;> rfl

theorem result_bind_ok {act : Action α} {next : α → Action β} {a : α} {w' : World}
    (h : act.result hold w = (.ok a, w')) :
    (act >>= next).result hold w = (next a).result hold w' := by
  rw [result_bind, h]; rfl

theorem result_bind_error {act : Action α} {next : α → Action β} {stop : Stop} {w' : World}
    (h : act.result hold w = (.error stop, w')) :
    (act >>= next).result hold w = (.error stop, w') := by
  rw [result_bind, h]; rfl

@[simp]
theorem result_throw (stop : Stop) :
    (throw stop : Action α).result hold w = (.error stop, w) := rfl

@[simp]
theorem result_fail (cause : Cause) :
    (fail cause : Action α).result hold w = (.error (.error (.ofCause cause)), w) := rfl

@[simp]
theorem result_failIf_none : (failIf none).result hold w = (.ok (), w) := rfl

@[simp]
theorem result_failIf_some (cause : Cause) :
    (failIf (some cause)).result hold w = (.error (.error (.ofCause cause)), w) := rfl

@[simp]
theorem result_ofExcept_ok (a : α) : (ofExcept (.ok a)).result hold w = (.ok a, w) := rfl

@[simp]
theorem result_ofExcept_error (cause : Cause) :
    (ofExcept (.error cause) : Action α).result hold w =
      (.error (.error (.ofCause cause)), w) := rfl

/-- What is handed on of an outcome. -/
def handedOn : Except Stop α × World → Except Stop (Except Error α) × World
  | (.ok a, w) => (.ok (.ok a), w)
  | (.error (.error e), w) => (.ok (.error e), w)
  | (.error .stalled, w) => (.error .stalled, w)

theorem result_attempt (act : Action α) :
    (attempt act).result hold w = handedOn (act.result hold w) := by
  simp only [result, attempt, ExceptT.run, ExceptT.mk, bind, StateT.bind, StateT.run]
  split
  rename_i h
  rw [h]
  rename_i r _
  rcases r with (e | _) | a <;> rfl

/-- What an outcome that was handed on is again when it is given. -/
def resumed : Except Error α → Except Stop α
  | .ok a => .ok a
  | .error e => .error (.error e)

theorem result_resume (r : Except Error α) : (resume r).result hold w = (resumed r, w) := by
  cases r <;> rfl

theorem resumed_eq_ok_iff {r : Except Error α} {a : α} : resumed r = .ok a ↔ r = .ok a := by
  cases r <;> simp [resumed]

theorem exists_resumed {outcome : Except Stop α} (h : outcome ≠ .error .stalled) :
    ∃ r, outcome = resumed r := by
  rcases outcome with (e | _) | a
  · exact ⟨.error e, rfl⟩
  · exact absurd rfl h
  · exact ⟨.ok a, rfl⟩

theorem handedOn_resumed (r : Except Error α) : handedOn (resumed r, w) = (.ok r, w) := by
  cases r <;> rfl

/-! ## Holding nodes -/

@[simp]
theorem result_holding (nodes : List NodeId) (act : Action α) :
    (holding nodes act).result hold w = act.result (hold.adding nodes) w := rfl

@[simp]
theorem result_goingBeside (n other : NodeId) (act : Action α) :
    (goingBeside n other act).result hold w = act.result (hold.goingBeside n other) w := rfl

/-! ## Forest, store and session -/

@[simp]
theorem result_ask (read : Forest → α) : (ask read).result hold w = (.ok (read w.forest), w) := rfl

@[simp]
theorem result_observe (look : Forest → α) :
    (observe look).result hold w = (.ok (look (w.forest.seen hold)), w) := rfl

@[simp]
theorem result_edit (change : Forest → Forest) :
    (edit change).result hold w = (.ok (), { w with forest := change w.forest }) := rfl

@[simp]
theorem result_grow (change : Forest → α × Forest) :
    (grow change).result hold w =
      (.ok (change w.forest).1, { w with forest := (change w.forest).2 }) := rfl

@[simp]
theorem result_setValue (n : NodeId) (v : LiveValue) :
    (setValue n v).result hold w =
      (.ok (), { w with forest := w.forest.setValue n (some v) }) := rfl

@[simp]
theorem result_askStore (read : EventStore → α) :
    (askStore read).result hold w = (.ok (read w.store), w) := rfl

@[simp]
theorem result_editStore (change : EventStore → EventStore) :
    (editStore change).result hold w = (.ok (), { w with store := change w.store }) := rfl

@[simp]
theorem result_askSession (read : Session → α) :
    (askSession read).result hold w = (.ok (read w.session), w) := rfl

@[simp]
theorem result_editSession (change : Session → Session) :
    (editSession change).result hold w = (.ok (), { w with session := change w.session }) := rfl

theorem result_insert_of_none {p c : NodeId} {position : Option Nat}
    (h : w.forest.insertFault? p position c = none) :
    (insert p position c).result hold w =
      (.ok (), { w with forest := w.forest.moveTo p position c }) := by
  unfold insert
  rw [result_bind_ok (result_ask _), h, result_bind_ok result_failIf_none, result_edit]

theorem result_insert_of_some {p c : NodeId} {position : Option Nat} {cause : Cause}
    (h : w.forest.insertFault? p position c = some cause) :
    (insert p position c).result hold w = (.error (.error (.ofCause cause)), w) := by
  unfold insert
  rw [result_bind_ok (result_ask _), h, result_bind_error (result_failIf_some _)]

theorem result_untie {n p : NodeId} (h : (w.forest.seen hold).parent n = some p) :
    (untie n).result hold w = (.ok (), { w with forest := w.forest.detach n }) := by
  have hf : (w.forest.seen hold).untieFault? n = none := by
    rw [Forest.untieFault?, if_neg (by simp [h])]
  unfold untie
  rw [result_bind_ok (result_observe _), hf, result_bind_ok result_failIf_none, result_edit]

end

end Action

/-! ## Counting events -/

namespace World

/-- The world with one more event being raised. -/
def deeper (w : World) : World :=
  { w with session := { w.session with depth := w.session.depth + 1 } }

/-- The world with one event less being raised. -/
def shallower (w : World) : World :=
  { w with session := { w.session with depth := w.session.depth - 1 } }

theorem deeper_shallower {w : World} {depth : Nat} (h : w.session.depth = depth + 1) :
    w.shallower.deeper = w := by
  have hdepth : w.session.depth - 1 + 1 = w.session.depth := by omega
  rw [deeper, shallower]
  simp only [hdepth]

/-- The world with another forest. -/
def on (w : World) (f : Forest) : World := { w with forest := f }

@[simp]
theorem forest_on (w : World) (f : Forest) : (w.on f).forest = f := rfl

@[simp]
theorem on_on (w : World) (f g : Forest) : (w.on f).on g = w.on g := rfl

theorem deeper_on (w : World) (f : Forest) : (w.on f).deeper = w.deeper.on f := rfl

end World

namespace Action

theorem result_setValue_on {hold : Hold} {w : World} (f : Forest) (n : NodeId) (v : LiveValue) :
    (setValue n v).result hold (w.on f) = (.ok (), w.on (f.setValue n (some v))) := rfl

theorem result_entering_of_le {limit : Nat} {event : String} {act : Action Flow} {hold : Hold}
    {w : World} (h : limit ≤ w.session.depth) :
    (entering limit event act).result hold w =
      (.error (.error (.ofCause (.tooDeep event limit))), w) := by
  simp only [result, entering, ExceptT.run, ExceptT.mk, bind, StateT.bind, StateT.run, get, getThe,
    MonadStateOf.get, StateT.get, pure, h, if_true]
  rfl

theorem result_entering_of_lt {limit : Nat} {event : String} {act : Action Flow} {hold : Hold}
    {w : World} (h : w.session.depth < limit) :
    (entering limit event act).result hold w =
      (crossing event (act.result hold w.deeper).1, (act.result hold w.deeper).2.shallower) := by
  simp only [result, entering, ExceptT.run, ExceptT.mk, bind, StateT.bind, StateT.run, get, getThe,
    MonadStateOf.get, StateT.get, pure, Nat.not_le.mpr h, if_false]
  rfl

/-! ## Sequences -/

variable {α β : Type}

theorem ext_result {act act' : Action α} (h : ∀ hold w, act.result hold w = act'.result hold w) :
    act = act' := funext fun hold => funext fun w => h hold w

theorem inTurn_map (f : α → β) (items : List α) (act : β → Action Flow) :
    inTurn (items.map f) act = inTurn items fun item => act (f item) := by
  induction items with
  | nil => rfl
  | cons item rest ih => rw [List.map_cons, inTurn, inTurn, ih]

theorem andThen_pure_normal (act : Action Flow) : andThen act (pure .normal) = act := by
  refine ext_result fun hold w => ?_
  unfold andThen
  rw [result_bind]
  match hr : act.result hold w with
  | (.error _, _) => rfl
  | (.ok .normal, _) => rfl
  | (.ok .breaking, _) => rfl
  | (.ok .continuing, _) => rfl
  | (.ok (.returning _), _) => rfl

theorem andThen_assoc (first second third : Action Flow) :
    andThen (andThen first second) third = andThen first (andThen second third) := by
  unfold andThen
  rw [bind_assoc]
  congr 1
  funext flow
  cases flow with
  | normal => rfl
  | _ => exact pure_bind _ _

theorem inTurn_append (items items' : List α) (act : α → Action Flow) :
    inTurn (items ++ items') act = andThen (inTurn items act) (inTurn items' act) := by
  induction items with
  | nil => exact (pure_bind _ _).symm
  | cons item rest ih => rw [List.cons_append, inTurn, inTurn, ih, andThen_assoc]

theorem inTurn_flatMap (items : List β) (f : β → List α) (act : α → Action Flow) :
    inTurn (items.flatMap f) act = inTurn items fun item => inTurn (f item) act := by
  induction items with
  | nil => rfl
  | cons item rest ih => rw [List.flatMap_cons, inTurn_append, inTurn, ih]

theorem result_andThen_congr {first first' second second' : Action Flow} {hold : Hold} {w : World}
    (h : first'.result hold w = first.result hold w)
    (h' : ∀ w', first.result hold w = (.ok .normal, w') →
      second'.result hold w' = second.result hold w') :
    (andThen first' second').result hold w = (andThen first second).result hold w := by
  unfold andThen
  rw [result_bind, result_bind, h]
  match hr : first.result hold w with
  | (.error _, _) => rfl
  | (.ok .normal, w') => exact h' w' hr
  | (.ok .breaking, _) => rfl
  | (.ok .continuing, _) => rfl
  | (.ok (.returning _), _) => rfl

theorem result_inTurn_congr {items : List α} {act act' : α → Action Flow} {hold : Hold}
    (inv : World → Prop)
    (hsame : ∀ item ∈ items, ∀ w, inv w → (act' item).result hold w = (act item).result hold w)
    (hkeep : ∀ item ∈ items, ∀ w w', inv w → (act item).result hold w = (.ok .normal, w') → inv w')
    {w : World} (hw : inv w) :
    (inTurn items act').result hold w = (inTurn items act).result hold w := by
  induction items generalizing w with
  | nil => rfl
  | cons item rest ih =>
    refine result_andThen_congr (hsame item List.mem_cons_self w hw) fun w' hr => ?_
    refine ih (fun i hi => hsame i (List.mem_cons_of_mem _ hi))
      (fun i hi => hkeep i (List.mem_cons_of_mem _ hi)) ?_
    exact hkeep item List.mem_cons_self w w' hw hr

end Action

end EventTree
