import EventTree.Proofs.Plot.Reading
import EventTree.Proofs.Results

/-!
# Actions that keep to a plot

An action keeps to a plot if, whenever it ends, the forest is tended, no node is gone, and the session
counts the same events and has the same bases as before. A run that was given up for want of patience
has not ended.

The rules below follow the ways in which actions are made. Facts about nodes are stated with a bound, so
they stay true while the action goes on.
-/

namespace EventTree.Plot

variable {α β : Type}

/-- A world in which an action may start. -/
structure Ready (P : Plot) (w : World) : Prop where
  tended : P.Tended w.forest
  bindings : w.session.bindings = []
  base : ∀ call, w.session.currentBase = some call → P.Mine w.forest.size call.node

/-- A world `w'` that an action may leave when it starts in `w`. -/
structure After (P : Plot) (w w' : World) : Prop where
  tended : P.Tended w'.forest
  size_le : w.forest.size ≤ w'.forest.size
  bindings : w'.session.bindings = w.session.bindings
  depth : w'.session.depth = w.session.depth
  bases : w'.session.bases = w.session.bases

theorem Ready.after {P : Plot} {w : World} (hw : P.Ready w) : P.After w w :=
  ⟨hw.tended, Nat.le_refl _, rfl, rfl, rfl⟩

theorem After.ready {P : Plot} {w w' : World} (h : P.After w w') (hw : P.Ready w) : P.Ready w' where
  tended := h.tended
  bindings := by rw [h.bindings, hw.bindings]
  base call hc := by
    rw [Session.currentBase, h.bases] at hc
    exact (hw.base call hc).mono h.size_le

theorem After.trans {P : Plot} {w w' w'' : World} (h : P.After w w') (h' : P.After w' w'') :
    P.After w w'' where
  tended := h'.tended
  size_le := Nat.le_trans h.size_le h'.size_le
  bindings := by rw [h'.bindings, h.bindings]
  depth := by rw [h'.depth, h.depth]
  bases := by rw [h'.bases, h.bases]

/-- A result that an action may come to when it starts in `w`. -/
def Fine (P : Plot) (w : World) (post : Nat → α → Prop) : Except Stop α × World → Prop
  | (.ok a, w') => P.After w w' ∧ post w'.forest.size a
  | (.error (.error _), w') => P.After w w'
  | (.error .stalled, _) => True

/-- The action may rely on some nodes being held. -/
structure Keeps (P : Plot) (held : List NodeId) (bound : Nat) (act : Action α)
    (post : Nat → α → Prop) : Prop where
  fine : ∀ hold w, held ⊆ hold.held → P.Ready w → bound ≤ w.forest.size →
    P.Fine w post (act.result hold w)

/-- A returned node is new. -/
def NewFlow (P : Plot) (bound : Nat) (flow : Flow) : Prop :=
  ∀ n, flow = .returning n → P.New bound n

theorem Fine.after {P : Plot} {w w' : World} {post : Nat → α → Prop} {r : Except Stop α × World}
    (h : P.After w w') (hr : P.Fine w' post r) : P.Fine w post r := by
  match r, hr with
  | (.ok _, _), hr => exact ⟨h.trans hr.1, hr.2⟩
  | (.error (.error _), _), hr => exact h.trans hr
  | (.error .stalled, _), _ => trivial

namespace Keeps

variable {P : Plot} {held : List NodeId} {bound : Nat}

/-! ## Sequences of actions -/

section Sequence

variable {act : Action α} {post : Nat → α → Prop}

theorem mono (h : P.Keeps held bound act post) {post' : Nat → α → Prop}
    (hp : ∀ b a, bound ≤ b → post b a → post' b a) : P.Keeps held bound act post' := by
  refine ⟨fun hold w hh hw hb => ?_⟩
  have hr := h.fine hold w hh hw hb
  revert hr
  match act.result hold w with
  | (.ok _, _) => exact fun hr => ⟨hr.1, hp _ _ (Nat.le_trans hb hr.1.size_le) hr.2⟩
  | (.error (.error _), _) => exact id
  | (.error .stalled, _) => exact id

theorem pure {a : α} (h : ∀ b, bound ≤ b → post b a) :
    P.Keeps held bound (pure a) post := ⟨fun _ _ _ hw hb => ⟨hw.after, h _ hb⟩⟩

theorem bind {next : α → Action β} {post' : Nat → β → Prop} (h : P.Keeps held bound act post)
    (hn : ∀ b a, bound ≤ b → post b a → P.Keeps held b (next a) post') :
    P.Keeps held bound (act >>= next) post' := by
  refine ⟨fun hold w hh hw hb => ?_⟩
  have hr := h.fine hold w hh hw hb
  rw [Action.result_bind]
  revert hr
  match act.result hold w with
  | (.ok a, w') =>
    intro hr
    have hle := Nat.le_trans hb hr.1.size_le
    exact Fine.after hr.1 ((hn _ a hle hr.2).fine hold w' hh (hr.1.ready hw) (Nat.le_refl _))
  | (.error (.error _), _) => exact id
  | (.error .stalled, _) => exact id

theorem throw (e : Error) : P.Keeps held bound (throw (.error e) : Action α) post :=
  ⟨fun _ _ _ hw _ => hw.after⟩

theorem fail (cause : Cause) : P.Keeps held bound (Action.fail cause : Action α) post :=
  ⟨fun _ _ _ hw _ => hw.after⟩

theorem stall : P.Keeps held bound (Action.stall : Action α) post := ⟨fun _ _ _ _ _ => trivial⟩

theorem failIf (cause : Option Cause) :
    P.Keeps held bound (Action.failIf cause) fun _ _ => cause = none := by
  cases cause with
  | none => exact pure fun _ _ => rfl
  | some cause => exact fail cause

theorem ofExcept (r : Except Cause α) :
    P.Keeps held bound (Action.ofExcept r) fun _ a => r = .ok a := by
  cases r with
  | ok a => exact pure fun _ _ => rfl
  | error cause => exact fail cause

theorem attempt (h : P.Keeps held bound act post) :
    P.Keeps held bound (Action.attempt act) fun b r => ∀ a, r = .ok a → post b a := by
  refine ⟨fun hold w hh hw hb => ?_⟩
  have hr := h.fine hold w hh hw hb
  rw [Action.result_attempt]
  revert hr
  match act.result hold w with
  | (.ok _, _) => exact fun hr => ⟨hr.1, fun a ha => Except.ok.inj ha ▸ hr.2⟩
  | (.error (.error _), _) => exact fun hr => ⟨hr, fun a ha => by cases ha⟩
  | (.error .stalled, _) => exact id

theorem resume {r : Except Error α} (h : ∀ b a, bound ≤ b → r = .ok a → post b a) :
    P.Keeps held bound (Action.resume r) post := by
  cases r with
  | ok a => exact pure fun b hb => h b a hb rfl
  | error e => exact throw e

theorem widen {held' : List NodeId} (h : P.Keeps held bound act post) (hsub : held ⊆ held') :
    P.Keeps held' bound act post := ⟨fun hold w hh => h.fine hold w (List.Subset.trans hsub hh)⟩

theorem holding {nodes : List NodeId} (h : P.Keeps (nodes ++ held) bound act post) :
    P.Keeps held bound (Action.holding nodes act) post := by
  refine ⟨fun hold w hh => h.fine (hold.adding nodes) w fun n hn => ?_⟩
  rcases List.mem_append.mp hn with hn | hn
  · exact List.mem_append_left _ hn
  · exact List.mem_append_right _ (hh hn)

theorem goingBeside (n other : NodeId) (h : P.Keeps held bound act post) :
    P.Keeps held bound (Action.goingBeside n other act) post := by
  refine ⟨fun hold w hh => h.fine (hold.goingBeside n other) w ?_⟩
  unfold Hold.goingBeside
  split <;> exact hh

end Sequence

theorem andThen {first second : Action Flow} (h : P.Keeps held bound first P.NewFlow)
    (h' : ∀ b, bound ≤ b → P.Keeps held b second P.NewFlow) :
    P.Keeps held bound (Action.andThen first second) P.NewFlow := by
  refine h.bind fun b flow hb hf => ?_
  split
  · exact h' b hb
  · exact pure fun b' hb' n hn => (hf n hn).mono hb'

theorem inTurn {items : List α} {act : α → Action Flow}
    (h : ∀ b, bound ≤ b → ∀ item ∈ items, P.Keeps held b (act item) P.NewFlow) :
    P.Keeps held bound (Action.inTurn items act) P.NewFlow := by
  induction items generalizing bound with
  | nil => exact pure fun _ _ n hn => by cases hn
  | cons item rest ih =>
    refine andThen (h bound (Nat.le_refl _) item List.mem_cons_self) fun b hb => ih fun b' hb' i hi => ?_
    exact h b' (Nat.le_trans hb hb') i (List.mem_cons_of_mem _ hi)

theorem forEach {items : List α} {act : α → Action Unit}
    (h : ∀ b, bound ≤ b → ∀ item ∈ items, P.Keeps held b (act item) fun _ _ => True) :
    P.Keeps held bound (Action.forEach items act) fun _ _ => True := by
  induction items generalizing bound with
  | nil => exact pure fun _ _ => trivial
  | cons item rest ih =>
    refine (h bound (Nat.le_refl _) item List.mem_cons_self).bind fun b _ hb _ => ih fun b' hb' i hi => ?_
    exact h b' (Nat.le_trans hb hb') i (List.mem_cons_of_mem _ hi)

theorem gather {items : List α} {act : α → Action β} {post : Nat → β → Prop}
    (hmono : ∀ b b' x, b ≤ b' → post b x → post b' x)
    (h : ∀ b, bound ≤ b → ∀ item ∈ items, P.Keeps held b (act item) post) :
    P.Keeps held bound (Action.gather items act) fun b xs => ∀ x ∈ xs, post b x := by
  induction items generalizing bound with
  | nil => exact pure fun _ _ x hx => by cases hx
  | cons item rest ih =>
    refine (h bound (Nat.le_refl _) item List.mem_cons_self).bind fun b x hb hx => ?_
    refine (ih fun b' hb' i hi => h b' (Nat.le_trans hb hb') i (List.mem_cons_of_mem _ hi)).bind ?_
    refine fun b' xs hb' hxs => pure fun b'' hb'' y hy => ?_
    rcases List.mem_cons.mp hy with rfl | hy
    · exact hmono b b'' y (Nat.le_trans hb' hb'') hx
    · exact hmono b' b'' y hb'' (hxs y hy)

/-! ## Reading -/

theorem ask {read : Forest → α} {post : Nat → α → Prop}
    (h : ∀ b g, bound ≤ b → P.Closed b g → post b (read g)) :
    P.Keeps held bound (Action.ask read) post :=
  ⟨fun _ w _ hw hb => ⟨hw.after, h _ w.forest hb hw.tended.closed⟩⟩

theorem observe {look : Forest → α} {post : Nat → α → Prop}
    (h : ∀ b g, bound ≤ b → P.Closed b g → post b (look g)) :
    P.Keeps held bound (Action.observe look) post :=
  ⟨fun hold w _ hw hb => ⟨hw.after, h _ (w.forest.seen hold) hb (hw.tended.closed_seen hold)⟩⟩

theorem askForest {read : Forest → α} {post : Nat → α → Prop}
    (h : ∀ f, P.Tended f → bound ≤ f.size → post f.size (read f)) :
    P.Keeps held bound (Action.ask read) post :=
  ⟨fun _ w _ hw hb => ⟨hw.after, h w.forest hw.tended hb⟩⟩

theorem askAny {read : Forest → α} : P.Keeps held bound (Action.ask read) fun _ _ => True :=
  ask fun _ _ _ _ => trivial

theorem observeAny {look : Forest → α} : P.Keeps held bound (Action.observe look) fun _ _ => True :=
  observe fun _ _ _ _ => trivial

theorem askStore {read : EventStore → α} : P.Keeps held bound (Action.askStore read) fun _ _ => True :=
  ⟨fun _ _ _ hw _ => ⟨hw.after, trivial⟩⟩

theorem askSession {read : Session → α} : P.Keeps held bound (Action.askSession read) fun _ _ => True :=
  ⟨fun _ _ _ hw _ => ⟨hw.after, trivial⟩⟩

/-! ## Writing -/

theorem grow {change : Forest → α × Forest} {post : Nat → α → Prop}
    (h : ∀ f, P.Tended f → bound ≤ f.size →
      P.Tended (change f).2 ∧ f.size ≤ (change f).2.size ∧ post (change f).2.size (change f).1) :
    P.Keeps held bound (Action.grow change) post where
  fine _ w _ hw hb :=
    have hc := h w.forest hw.tended hb
    ⟨⟨hc.1, hc.2.1, rfl, rfl, rfl⟩, hc.2.2⟩

theorem edit {change : Forest → Forest}
    (h : ∀ f, P.Tended f → bound ≤ f.size → P.Tended (change f) ∧ f.size ≤ (change f).size) :
    P.Keeps held bound (Action.edit change) fun _ _ => True where
  fine _ w _ hw hb :=
    have hc := h w.forest hw.tended hb
    ⟨⟨hc.1, hc.2, rfl, rfl, rfl⟩, trivial⟩

theorem editStore {change : EventStore → EventStore} :
    P.Keeps held bound (Action.editStore change) fun _ _ => True :=
  ⟨fun _ _ _ hw _ => ⟨⟨hw.tended, Nat.le_refl _, rfl, rfl, rfl⟩, trivial⟩⟩

theorem editOverrides {change : Session → OverrideGraph} :
    P.Keeps held bound (Action.editSession fun s => { s with overrides := change s }) fun _ _ => True :=
  ⟨fun _ _ _ hw _ => ⟨⟨hw.tended, Nat.le_refl _, rfl, rfl, rfl⟩, trivial⟩⟩

theorem create (a : String) : P.Keeps held bound (Action.create a) P.New :=
  grow fun f ht _ => by
    refine ⟨ht.create a, by simp, ht.new_of_not_has ?_, by simp⟩
    exact Nat.lt_irrefl _

theorem setTo {n : NodeId} (hn : P.Mine bound n) {v : Option LiveValue} (hv : P.MineIn bound v) :
    P.Keeps held bound (Action.edit (·.setValue n v)) fun _ _ => True :=
  edit fun _ ht hb => ⟨ht.setValue hn.1 (hv.mono hb), by simp⟩

theorem setValue {n : NodeId} (hn : P.Mine bound n) {v : LiveValue} (hv : P.MineIn bound (some v)) :
    P.Keeps held bound (Action.setValue n v) fun _ _ => True := setTo hn hv

theorem setBool {n : NodeId} (hn : P.Mine bound n) (b : Bool) :
    P.Keeps held bound (Action.setValue n (.bool b)) fun _ _ => True :=
  setValue hn (by rintro m ⟨⟩)

theorem createWith (a : String) {v : Option LiveValue} (hv : P.MineIn bound v) :
    P.Keeps held bound (Action.createWith a v) P.New := by
  refine (create a).bind fun b n hb hn => ?_
  refine (setTo hn.mine (hv.mono hb)).bind fun b' _ hb' _ => ?_
  exact pure fun b'' hb'' => hn.mono (Nat.le_trans hb' hb'')

theorem plant (t : Tree Selector) : P.Keeps held bound (Action.plant t) P.New :=
  grow fun f ht _ =>
    have hp := Forest.planted t f ht.wellFormed
    ⟨ht.grow hp.grown hp.wellFormed, hp.grown.size_le, ht.new_of_not_has hp.not_has, hp.has⟩

theorem copy (n : NodeId) : P.Keeps held bound (Action.copy n) P.New :=
  grow fun _ ht _ =>
    have hp := Forest.copied ht.wellFormed n
    ⟨ht.grow hp.grown hp.wellFormed, hp.grown.size_le, ht.new_of_not_has hp.not_has, hp.has⟩

theorem copyValue (v : Option LiveValue) : P.Keeps held bound (Action.copyValue v) P.MineIn :=
  grow fun _ ht _ => by
    have hp := Forest.copiedValue ht.wellFormed v
    refine ⟨ht.grow hp.grown hp.wellFormed, hp.grown.size_le, fun m hm => ?_⟩
    exact ⟨ht.fenced.unborn m (hp.node m hm).1, (hp.node m hm).2⟩

theorem insert {p c : NodeId} (hp : P.Mine bound p) (hc : P.New bound c) (position : Option Nat) :
    P.Keeps held bound (Action.insert p position c) fun _ _ => True := by
  refine ⟨fun hold w _ hw hb => ?_⟩
  cases h : w.forest.insertFault? p position c with
  | some cause =>
    rw [Action.result_insert_of_some h]
    exact hw.after
  | none =>
    rw [Action.result_insert_of_none h]
    exact ⟨⟨hw.tended.moveTo (hp.mono hb) (hc.mono hb) h, by simp, rfl, rfl, rfl⟩, trivial⟩

theorem untie {n : NodeId} (hn : P.Mine bound n) :
    P.Keeps held bound (Action.untie n) fun _ _ => True := by
  refine observeAny.bind fun b _ _ _ => ?_
  refine (failIf _).bind fun b' _ _ _ => ?_
  exact edit fun _ ht _ => ⟨ht.detach hn.1, by simp⟩

end Keeps

end EventTree.Plot
