import EventTree.Proofs.Raising

/-!
# Actions that succeed

What is known of the forest after an action that succeeds, where the action changes nothing else. There is
one rule for each way of making actions, and one for raising an event.
-/

namespace EventTree

namespace Action

variable {α β : Type}

/-- If the action succeeds on `f`, then nothing but the forest has changed, and `post` holds of what it
gives and of the forest that it leaves. -/
def Ensures (hold : Hold) (w : World) (f : Forest) (act : Action α) (post : α → Forest → Prop) : Prop :=
  ∀ a w', act.result hold (w.on f) = (.ok a, w') → ∃ g, w' = w.on g ∧ post a g

namespace Ensures

variable {hold : Hold} {w : World} {f : Forest} {post : α → Forest → Prop}

theorem of_result {act : Action α} {a : α} {g : Forest}
    (h : act.result hold (w.on f) = (.ok a, w.on g)) (hpost : post a g) : Ensures hold w f act post := by
  intro b w' hb
  cases h.symm.trans hb
  exact ⟨g, rfl, hpost⟩

theorem of_error {act : Action α} {stop : Stop} {w' : World}
    (h : act.result hold (w.on f) = (.error stop, w')) : Ensures hold w f act post := by
  intro b w'' hb
  cases h.symm.trans hb

theorem mono {act : Action α} {post' : α → Forest → Prop} (h : Ensures hold w f act post)
    (himp : ∀ a g, post a g → post' a g) : Ensures hold w f act post' := by
  intro a w' ha
  obtain ⟨g, hw', hg⟩ := h a w' ha
  exact ⟨g, hw', himp a g hg⟩

theorem bind {act : Action α} {next : α → Action β} {mid : α → Forest → Prop} {post : β → Forest → Prop}
    (h : Ensures hold w f act mid) (hnext : ∀ a g, mid a g → Ensures hold w g (next a) post) :
    Ensures hold w f (act >>= next) post := by
  intro b w' hb
  rw [result_bind] at hb
  cases hr : act.result hold (w.on f) with
  | mk outcome w₁ =>
    rw [hr] at hb
    cases outcome with
    | error stop => cases hb
    | ok a =>
      obtain ⟨g, rfl, hg⟩ := h a w₁ hr
      exact hnext a g hg b w' hb

theorem pure {a : α} (h : post a f) : Ensures hold w f (Pure.pure a) post := of_result rfl h

theorem setValue {n : NodeId} {v : LiveValue} {post : Unit → Forest → Prop}
    (h : post () (f.setValue n (some v))) : Ensures hold w f (Action.setValue n v) post :=
  of_result rfl h

theorem fail {cause : Cause} : Ensures hold w f (Action.fail cause : Action α) post := of_error rfl

theorem holding {nodes : List NodeId} {act : Action α} (h : Ensures (hold.adding nodes) w f act post) :
    Ensures hold w f (Action.holding nodes act) post := h

/-! What comes first is known. -/

section After

variable {next : α → Action β} {post : β → Forest → Prop}

theorem after {act : Action α} {a : α} {g : Forest} (h : act.result hold (w.on f) = (.ok a, w.on g))
    (hnext : Ensures hold w g (next a) post) : Ensures hold w f (act >>= next) post :=
  fun b w' hb => hnext b w' ((result_bind_ok h).symm.trans hb)

theorem ask_bind {read : Forest → α} (h : Ensures hold w f (next (read f)) post) :
    Ensures hold w f (Action.ask read >>= next) post := after rfl h

theorem observe_bind {look : Forest → α} (h : Ensures hold w f (next (look (f.seen hold))) post) :
    Ensures hold w f (Action.observe look >>= next) post := after rfl h

theorem setValue_bind {next : Unit → Action β} {n : NodeId} {v : LiveValue}
    (h : Ensures hold w (f.setValue n (some v)) (next ()) post) :
    Ensures hold w f (Action.setValue n v >>= next) post := after rfl h

theorem ofExcept_bind {r : Except Cause α} (h : ∀ a, r = .ok a → Ensures hold w f (next a) post) :
    Ensures hold w f (Action.ofExcept r >>= next) post := by
  cases r with
  | ok a => exact after rfl (h a rfl)
  | error cause => exact of_error (result_bind_error rfl)

end After

theorem forEach {items : List α} {act : α → Action Unit} (inv : List α → Forest → Prop)
    (hstep : ∀ item rest g, inv (item :: rest) g → Ensures hold w g (act item) fun _ => inv rest)
    (h : inv items f) : Ensures hold w f (Action.forEach items act) fun _ => inv [] := by
  induction items generalizing f with
  | nil => exact pure h
  | cons item rest ih => exact (hstep item rest f h).bind fun _ g hg => ih hg

end Ensures

/-! What comes first has been handed on. -/

section HandedOn

variable {hold : Hold} {w w' : World} {b : β}

theorem attempt_bind_ok {act : Action α} {next : Except Error α → Action β}
    (h : (attempt act >>= next).result hold w = (.ok b, w')) :
    ∃ r w₁, act.result hold w = (resumed r, w₁) ∧ (next r).result hold w₁ = (.ok b, w') := by
  rw [result_bind, result_attempt] at h
  rcases hr : act.result hold w with ⟨(e | _) | a, w₁⟩ <;> rw [hr] at h
  · exact ⟨.error e, w₁, rfl, h⟩
  · cases h
  · exact ⟨.ok a, w₁, rfl, h⟩

theorem resume_bind_ok {r : Except Error α} {next : α → Action β}
    (h : (resume r >>= next).result hold w = (.ok b, w')) :
    ∃ a, r = .ok a ∧ (next a).result hold w = (.ok b, w') := by
  cases r with
  | ok a => exact ⟨a, rfl, h⟩
  | error e => cases h

end HandedOn

end Action

open EventTree.Action

namespace Machine

variable {m : Machine} (hm : m.IsCore) {hold : Hold} {w : World} {f : Forest} {n : NodeId}
  {event : String} {post : Flow → Forest → Prop}

include hm

theorem raiseFlow_ensures {patience : Nat} (hevent : event ≠ catchAll) (hw : w.Plain event)
    (h : ∀ p, patience = p + 1 →
      Ensures (hold.adding [n]) w.deeper f (m.keywords p event n) post) :
    Ensures hold w f ((m.engine patience (m.perform patience)).raiseFlow event n) post := by
  cases patience with
  | zero => exact .of_error rfl
  | succ patience =>
    have hkeywords := h patience rfl
    by_cases hdepth : w.session.depth < m.settings.maxDepth
    · have hplain : ∀ w', (m.keywords patience event n).result (hold.adding [n]) (w.on f).deeper =
          (.ok .normal, w') → w'.Plain event := by
        intro w' hw'
        obtain ⟨g, rfl, -⟩ := hkeywords .normal w' hw'
        exact hw.deeper.of_eq rfl rfl
      have hraise := result_raiseFlow (w := w.on f) hm hevent (hw.of_eq rfl rfl) hdepth hplain
      intro flow w' hflow
      rw [hraise] at hflow
      cases hr : (m.keywords patience event n).result (hold.adding [n]) (w.on f).deeper with
      | mk outcome w₁ =>
        rw [hr] at hflow
        cases outcome with
        | error stop => cases stop <;> cases hflow
        | ok flow' =>
          obtain ⟨g, rfl, hg⟩ := hkeywords flow' w₁ hr
          cases hflow
          exact ⟨g, rfl, hg⟩
    · exact .of_error (result_entering_of_le (Nat.le_of_not_lt hdepth))

theorem raise_ensures {patience : Nat} {handler : Handler} {post : Forest → Prop}
    (hhandler : coreTable.handlersOf event = [handler]) (hevent : event ≠ catchAll) (hw : w.Plain event)
    (h : ∀ p, patience = p + 1 → Ensures (hold.adding [n]) w.deeper f
      (handler (m.engine p (m.perform p)) (.plain event n)) fun flow g => flow = .normal ∧ post g) :
    Ensures hold w f ((m.engine patience (m.perform patience)).raise event n) fun _ => post := by
  have hkeywords : ∀ p, patience = p + 1 → Ensures (hold.adding [n]) w.deeper f (m.keywords p event n)
      fun flow g => flow = .normal ∧ post g := by
    intro p hp flow w' hflow
    rw [keywords, hhandler, result_inTurn_singleton] at hflow
    exact h p hp flow w' hflow
  refine (raiseFlow_ensures hm hevent hw hkeywords).bind ?_
  rintro _ g ⟨rfl, hg⟩
  exact .pure hg

end Machine

end EventTree
