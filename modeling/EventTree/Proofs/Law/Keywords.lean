import EventTree.Handler.Probe
import EventTree.Proofs.Law
import EventTree.Proofs.Trait.Keywords

/-!
# Keywords obey all laws

To obey a law is a trait of a single action. So every keyword of the core obeys every law, but for the one
that takes over stored overrides, and so do all probes.
-/

namespace EventTree

theorem Action.result_basing {α : Type} (base : Option Call) (act : Action α) (hold : Hold) (w : World) :
    (Action.basing base act).result hold w =
      onward (fun r w => (.ok r, w.unbased)) (handedOn (act.result hold (w.basing base))) := by
  unfold Action.basing
  rw [result_bind_ok (result_editSession _), result_bind, result_attempt]
  rfl

theorem Action.Obeys.basing {L : Law} {α : Type} {act : Action α} (base : Option Call)
    (h : act.Obeys L.allows) : (Action.basing base act).Obeys L.allows := by
  refine ⟨fun hold w => ?_⟩
  have hr := h.allowed hold (w.basing base)
  rw [result_basing]
  revert hr
  match act.result hold (w.basing base) with
  | (.ok _, _) => exact L.basing base
  | (.error (.error _), _) => exact L.basing base
  | (.error .stalled, _) => exact id

/-- An action obeys a law. -/
def Law.trait (L : Law) : Trait Unit where
  holds _ act := (act ()).Obeys L.allows
  pure := .pure
  fail := .fail
  stall := .stall
  bind := .bind
  attempt h hn := h.attempt.bind hn
  resume r _ := .resume r
  holding := .holding
  goingBeside := .goingBeside
  ask := .ask
  observe := .observe
  askStore := .askStore
  askSession := .askSession
  edit := .edit
  grow := .grow
  editEvents := .editEvents
  addOverride := L.adding
  dropOverride base super := ⟨fun _ w => L.dropping w base super⟩
  basing base h hn := (h.basing base).bind hn

theorem Engine.Obeying.engines {engine : Engine} {L : Law} (he : engine.Obeying L) :
    L.trait.Engines fun _ => engine where
  raiseFlow _ := he.raiseFlow
  raiseDirect _ := he.raiseDirect
  staticEvents := ⟨_, fun _ => rfl⟩
  patience := ⟨_, fun _ => rfl⟩

theorem Action.Obeys.raise {engine : Engine} {L : Law} (he : engine.Obeying L) (event : String)
    (n : NodeId) : (engine.raise event n).Obeys L.allows :=
  have hraise : L.trait.holds (fun _ => False) fun _ => engine.raise event n :=
    Trait.raise he.engines event n
  hraise

/-- All keywords obey a law that allows taking over the stored overrides. -/
theorem coreTable_obeying {L : Law} :
    ∀ entry ∈ coreTable.statics, Handler.Obeying entry.2 L ∨
      entry = (Keyword.startEvent, Keyword.takeOverrides) := by
  intro entry hentry
  rcases coreTable_keeps (T := L.trait) entry hentry with h | rfl | rfl
  · exact .inl fun engine he call => h _ he.engines (fun _ => False) call
  · refine .inl fun engine he call => ?_
    have hloop : L.trait.holds (fun _ => False) fun _ => Keyword.whileLoop engine call :=
      Trait.whileLoop he.engines ⟨_, fun _ => rfl⟩ call
    exact hloop
  · exact .inr rfl

/-! ## Probes -/

namespace Probe

open EventTree.Action (Obeys)

variable {L : Law}

theorem mark_obeys (n : NodeId) (name text : String) : (mark n name text).Obeys L.allows :=
  (Obeys.grow _).bind fun _ => Obeys.pure ()

theorem callBase_obeys {engine : Engine} (he : engine.Obeying L) (call : Call) :
    (engine.callBase call).Obeys L.allows :=
  have hbase : L.trait.holds (fun _ => False) fun _ => engine.callBase call := Trait.callBase he.engines call
  hbase

theorem static_obeying {name : String} {handler : Handler} (h : static? name = some handler) :
    handler.Obeying L := by
  intro engine he call
  unfold static? at h
  split at h
  case h_9 => cases h
  all_goals obtain rfl := Option.some.inj h
  · exact (mark_obeys ..).bind fun _ => Obeys.normal
  · refine (mark_obeys ..).bind fun _ => ?_
    split
    · exact (Obeys.pure ()).bind fun _ => callBase_obeys he call
    · exact (mark_obeys ..).bind fun _ => callBase_obeys he call
  · exact Obeys.pure _
  · exact Obeys.pure _
  · exact Obeys.pure _
  · exact (((Obeys.grow _).bind fun _ => (Obeys.edit _).bind fun _ => Obeys.pure _).bind fun _ =>
      (Obeys.grow _).bind fun _ => Obeys.pure _)
  · exact Obeys.fail _
  · exact he.raiseFlow call.event call.node

theorem listener_obeying {name : String} {handler : ListenerHandler} (h : listener? name = some handler)
    (level : Level) : Handler.Obeying (handler level) L := by
  intro engine he call
  unfold listener? at h
  split at h
  case h_5 => cases h
  all_goals obtain rfl := Option.some.inj h
  · exact (mark_obeys ..).bind fun _ => Obeys.normal
  · exact (mark_obeys ..).bind fun _ => callBase_obeys he call
  · exact Obeys.pure _
  · exact Obeys.fail _

end Probe

end EventTree
