import EventTree.Proofs.Override.Agreement

/-!
# Override statements that fail

A statement may give several overrides. They are added one after the other, each to the store and to the
session or to neither, and the statement fails at the first one that would lead back to its base. Those
before it stay: only a statement that fails at its first override leaves everything as it was.
-/

namespace EventTree

open EventTree.Action Keyword
open Relation (ReflTransGen)

namespace World

/-- One more override makes no cycle, neither with the stored ones nor with those of the session. -/
def Admits (w : World) (base super : String) : Prop :=
  Acyclic (fun x y => (x, y) ∈ w.store.overrides ++ [(base, super)]) ∧
    ¬ ReflTransGen w.session.overrides.Sends super base

/-- Overrides were added to store and session, and no others. -/
structure Gained (w w' : World) (pairs : List (String × String)) : Prop where
  store : w'.store.overrides = w.store.overrides ++ pairs
  session : w.session.overrides.addAll pairs = .ok w'.session.overrides

namespace Gained

variable {w w₁ w' : World} {pairs pairs' : List (String × String)}

theorem of_eq (hstore : w'.store.overrides = w.store.overrides)
    (hsession : w'.session.overrides = w.session.overrides) : w.Gained w' [] :=
  ⟨by rw [hstore, List.append_nil], by rw [hsession]; rfl⟩

theorem trans (h : w.Gained w₁ pairs) (h' : w₁.Gained w' pairs') : w.Gained w' (pairs ++ pairs') := by
  refine ⟨?_, ?_⟩
  · rw [h'.store, h.store, List.append_assoc]
  · rw [OverrideGraph.addAll_append, h.session]
    exact h'.session

theorem unchanged_iff (h : w.Gained w' pairs) :
    w'.store.overrides = w.store.overrides ∧ w'.session.overrides = w.session.overrides ↔
      pairs = [] := by
  constructor
  · rintro ⟨hstore, -⟩
    exact List.self_eq_append_right.mp (hstore.symm.trans h.store)
  · rintro rfl
    exact ⟨h.store.trans (List.append_nil _), (Except.ok.inj h.session).symm⟩

theorem admits_iff (h : w.Gained w' []) (base super : String) :
    w'.Admits base super ↔ w.Admits base super := by
  obtain ⟨hstore, hsession⟩ := h.unchanged_iff.mpr rfl
  rw [Admits, Admits, hstore, hsession]

end Gained

/-! ## One override -/

variable {w : World} {base super : String}

theorem result_addOverride_of_admits (h : w.Admits base super) (hold : Hold) :
    ∃ w', (addOverride base super).result hold w = (.ok (), w') ∧ w.Gained w' [(base, super)] := by
  have hfault := EventStore.overrideFault?_eq_none_iff.mpr h.1
  have hcloses : ¬ w.session.overrides.closesCycle base super = true :=
    fun hcloses => h.2 ((OverrideGraph.closesCycle_iff _ base super).mp hcloses)
  refine ⟨_, by rw [result_addOverride, hfault, if_neg hcloses], ?_, ?_⟩
  · exact EventStore.overrides_addOverride_of_none hfault
  · rw [OverrideGraph.addAll_cons, if_neg hcloses]
    rfl

theorem result_addOverride_of_not_admits (h : ¬ w.Admits base super) (hold : Hold) :
    ∃ cause w', (addOverride base super).result hold w = (.error (.error (.ofCause cause)), w') ∧
      w.Gained w' [] ∧
      ((Acyclic fun x y => (x, y) ∈ w.store.overrides) → cause = .overrideCycle base super) := by
  rw [result_addOverride]
  cases hfault : w.store.overrideFault? base super with
  | some cause =>
    refine ⟨cause, _, rfl, .of_eq (EventStore.overrides_addOverride_of_some hfault) rfl, fun hstored => ?_⟩
    obtain ⟨g, hg⟩ := (exists_addAll_empty_iff _).mpr hstored
    rw [EventStore.overrideFault?_eq hg] at hfault
    split at hfault
    · exact (Option.some.inj hfault).symm
    · cases hfault
  | none =>
    have hcloses : w.session.overrides.closesCycle base super = true := by
      refine (OverrideGraph.closesCycle_iff _ base super).mpr (of_not_not fun hback => h ⟨?_, hback⟩)
      exact EventStore.overrideFault?_eq_none_iff.mp hfault
    rw [if_pos hcloses]
    refine ⟨_, _, rfl, .of_eq ?_ rfl, fun _ => rfl⟩
    change eraseLast (base, super) (w.store.addOverride base super).overrides = _
    rw [EventStore.overrides_addOverride_of_none hfault, eraseLast_append_singleton]

/-! ## One statement -/

/-- Of the overrides that were to be added, those up to one that is not admitted are there. -/
structure Interrupted (w w' : World) (pairs added : List (String × String)) (e : Error) : Prop where
  gained : w.Gained w' added
  stopped : ∃ base super rest, pairs = added ++ (base, super) :: rest ∧ ¬ w'.Admits base super ∧
    ((Acyclic fun x y => (x, y) ∈ w'.store.overrides) → e = .ofCause (.overrideCycle base super))
  admitted : ∀ first ∈ added.head?, w.Admits first.1 first.2
  acyclic : added ≠ [] → Acyclic fun x y => (x, y) ∈ w'.store.overrides

namespace Interrupted

variable {w₁ w' : World} {pairs added : List (String × String)} {e : Error}

theorem cons (h : w.Admits base super) (hgained : w.Gained w₁ [(base, super)])
    (hrest : w₁.Interrupted w' pairs added e) :
    w.Interrupted w' ((base, super) :: pairs) ((base, super) :: added) e := by
  obtain ⟨base', super', rest, hpairs, hrefused, he⟩ := hrest.stopped
  refine ⟨hgained.trans hrest.gained, ⟨base', super', rest, ?_, hrefused, he⟩, ?_, fun _ => ?_⟩
  · rw [hpairs, List.cons_append]
  · intro first hfirst
    obtain rfl := Option.some.inj hfirst
    exact h
  · -- The last one that was added is the new one or one of the others.
    by_cases hadded : added = []
    · rw [hrest.gained.store, hadded, List.append_nil, hgained.store]
      exact h.1
    · exact hrest.acyclic hadded

theorem added_eq_nil_iff (h : w.Interrupted w' pairs added e) :
    added = [] ↔ ∀ first rest, pairs = first :: rest → ¬ w.Admits first.1 first.2 := by
  obtain ⟨base, super, rest, hpairs, hrefused, -⟩ := h.stopped
  constructor
  · rintro rfl first rest' hfirst
    obtain ⟨rfl, -⟩ := List.cons.inj (hpairs.symm.trans hfirst)
    exact mt (h.gained.admits_iff base super).mpr hrefused
  · intro hfirst
    cases hadded : added with
    | nil => rfl
    | cons first more =>
      rw [hadded] at hpairs
      exact absurd (h.admitted first (by rw [hadded]; rfl)) (hfirst first _ hpairs)

end Interrupted

theorem interrupted_of_result_forEach {pairs : List (String × String)} {e : Error} {hold : Hold}
    {w' : World} (hr : (forEach pairs fun (base, super) => addOverride base super).result hold w =
      (.error (.error e), w')) : ∃ added, w.Interrupted w' pairs added e := by
  induction pairs generalizing w with
  | nil => cases hr
  | cons pair rest ih =>
    obtain ⟨base, super⟩ := pair
    rw [forEach] at hr
    by_cases hadmits : w.Admits base super
    · obtain ⟨w₁, hadd, hgained⟩ := result_addOverride_of_admits hadmits hold
      obtain ⟨added, hrest⟩ := ih ((result_bind_ok hadd).symm.trans hr)
      exact ⟨_, hrest.cons hadmits hgained⟩
    · obtain ⟨cause, w₁, hadd, hgained, hcause⟩ := result_addOverride_of_not_admits hadmits hold
      obtain ⟨he, rfl⟩ := Prod.mk.inj ((result_bind_error hadd).symm.trans hr)
      obtain rfl := Stop.error.inj (Except.error.inj he)
      refine ⟨[], hgained, ⟨base, super, rest, rfl, ?_, fun hstored => ?_⟩, ?_, absurd rfl⟩
      · exact mt (hgained.admits_iff base super).mp hadmits
      · rw [(hgained.unchanged_iff.mpr rfl).1] at hstored
        rw [hcause hstored]
      · exact fun _ hfirst => by cases hfirst

end World

section Statement

variable {m : Machine} {n : NodeId} {w w' : World} {hold : Hold} {e : Error}

theorem result_overrideEvent (engine : Engine) (call : Call) :
    (overrideEvent engine call).result hold w =
      match overridePairs (w.forest.seen hold) call.node with
      | .error cause => (.error (.error (.ofCause cause)), w)
      | .ok pairs => onward (fun _ w' => (.ok .normal, w'))
          ((forEach pairs fun (base, super) => addOverride base super).result hold w) := by
  unfold overrideEvent
  rw [result_bind_ok (result_observe _)]
  cases overridePairs (w.forest.seen hold) call.node with
  | error cause => rfl
  | ok pairs => exact (result_bind_ok (result_ofExcept_ok pairs)).trans (result_bind _ _)

theorem eq_normal_of_result_overrideEvent {engine : Engine} {call : Call} {flow : Flow}
    (hr : (overrideEvent engine call).result hold w = (.ok flow, w')) : flow = .normal := by
  rw [result_overrideEvent] at hr
  split at hr
  · cases hr
  · rename_i pairs _
    match (forEach pairs fun (base, super) => addOverride base super).result hold w, hr with
    | (.ok _, _), hr => exact (Except.ok.inj (Prod.mk.inj hr).1).symm

theorem interrupted_of_result_overrideEvent {engine : Engine} {call : Call}
    (hr : (overrideEvent engine call).result hold w = (.error (.error e), w')) :
    (∃ cause, overridePairs (w.forest.seen hold) call.node = .error cause ∧ w' = w) ∨
      ∃ pairs added, overridePairs (w.forest.seen hold) call.node = .ok pairs ∧
        w.Interrupted w' pairs added e := by
  rw [result_overrideEvent] at hr
  cases hpairs : overridePairs (w.forest.seen hold) call.node with
  | error cause =>
    rw [hpairs] at hr
    exact .inl ⟨cause, rfl, (Prod.mk.inj hr).2.symm⟩
  | ok pairs =>
    simp only [hpairs] at hr
    match hadd : (forEach pairs fun (base, super) => addOverride base super).result hold w, hr with
    | (.error stop, w₁), hr =>
      obtain ⟨hstop, rfl⟩ := Prod.mk.inj hr
      obtain rfl : stop = .error e := Except.error.inj hstop
      obtain ⟨added, hadded⟩ := World.interrupted_of_result_forEach hadd
      exact .inr ⟨pairs, added, rfl, hadded⟩

variable (hhandler : m.table.handlersOf "override" = [overrideEvent])
  (hcatchAll : m.table.handlersOf catchAll = [runDeclared]) (hw : w.Plain "override")

include hhandler hcatchAll hw

theorem error_of_result_raise {patience : Nat}
    (hr : ((m.engine patience (m.perform patience)).raise "override" n).result hold w =
      (.error (.error e), w')) :
    m.settings.maxDepth ≤ w.session.depth ∧ w' = w ∨
      w.session.depth < m.settings.maxDepth ∧ ∃ engine e₀ w₁, e = e₀.crossing "override" ∧
        w' = w₁.shallower ∧ (overrideEvent engine (.plain "override" n)).result (hold.adding [n]) w.deeper =
          (.error (.error e₀), w₁) := by
  cases patience with
  | zero => cases hr
  | succ patience =>
    unfold Engine.raise at hr
    rw [result_bind] at hr
    change onward _ ((m.perform (patience + 1) .resolved (.plain "override" n)).result hold w) = _ at hr
    rcases Nat.lt_or_ge w.session.depth m.settings.maxDepth with hdepth | hdepth
    · refine .inr ⟨hdepth, m.engine patience (m.perform patience), ?_⟩
      have hflow : (m.perform (patience + 1) .resolved (.plain "override" n)).result hold w =
          leaving "override" ((overrideEvent (m.engine patience (m.perform patience))
            (.plain "override" n)).result (hold.adding [n]) w.deeper) :=
        (Machine.result_perform_of_none hdepth hw.supers).trans
          (congrArg (leaving "override") (Overriding.add.result_invoke hhandler hcatchAll hw.deeper))
      rw [hflow] at hr
      match hresult : (overrideEvent (m.engine patience (m.perform patience))
          (.plain "override" n)).result (hold.adding [n]) w.deeper, hr with
      | (.ok flow, _), hr =>
        obtain rfl := eq_normal_of_result_overrideEvent hresult
        cases hr
      | (.error (.error e₀), w₁), hr =>
        obtain ⟨he, rfl⟩ := Prod.mk.inj hr
        exact ⟨e₀, w₁, (Stop.error.inj (Except.error.inj he)).symm, rfl, rfl⟩
    · rw [Machine.perform_succ, result_entering_of_le hdepth] at hr
      exact .inl ⟨hdepth, (Prod.mk.inj hr).2.symm⟩

/-- While nothing stands in for it, an `override` that fails keeps the overrides that it added before it came
to one that would lead back to its base. All is as it was only if it failed at the first one or before. -/
theorem failed_override_keeps_earlier (patience : Nat)
    (hr : ((m.engine patience (m.perform patience)).raise "override" n).result hold w =
      (.error (.error e), w')) :
    let pairs := overridePairs (w.forest.seen (hold.adding [n])) n
    ∃ added, w.Gained w' added ∧
      (added ≠ [] → ∃ base super rest, pairs = .ok (added ++ (base, super) :: rest) ∧
        ¬ w'.Admits base super ∧ e = ⟨.overrideCycle base super, ["override"]⟩) ∧
      (w'.store.overrides = w.store.overrides ∧ w'.session.overrides = w.session.overrides ↔
        m.settings.maxDepth ≤ w.session.depth ∨
          ∀ first rest, pairs = .ok (first :: rest) → ¬ w.Admits first.1 first.2) := by
  intro pairs
  rcases error_of_result_raise hhandler hcatchAll hw hr with
    ⟨hdepth, rfl⟩ | ⟨hdepth, engine, e₀, w₁, rfl, rfl, hresult⟩
  · exact ⟨[], .of_eq rfl rfl, absurd rfl, iff_of_true ⟨rfl, rfl⟩ (.inl hdepth)⟩
  have hlimit : ¬ m.settings.maxDepth ≤ w.session.depth := Nat.not_le.mpr hdepth
  rcases interrupted_of_result_overrideEvent hresult with
    ⟨cause, hpairs, rfl⟩ | ⟨given, added, hpairs, hadded⟩
  · have hpairs : pairs = .error cause := hpairs
    refine ⟨[], .of_eq rfl rfl, absurd rfl, iff_of_true ⟨rfl, rfl⟩ (.inr fun first rest h => ?_)⟩
    cases hpairs.symm.trans h
  · have hpairs : pairs = .ok given := hpairs
    have hgained : w.Gained w₁.shallower added := ⟨hadded.gained.store, hadded.gained.session⟩
    refine ⟨added, hgained, fun hne => ?_, ?_⟩
    · obtain ⟨base, super, rest, hgiven, hrefused, he⟩ := hadded.stopped
      refine ⟨base, super, rest, hpairs.trans (congrArg _ hgiven), hrefused, ?_⟩
      rw [he (hadded.acyclic hne)]
      rfl
    · rw [hgained.unchanged_iff, hadded.added_eq_nil_iff, hpairs, or_iff_right hlimit]
      simp only [Except.ok.injEq]
      rfl

end Statement

/-- A statement on two overrides; the second one leads back at once. -/
def detour : Tree Selector :=
  ⟨"override", some (.string "a"), [⟨"super", some (.string "b"), []⟩, ⟨"super", some (.string "a"), []⟩]⟩

theorem failed_override_keeps_earlier_of_detour :
    let m : Machine := ⟨.default, coreTable⟩
    let w : World := ⟨(Forest.plant detour .empty).2, default, default⟩
    let r := ((m.engine 8 (m.perform 8)).raise "override" ⟨0⟩).result ⟨[], []⟩ w
    r.1 = .error (.error ⟨.overrideCycle "a" "a", ["override"]⟩) ∧ w.Gained r.2 [("a", "b")] ∧
      ¬ r.2.Admits "a" "a" := by
  intro m w r
  have hr : r.1 = .error (.error ⟨.overrideCycle "a" "a", ["override"]⟩) := by decide +kernel
  have hstored : r.2.store.overrides = [("a", "b")] := by decide +kernel
  obtain ⟨added, hgained, hstopped, -⟩ := failed_override_keeps_earlier rfl rfl (World.plain_start _ _) 8
    (Prod.ext hr rfl : r = (_, r.2))
  obtain rfl : added = [("a", "b")] := hgained.store.symm.trans hstored
  obtain ⟨base, super, rest, -, hrefused, he⟩ := hstopped (by decide)
  obtain ⟨rfl, rfl⟩ := Cause.overrideCycle.inj (Error.mk.inj he).1
  exact ⟨hr, hgained, hrefused⟩

theorem failed_override_changes_store_and_session :
    let m : Machine := ⟨.default, coreTable⟩
    let w : World := ⟨(Forest.plant detour .empty).2, default, default⟩
    let r := ((m.engine 8 (m.perform 8)).raise "override" ⟨0⟩).result ⟨[], []⟩ w
    r.1.isOk = false ∧
      (w.store.overrides = [] ∧ r.2.store.overrides = [("a", "b")]) ∧
      (w.session.overrides.pairs = [] ∧ r.2.session.overrides.pairs = [("a", "b")]) := by
  decide +kernel

end EventTree
