import EventTree.Proofs.Loader.Histories
import EventTree.Proofs.Override.Resolution
import EventTree.Proofs.Store

/-!
# New sessions

A context starts with the overrides of its handlers and then takes over the stored ones, one after the
other. A stored override is left out if it would lead back to its base, through overrides of the handlers
or through stored ones that were kept before it.
-/

namespace EventTree

open EventTree.Action Keyword
open Relation (ReflTransGen)

/-! ## What is kept -/

/-- Overrides taken over beside fixed ones, one after the other: one is left out if a way leads back from
its super to its base, through the fixed ones and those kept before it. -/
inductive Kept (fixed : List (String × String)) :
    List (String × String) → List (String × String) → Prop
  | nil : Kept fixed [] []
  | keep {given kept : List (String × String)} {base super : String} : Kept fixed given kept →
      ¬ ReflTransGen (fun x y => (x, y) ∈ fixed ++ kept) super base →
      Kept fixed (given ++ [(base, super)]) (kept ++ [(base, super)])
  | leave {given kept : List (String × String)} {base super : String} : Kept fixed given kept →
      ReflTransGen (fun x y => (x, y) ∈ fixed ++ kept) super base →
      Kept fixed (given ++ [(base, super)]) kept

theorem Acyclic.of_append {fixed given more : List (String × String)}
    (h : Acyclic fun x y => (x, y) ∈ fixed ++ (given ++ more)) :
    Acyclic fun x y => (x, y) ∈ fixed ++ given := by
  refine h.mono fun x y hxy => ?_
  rw [← List.append_assoc]
  exact List.mem_append_left more hxy

theorem Kept.eq_of_acyclic {fixed given kept : List (String × String)} (h : Kept fixed given kept)
    (hacyclic : Acyclic fun x y => (x, y) ∈ fixed ++ given) : kept = given := by
  induction h with
  | nil => rfl
  | keep _ _ ih => rw [ih hacyclic.of_append]
  | @leave given kept base super _ hback ih =>
    rw [ih hacyclic.of_append] at hback
    -- What is left out closes a cycle with the overrides before it.
    have hinsert : Acyclic fun x y => (x, y) ∈ fixed ++ given ∨ x = base ∧ y = super := by
      refine hacyclic.mono fun x y hxy => ?_
      rw [← List.append_assoc, List.mem_append, List.mem_singleton, Prod.mk.injEq]
      exact hxy
    exact absurd hback (acyclic_insert_iff.mp hinsert).2

theorem OverrideGraph.pushAll_concat (g : OverrideGraph) (pairs : List (String × String))
    (base super : String) : g.pushAll (pairs ++ [(base, super)]) = (g.pushAll pairs).push base super := by
  simp [pushAll]

namespace Loader

theorem addPossible_concat (g : OverrideGraph) (pairs : List (String × String)) (base super : String) :
    addPossible g (pairs ++ [(base, super)]) =
      if (addPossible g pairs).closesCycle base super then addPossible g pairs
      else (addPossible g pairs).push base super := by
  simp only [addPossible, List.foldl_append]
  rfl

theorem addPossible_of_addAll {g g' : OverrideGraph} {pairs : List (String × String)}
    (h : g.addAll pairs = .ok g') : addPossible g pairs = g' := by
  induction pairs generalizing g with
  | nil => exact Except.ok.inj h
  | cons pair rest ih =>
    obtain ⟨base, super⟩ := pair
    rw [OverrideGraph.addAll_cons] at h
    split at h
    · cases h
    · rename_i hcloses
      rw [addPossible_cons, if_neg hcloses, ih h]

theorem exists_kept {g : OverrideGraph} {fixed : List (String × String)}
    (hg : ∀ x y, g.Sends x y ↔ (x, y) ∈ fixed) (given : List (String × String)) :
    ∃ kept, Kept fixed given kept ∧ addPossible g given = g.pushAll kept := by
  induction given using List.reverseRecOn with
  | nil => exact ⟨[], .nil, rfl⟩
  | append_singleton given pair ih =>
    obtain ⟨base, super⟩ := pair
    obtain ⟨kept, hkept, hadd⟩ := ih
    have hsends : (addPossible g given).Sends = fun x y => (x, y) ∈ fixed ++ kept := by
      funext x y
      rw [hadd, OverrideGraph.sends_pushAll, hg, List.mem_append]
    have hcloses := (addPossible g given).closesCycle_iff base super
    rw [hsends] at hcloses
    rw [addPossible_concat]
    split
    · rename_i hback
      exact ⟨kept, hkept.leave (hcloses.mp hback), hadd⟩
    · rename_i hback
      refine ⟨kept ++ [(base, super)], hkept.keep (mt hcloses.mpr hback), ?_⟩
      rw [OverrideGraph.pushAll_concat, hadd]

end Loader

/-! ## The handler -/

section Handler

variable {hold : Hold} {w : World}

theorem result_takeEach (pairs : List (String × String)) :
    (forEach pairs fun (base, super) => do
      let closes ← askSession (·.overrides.closesCycle base super)
      if closes then return
      else editSession fun s => { s with overrides := s.overrides.push base super }).result hold w =
        (.ok (), { w with session := { w.session with
          overrides := Loader.addPossible w.session.overrides pairs } }) := by
  induction pairs generalizing w with
  | nil => rfl
  | cons pair rest ih =>
    obtain ⟨base, super⟩ := pair
    have hpair : (do
        let closes ← askSession (·.overrides.closesCycle base super)
        if closes then return
        else editSession fun s => { s with overrides := s.overrides.push base super } :
          Action Unit).result hold w = (.ok (), { w with session := { w.session with
            overrides := Loader.addPossible w.session.overrides [(base, super)] } }) := by
      rw [result_bind_ok (result_askSession _), Loader.addPossible_cons]
      split
      · rfl
      · rfl
    exact (result_bind_ok hpair).trans ih

theorem result_takeOverrides (engine : Engine) (call : Call) :
    (takeOverrides engine call).result hold w = (.ok .normal, { w with
      store := w.store.noting .overrides
      session := { w.session with
        overrides := Loader.addPossible w.session.overrides w.store.overrides } }) := by
  unfold takeOverrides
  rw [result_bind_ok (result_editStore _), result_bind_ok (result_askStore _)]
  exact result_bind_ok (result_takeEach w.store.overrides)

/-- An event without bodies may have been declared nevertheless. -/
theorem result_runDeclared_of_no_bodies {engine : Engine} {call : Call}
    (h : (w.store.bodies? call.event).getD [] = []) :
    (runDeclared engine call).result hold w = (.ok .normal, w) := by
  cases hbodies : w.store.bodies? call.event with
  | none => exact Machine.result_runDeclared hbodies
  | some bodies =>
    rw [hbodies] at h
    obtain rfl : bodies = [] := h
    unfold runDeclared
    rw [result_bind_ok (result_askStore _), hbodies]
    rfl

end Handler

/-! ## Starting -/

theorem Context.start_eq {l : Loader} {patience : Nat} {store : EventStore} {g : OverrideGraph}
    (h : OverrideGraph.empty.addAll l.table.overrides = .ok g) :
    Context.start l patience store =
      let m : Machine := ⟨l.settings, l.table⟩
      let n := (Forest.empty.create startEvent).1
      let r := ((m.engine patience (m.perform patience)).raise startEvent n).result (.ofCall n n)
        ⟨(Forest.empty.create startEvent).2, store, .start g⟩
      (r.1.map fun _ => ⟨m, r.2.session⟩, r.2.store) := by
  unfold Context.start
  dsimp only
  rw [h]
  rfl

theorem Context.start_takes {l : Loader} {g : OverrideGraph}
    (hg : OverrideGraph.empty.addAll l.table.overrides = .ok g) (hsupers : g.supers? startEvent = none)
    (hstart : l.table.handlersOf startEvent = [takeOverrides])
    (hcatchAll : l.table.handlersOf catchAll = [runDeclared]) (hdepth : 0 < l.settings.maxDepth)
    {patience : Nat} (hpatience : 0 < patience) {store : EventStore}
    (hbodies : (store.bodies? startEvent).getD [] = []) :
    Context.start l patience store =
      (.ok ⟨⟨l.settings, l.table⟩, .start (Loader.addPossible g store.overrides)⟩,
        store.noting .overrides) := by
  obtain ⟨patience, rfl⟩ := Nat.exists_eq_succ_of_ne_zero (Nat.ne_of_gt hpatience)
  let m : Machine := ⟨l.settings, l.table⟩
  let n := (Forest.empty.create startEvent).1
  let w : World := ⟨(Forest.empty.create startEvent).2, store, .start g⟩
  let w' : World := { w with
    store := store.noting .overrides, session := .start (Loader.addPossible g store.overrides) }
  have hinvoke : (m.invoke (m.engine patience (m.perform patience)) (.plain startEvent n)).result
      (.ofCall n n) w.deeper = (.ok .normal, w'.deeper) := by
    have htake : (inTurn (m.table.handlersOf startEvent) fun h =>
        h (m.engine patience (m.perform patience)) (.plain startEvent n)).result
          ((Hold.ofCall n n).adding [n]) w.deeper = (.ok .normal, w'.deeper) := by
      rw [show m.table.handlersOf startEvent = [takeOverrides] from hstart, result_inTurn_singleton]
      exact result_takeOverrides _ _
    refine Machine.result_invoke_normal (by decide) htake ?_ rfl rfl
    rw [show m.table.handlersOf catchAll = [runDeclared] from hcatchAll, result_inTurn_singleton]
    exact result_runDeclared_of_no_bodies hbodies
  have hflow : ((m.engine (patience + 1) (m.perform (patience + 1))).raiseFlow startEvent n).result
      (.ofCall n n) w = (.ok .normal, w') := by
    refine (Machine.result_perform_of_none hdepth hsupers).trans ?_
    exact congrArg (leaving startEvent) hinvoke
  have hraise : ((m.engine (patience + 1) (m.perform (patience + 1))).raise startEvent n).result
      (.ofCall n n) w = (.ok (), w') := result_raise_normal hflow
  rw [start_eq hg]
  change (Except.map _ (Action.result _ _ w).1, _) = _
  rw [hraise]
  rfl

theorem Loader.handlersOf_of_unit {l : Loader} (hnames : l.unitNames.Nodup) {u : HandlerUnit}
    (hu : u ∈ l.units.map (·.unit)) {event : String}
    (hothers : ∀ v ∈ l.units.map (·.unit), v.name ≠ u.name →
      ∀ entry ∈ v.statics, entry.marker.event ≠ event) :
    l.table.handlersOf event =
      (u.statics.filter fun entry => entry.marker.event == event).map (·.handler) := by
  obtain ⟨before, after, hsplit⟩ := List.append_of_mem hu
  have hnodup : ((before ++ u :: after).map (·.name)).Nodup := by
    rw [← hsplit, List.map_map]
    exact hnames
  -- Names are there once, so all other units are among those that do not answer.
  have hnone : ∀ vs ⊆ before ++ after, (vs.flatMap fun v =>
      (v.statics.filter fun entry => entry.marker.event == event).map (·.handler)) = [] := by
    intro vs hvs
    refine List.flatMap_eq_nil_iff.mpr fun v hv => ?_
    have hname : v.name ≠ u.name := by
      rw [List.map_append, List.map_cons, List.nodup_middle, List.nodup_cons, ← List.map_append] at hnodup
      exact fun e => hnodup.1 (e ▸ List.mem_map_of_mem (hvs hv))
    have hmem : v ∈ l.units.map (·.unit) := by
      rw [hsplit, List.mem_append, List.mem_cons]
      exact (List.mem_append.mp (hvs hv)).imp_right .inr
    rw [List.map_eq_nil_iff, List.filter_eq_nil_iff]
    exact fun entry he => by simpa using hothers v hmem hname entry he
  rw [handlersOf_table, hsplit, List.flatMap_append, List.flatMap_cons,
    hnone before (List.subset_append_left _ _), hnone after (List.subset_append_right _ _)]
  simp

/-- A context starts on every store if the unit of declarations is loaded, nothing else answers to the start
event or stands in for it, and no body was declared for it. Each event then has its supers from the table and
after them the stored ones that were kept. A stored override is left out only if it closes a cycle. -/
theorem Context.start_replays_store {settings : Settings} {calls : List LoaderCall} {l : Loader}
    (hl : (Loader.empty settings).perform calls = l) (hunit : declarationUnit ∈ l.units.map (·.unit))
    (hothers : ∀ u ∈ l.units.map (·.unit), u.name ≠ declarationUnit.name →
      ∀ entry ∈ u.statics, entry.marker.event ≠ startEvent ∧ entry.marker.event ≠ catchAll)
    (hsupers : ∀ super, (startEvent, super) ∉ l.table.overrides) (hdepth : 1 ≤ l.settings.maxDepth)
    {patience : Nat} (hpatience : 0 < patience) {store : EventStore}
    (hbodies : (store.bodies? startEvent).getD [] = []) :
    ∃ g kept, Context.start l patience store =
        (.ok ⟨⟨l.settings, l.table⟩, .start g⟩, store.noting .overrides) ∧
      Kept l.table.overrides store.overrides kept ∧
      (∀ base, g.supersOf base = supersIn l.table.overrides base ++ supersIn kept base) ∧
      ((Acyclic fun base super => (base, super) ∈ l.table.overrides ++ store.overrides) →
        kept = store.overrides) := by
  have hacyclic : Acyclic fun x y => (x, y) ∈ l.table.overrides := hl ▸ Loader.acyclic_perform settings calls
  have hnames : l.unitNames.Nodup := by
    rw [← hl, Loader.unitNames_perform]
    exact nodup_lastLoads [] calls
  obtain ⟨g, hg⟩ := (exists_addAll_empty_iff _).mpr hacyclic
  obtain ⟨hproper, hstatic⟩ := OverrideGraph.addAll_supers OverrideGraph.proper_empty hg
  obtain ⟨kept, hkept, hadd⟩ := Loader.exists_kept (sends_iff_of_addAll hg) store.overrides
  have hplain : g.supers? startEvent = none := by
    rw [hproper.supers?_eq, if_pos]
    refine List.eq_nil_iff_forall_not_mem.mpr fun super hsuper => hsupers super ?_
    exact (sends_iff_of_addAll hg startEvent super).mp hsuper
  have hstart : l.table.handlersOf startEvent = [takeOverrides] :=
    Loader.handlersOf_of_unit hnames hunit fun u hu hname entry he => (hothers u hu hname entry he).1
  have hcatchAll : l.table.handlersOf catchAll = [runDeclared] :=
    Loader.handlersOf_of_unit hnames hunit fun u hu hname entry he => (hothers u hu hname entry he).2
  refine ⟨_, kept, start_takes hg hplain hstart hcatchAll hdepth hpatience hbodies, hkept, fun base => ?_,
    hkept.eq_of_acyclic⟩
  rw [hadd, OverrideGraph.supersOf_pushAll, hstatic]
  rfl

/-- A handler sends `a` to `b`, and what is stored would lead from `b` back to `a`. -/
theorem Context.start_replays_store_of_loop :
    let extra : HandlerUnit := ⟨"extra", [⟨.onOverride "b" "a", fun _ _ => return .normal⟩], []⟩
    let l := (Loader.empty .default).perform [.load declarationUnit, .load extra]
    let store := (EventStore.empty fun _ => 0).perform
      [.declare startEvent [], .addOverride "b" "c", .addOverride "c" "a", .addOverride "a" "d"]
    ∃ g kept, Context.start l 8 store =
        (.ok ⟨⟨l.settings, l.table⟩, .start g⟩, store.noting .overrides) ∧
      Kept [("a", "b")] [("b", "c"), ("c", "a"), ("a", "d")] kept ∧
      g.supersOf "a" = ["b"] ++ supersIn kept "a" ∧ g.supersOf "a" = ["b", "d"] ∧ g.supersOf "c" = [] := by
  intro extra l store
  have hothers : ∀ u ∈ l.units.map (·.unit), u.name ≠ declarationUnit.name →
      ∀ entry ∈ u.statics, entry.marker.event ≠ startEvent ∧ entry.marker.event ≠ catchAll := by
    have hunits : l.units.map (·.unit) = [declarationUnit, extra] := rfl
    rw [hunits]
    simp [extra, startEvent, catchAll, Marker.onOverride]
  obtain ⟨g, kept, hstart, hkept, hsupers, -⟩ := start_replays_store (l := l) rfl (.head _) hothers
    (by simp [show l.table.overrides = [("a", "b")] from rfl, startEvent]) (by decide) (by decide : 0 < 8)
    (by decide +kernel : (store.bodies? startEvent).getD [] = [])
  have hrun : (Context.start l 8 store).1.toOption.map (fun c =>
      (c.session.overrides.supersOf "a", c.session.overrides.supersOf "c")) =
        some (["b", "d"], []) := by decide +kernel
  rw [hstart] at hrun
  obtain ⟨ha, hc⟩ := Prod.mk.inj (Option.some.inj hrun)
  exact ⟨g, kept, hstart, hkept, hsupers "a", ha, hc⟩

end EventTree
