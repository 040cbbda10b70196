import EventTree.Loader
import EventTree.Proofs.Override.Graph
import Mathlib.Data.List.Induction

/-!
# Checking the handlers of a unit

Static handlers are checked one after the other. One is left out if its marker is not valid, or if its
override leads back through overrides that are there or came with the handlers accepted before it.
-/

namespace EventTree

open Relation

/-! ## Markers -/

namespace Marker

structure Valid (m : Marker) : Prop where
  named : m.event = "" → m.isCatchAll = true
  notData : m.event.front ≠ '_'
  overriding : ∀ base, m.overrides = some base → m.isCatchAll = false ∧ base ≠ "" ∧ base ≠ m.event

theorem fault?_eq_none_iff (m : Marker) : m.fault? = none ↔ m.Valid := by
  obtain ⟨event, overrides, isCatchAll⟩ := m
  simp only [fault?]
  constructor
  · intro h
    split at h
    · cases h
    · split at h
      · cases h
      · rename_i hnamed hdata
        refine ⟨by simpa using hnamed, by simpa using hdata, ?_⟩
        rintro base rfl
        dsimp only at h
        split at h
        · cases h
        · split at h
          · cases h
          · simp_all
  · rintro ⟨hnamed, hdata, hover⟩
    rw [if_neg (by simpa using hnamed), if_neg (by simpa using hdata)]
    cases overrides with
    | none => rfl
    | some base =>
      obtain ⟨hcatch, hbase, hself⟩ := hover base rfl
      dsimp only at hcatch hself
      simp [hcatch, hbase, hself]

theorem kind_of_fault? {m : Marker} {cause : Cause} (h : m.fault? = some cause) :
    cause.kind = .discovery := by
  unfold fault? at h
  split at h
  · cases h
    rfl
  · split at h
    · cases h
      rfl
    · split at h
      · cases h
      · split at h
        · cases h
          rfl
        · split at h
          · cases h
            rfl
          · cases h

/-- What speaks against a handler with the marker beside overrides. -/
inductive Unfit (m : Marker) (pairs : List (String × String)) : Prop
  | invalid : ¬ m.Valid → Unfit m pairs
  | closesCycle (base : String) : m.overrides = some base →
      ReflTransGen (fun x y => (x, y) ∈ pairs) m.event base → Unfit m pairs

end Marker

/-! ## One handler -/

namespace Loader

section Static

variable {g : OverrideGraph} {m : Marker}

theorem staticFault?_of_fault {cause : Cause} (h : m.fault? = some cause) :
    staticFault? g m = some cause := by
  rw [staticFault?, h]

theorem staticFault?_of_none (h : m.fault? = none) (hover : m.overrides = none) :
    staticFault? g m = none := by
  rw [staticFault?, h, hover]

theorem staticFault?_of_some {base : String} (h : m.fault? = none) (hover : m.overrides = some base) :
    staticFault? g m =
      if g.closesCycle base m.event then some (.cyclicMarker base m.event) else none := by
  rw [staticFault?, h, hover]

theorem staticFault?_congr {g' : OverrideGraph} (h : ∀ x y, g.Sends x y ↔ g'.Sends x y) :
    staticFault? g m = staticFault? g' m := by
  have hsends : g.Sends = g'.Sends := funext fun x => funext fun y => propext (h x y)
  have hcloses : ∀ base super, g.closesCycle base super = g'.closesCycle base super := by
    intro base super
    rw [Bool.eq_iff_iff, OverrideGraph.closesCycle_iff, OverrideGraph.closesCycle_iff, hsends]
  cases hfault : m.fault? with
  | some cause => rw [staticFault?_of_fault hfault, staticFault?_of_fault hfault]
  | none =>
    cases hover : m.overrides with
    | none => rw [staticFault?_of_none hfault hover, staticFault?_of_none hfault hover]
    | some base =>
      rw [staticFault?_of_some hfault hover, staticFault?_of_some hfault hover, hcloses]

theorem unfit_iff_staticFault? {pairs : List (String × String)}
    (hg : ∀ x y, g.Sends x y ↔ (x, y) ∈ pairs) : m.Unfit pairs ↔ ∃ cause, staticFault? g m = some cause := by
  have hsends : g.Sends = fun x y => (x, y) ∈ pairs := funext fun x => funext fun y => propext (hg x y)
  -- The marker on its own comes first; only a valid one is looked at beside the overrides.
  cases hfault : m.fault? with
  | some cause =>
    have hinvalid : ¬ m.Valid := by
      rw [← m.fault?_eq_none_iff, hfault]
      simp
    exact ⟨fun _ => ⟨cause, staticFault?_of_fault hfault⟩, fun _ => .invalid hinvalid⟩
  | none =>
    have hvalid : m.Valid := m.fault?_eq_none_iff.mp hfault
    constructor
    · rintro (hinvalid | ⟨base, hover, hback⟩)
      · exact absurd hvalid hinvalid
      · rw [← hsends, ← OverrideGraph.closesCycle_iff] at hback
        exact ⟨_, (staticFault?_of_some hfault hover).trans (if_pos hback)⟩
    · rintro ⟨cause, h⟩
      cases hover : m.overrides with
      | none =>
        rw [staticFault?_of_none hfault hover] at h
        cases h
      | some base =>
        rw [staticFault?_of_some hfault hover] at h
        split at h
        · rename_i hback
          rw [OverrideGraph.closesCycle_iff, hsends] at hback
          exact .closesCycle base hover hback
        · cases h

theorem kind_of_staticFault? {cause : Cause} (h : staticFault? g m = some cause) :
    cause.kind = .discovery := by
  cases hfault : m.fault? with
  | some cause' =>
    rw [staticFault?_of_fault hfault] at h
    exact Option.some.inj h ▸ Marker.kind_of_fault? hfault
  | none =>
    cases hover : m.overrides with
    | none =>
      rw [staticFault?_of_none hfault hover] at h
      cases h
    | some base =>
      rw [staticFault?_of_some hfault hover] at h
      split at h
      · cases h
        rfl
      · cases h

end Static

end Loader

/-! ## All handlers of a unit -/

/-- The override that comes with a static handler. -/
def StaticEntry.override? (entry : StaticEntry) : Option (String × String) :=
  entry.marker.overrides.map fun base => (base, entry.marker.event)

/-- Handlers checked beside overrides, one after the other: each is accepted or has a cause against it, on its
own, and the overrides of those accepted before it count. -/
inductive Sifted (pairs : List (String × String)) :
    List StaticEntry → List StaticEntry → List Cause → Prop
  | nil : Sifted pairs [] [] []
  | accept {staged accepted : List StaticEntry} {rejected : List Cause} {entry : StaticEntry} :
      Sifted pairs staged accepted rejected →
      ¬ entry.marker.Unfit (pairs ++ accepted.filterMap StaticEntry.override?) →
      Sifted pairs (staged ++ [entry]) (accepted ++ [entry]) rejected
  | reject {staged accepted : List StaticEntry} {rejected : List Cause} {entry : StaticEntry}
      {cause : Cause} : Sifted pairs staged accepted rejected →
      entry.marker.Unfit (pairs ++ accepted.filterMap StaticEntry.override?) →
      cause.kind = .discovery → Sifted pairs (staged ++ [entry]) accepted (rejected ++ [cause])

theorem Sifted.acyclic {pairs : List (String × String)} {staged accepted : List StaticEntry}
    {rejected : List Cause} (h : Sifted pairs staged accepted rejected)
    (hpairs : Acyclic fun x y => (x, y) ∈ pairs) :
    Acyclic fun x y => (x, y) ∈ pairs ++ accepted.filterMap StaticEntry.override? := by
  induction h with
  | nil => simpa using hpairs
  | reject _ _ _ ih => exact ih
  | @accept staged accepted rejected entry _ hfit ih =>
    cases hover : entry.marker.overrides with
    | none => simpa [StaticEntry.override?, hover] using ih
    | some base =>
      have hinsert := acyclic_insert_iff.mpr ⟨ih, fun hback => hfit (.closesCycle base hover hback)⟩
      refine hinsert.mono fun x y hxy => ?_
      simpa [StaticEntry.override?, hover, or_assoc] using hxy

namespace Loader

/-- The graph beside which a handler is checked after others were accepted. -/
def graphAfter (g : OverrideGraph) (accepted : List StaticEntry) : OverrideGraph :=
  g.pushAll (accepted.filterMap StaticEntry.override?)

theorem graphAfter_cons (g : OverrideGraph) (entry : StaticEntry) (accepted : List StaticEntry) :
    graphAfter g (entry :: accepted) = graphAfter (graphAfter g [entry]) accepted := by
  unfold graphAfter
  cases h : entry.override? <;> simp [h, OverrideGraph.pushAll]

theorem checkStatics_of_fault {g : OverrideGraph} {entry : StaticEntry} {cause : Cause}
    (h : staticFault? g entry.marker = some cause) (rest : List StaticEntry) :
    checkStatics g (entry :: rest) = ((checkStatics g rest).1, cause :: (checkStatics g rest).2) := by
  rw [checkStatics, h]

theorem checkStatics_of_fit {g : OverrideGraph} {entry : StaticEntry}
    (h : staticFault? g entry.marker = none) (rest : List StaticEntry) :
    checkStatics g (entry :: rest) = (entry :: (checkStatics (graphAfter g [entry]) rest).1,
      (checkStatics (graphAfter g [entry]) rest).2) := by
  rw [checkStatics, h]
  cases hover : entry.marker.overrides with
  | none => simp [graphAfter, StaticEntry.override?, hover, OverrideGraph.pushAll]
  | some base => simp [graphAfter, StaticEntry.override?, hover, OverrideGraph.pushAll]

theorem checkStatics_concat (g : OverrideGraph) (staged : List StaticEntry) (entry : StaticEntry) :
    checkStatics g (staged ++ [entry]) =
      match staticFault? (graphAfter g (checkStatics g staged).1) entry.marker with
      | some cause => ((checkStatics g staged).1, (checkStatics g staged).2 ++ [cause])
      | none => ((checkStatics g staged).1 ++ [entry], (checkStatics g staged).2) := by
  induction staged generalizing g with
  | nil =>
    change checkStatics g [entry] = match staticFault? g entry.marker with
      | some cause => ([], [cause])
      | none => ([entry], [])
    cases h : staticFault? g entry.marker with
    | some cause => exact checkStatics_of_fault h []
    | none => exact checkStatics_of_fit h []
  | cons first staged ih =>
    rw [List.cons_append]
    cases h : staticFault? g first.marker with
    | some cause =>
      rw [checkStatics_of_fault h, checkStatics_of_fault h, ih]
      dsimp only
      split <;> rfl
    | none =>
      rw [checkStatics_of_fit h, checkStatics_of_fit h, ih, ← graphAfter_cons]
      dsimp only
      split <;> rfl

/-- The check does what it should, beside a graph that has the overrides and no others. -/
theorem checkStatics_sifted {g : OverrideGraph} {pairs : List (String × String)}
    (hg : ∀ x y, g.Sends x y ↔ (x, y) ∈ pairs) (staged : List StaticEntry) :
    Sifted pairs staged (checkStatics g staged).1 (checkStatics g staged).2 := by
  induction staged using List.reverseRecOn with
  | nil => exact .nil
  | append_singleton staged entry ih =>
    have hafter : ∀ x y, (graphAfter g (checkStatics g staged).1).Sends x y ↔
        (x, y) ∈ pairs ++ (checkStatics g staged).1.filterMap StaticEntry.override? := by
      intro x y
      rw [graphAfter, OverrideGraph.sends_pushAll, hg, List.mem_append]
    have hunfit := unfit_iff_staticFault? (m := entry.marker) hafter
    rw [checkStatics_concat]
    cases h : staticFault? (graphAfter g (checkStatics g staged).1) entry.marker with
    | some cause => exact ih.reject (hunfit.mpr ⟨cause, h⟩) (kind_of_staticFault? h)
    | none =>
      refine ih.accept fun hun => ?_
      obtain ⟨cause, hcause⟩ := hunfit.mp hun
      rw [h] at hcause
      cases hcause

theorem checkStatics_congr {g g' : OverrideGraph} (h : ∀ x y, g.Sends x y ↔ g'.Sends x y)
    (staged : List StaticEntry) : checkStatics g staged = checkStatics g' staged := by
  induction staged using List.reverseRecOn with
  | nil => rfl
  | append_singleton staged entry ih =>
    have hafter : ∀ x y, (graphAfter g (checkStatics g' staged).1).Sends x y ↔
        (graphAfter g' (checkStatics g' staged).1).Sends x y := by
      intro x y
      rw [graphAfter, graphAfter, OverrideGraph.sends_pushAll, OverrideGraph.sends_pushAll, h]
    rw [checkStatics_concat, checkStatics_concat, ih, staticFault?_congr hafter]

/-! ## Overrides that are there -/

theorem addPossible_cons (g : OverrideGraph) (base super : String) (rest : List (String × String)) :
    addPossible g ((base, super) :: rest) =
      addPossible (if g.closesCycle base super then g else g.push base super) rest := rfl

theorem addPossible_eq_pushAll {g : OverrideGraph} {pairs : List (String × String)}
    (h : Acyclic fun x y => g.Sends x y ∨ (x, y) ∈ pairs) : addPossible g pairs = g.pushAll pairs := by
  induction pairs generalizing g with
  | nil => rfl
  | cons pair rest ih =>
    obtain ⟨base, super⟩ := pair
    have hinsert : Acyclic fun x y => g.Sends x y ∨ x = base ∧ y = super :=
      h.mono fun x y hxy => hxy.imp_right fun ⟨hx, hy⟩ => by simp [hx, hy]
    -- With the others there would be no way back, so there is none with fewer.
    have hopen : ¬ g.closesCycle base super = true := by
      rw [OverrideGraph.closesCycle_iff]
      exact (acyclic_insert_iff.mp hinsert).2
    have hrest : Acyclic fun x y => (g.push base super).Sends x y ∨ (x, y) ∈ rest := by
      refine h.mono fun x y hxy => ?_
      rw [OverrideGraph.sends_push, or_assoc] at hxy
      simpa using hxy
    rw [addPossible_cons, if_neg hopen, ih hrest]
    rfl

theorem sends_addPossible {pairs : List (String × String)} (h : Acyclic fun x y => (x, y) ∈ pairs)
    (x y : String) : (addPossible .empty pairs).Sends x y ↔ (x, y) ∈ pairs := by
  have hempty : Acyclic fun x y => OverrideGraph.empty.Sends x y ∨ (x, y) ∈ pairs :=
    h.mono fun x y hxy => hxy.resolve_left (OverrideGraph.not_sends_empty x y)
  rw [addPossible_eq_pushAll hempty, OverrideGraph.sends_pushAll]
  simp [OverrideGraph.not_sends_empty]

end Loader

end EventTree
