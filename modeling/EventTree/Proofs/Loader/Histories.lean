import EventTree.Proofs.Loader.Checking
import Mathlib.Data.List.Flatten

/-!
# Histories of a loader

Units are loaded, loaded again and unloaded. Whatever came before, the overrides of the loaded units make no
cycle, the units stand in the order of their last loads, and so do their handlers in the table.
-/

namespace EventTree

/-! ## Calls -/

inductive LoaderCall where
  | load (u : HandlerUnit)
  | unload (name : String)

/-- The name of the unit that a call is about. -/
def LoaderCall.unitName : LoaderCall → String
  | load u => u.name
  | unload name => name

/-- A unit that was loaded after some calls. -/
structure Load where
  before : List LoaderCall
  unit : HandlerUnit

/-- The loads that no later call undoes, in order: a unit of the same name neither replaces them nor is
unloaded. `before` are the calls so far. -/
def lastLoads (before : List LoaderCall) : List LoaderCall → List Load
  | [] => []
  | .load u :: later =>
    if later.any fun call => call.unitName = u.name then lastLoads (before ++ [.load u]) later
    else ⟨before, u⟩ :: lastLoads (before ++ [.load u]) later
  | .unload name :: later => lastLoads (before ++ [.unload name]) later

theorem lastLoads_concat (before calls : List LoaderCall) (call : LoaderCall) :
    lastLoads before (calls ++ [call]) =
      ((lastLoads before calls).filter fun load => load.unit.name ≠ call.unitName) ++
        match call with
        | .load u => [⟨before ++ calls, u⟩]
        | .unload _ => [] := by
  induction calls generalizing before with
  | nil => cases call <;> simp [lastLoads]
  | cons first calls ih =>
    rw [List.cons_append]
    cases first with
    | unload name =>
      rw [lastLoads, lastLoads, ih]
      simp
    | load u =>
      rw [lastLoads, lastLoads, ih]
      by_cases hlater : (calls.any fun call => call.unitName = u.name) = true
      · have hany : ((calls ++ [call]).any fun call => call.unitName = u.name) = true := by
          rw [List.any_append, hlater, Bool.true_or]
        rw [if_pos hany, if_pos hlater]
        simp
      · -- The last call counts among the later ones, and may be the first of them about this unit.
        by_cases hcall : call.unitName = u.name
        · have hany : ((calls ++ [call]).any fun call => call.unitName = u.name) = true := by
            simp [hcall]
          rw [if_pos hany, if_neg hlater, List.filter_cons_of_neg (by simp [hcall])]
          simp
        · have hany : ¬ ((calls ++ [call]).any fun call => call.unitName = u.name) = true := by
            simpa [hcall] using hlater
          rw [if_neg hany, if_neg hlater, List.filter_cons_of_pos (by simp [Ne.symm hcall])]
          simp

theorem nodup_lastLoads (before calls : List LoaderCall) :
    ((lastLoads before calls).map (·.unit.name)).Nodup := by
  induction calls using List.reverseRecOn with
  | nil => exact List.nodup_nil
  | append_singleton calls call ih =>
    have hkept : (((lastLoads before calls).filter fun load => load.unit.name ≠ call.unitName).map
        (·.unit.name)).Nodup := ih.sublist (List.filter_sublist.map _)
    rw [lastLoads_concat, List.map_append]
    cases call with
    | unload name => simpa using hkept
    | load u =>
      refine hkept.append (List.nodup_singleton u.name) (List.disjoint_singleton.mpr fun hmem => ?_)
      obtain ⟨load, hload, hname⟩ := List.mem_map.mp hmem
      exact of_decide_eq_true (List.mem_filter.mp hload).2 hname

example : (lastLoads [] [.load ⟨"a", [], []⟩, .load ⟨"b", [], []⟩, .load ⟨"c", [], []⟩, .load ⟨"a", [], []⟩,
    .unload "c"]).map (·.unit.name) = ["b", "a"] := by decide

namespace Loader

variable {l : Loader}

def after (l : Loader) : LoaderCall → Loader
  | .load u => (l.load u).2
  | .unload name => l.unload name

/-- The loader after calls, one after the other. -/
def perform (l : Loader) (calls : List LoaderCall) : Loader := calls.foldl after l

theorem perform_concat (l : Loader) (calls : List LoaderCall) (call : LoaderCall) :
    l.perform (calls ++ [call]) = (l.perform calls).after call := by
  simp [perform]

/-! ## One load -/

/-- The static handlers of a unit, checked beside those of other units. -/
def sift (others : List LoadedUnit) (u : HandlerUnit) : List StaticEntry × List Cause :=
  checkStatics (addPossible .empty (others.flatMap (·.unit.overrides))) u.statics

/-- What is left of a unit once it is loaded beside other units. -/
def accepted (others : List LoadedUnit) (u : HandlerUnit) : HandlerUnit :=
  ⟨u.name, (sift others u).1, (checkListeners u.listeners).1⟩

theorem units_load (l : Loader) (u : HandlerUnit) :
    (l.load u).2.units.map (·.unit) =
      (l.others u.name).map (·.unit) ++ [accepted (l.others u.name) u] := by
  simp [load, accepted, sift]

theorem rejected_load (l : Loader) (u : HandlerUnit) :
    (l.load u).1.rejected = (sift (l.others u.name) u).2 ++ (checkListeners u.listeners).2 := by
  simp [load, sift]

section Others

variable {others : List LoadedUnit} (h : Acyclic fun x y => (x, y) ∈ others.flatMap (·.unit.overrides))

include h

theorem sifted (u : HandlerUnit) :
    Sifted (others.flatMap (·.unit.overrides)) u.statics (sift others u).1 (sift others u).2 :=
  checkStatics_sifted (sends_addPossible h) u.statics

theorem sift_of_perm {arranged : List LoadedUnit} (hperm : arranged.Perm others) (u : HandlerUnit) :
    sift arranged u = sift others u := by
  have hmem : ∀ x y, (x, y) ∈ arranged.flatMap (·.unit.overrides) ↔
      (x, y) ∈ others.flatMap (·.unit.overrides) := fun x y => (hperm.flatMap_right _).mem_iff
  have harranged : Acyclic fun x y => (x, y) ∈ arranged.flatMap (·.unit.overrides) :=
    h.mono fun x y => (hmem x y).mp
  refine checkStatics_congr (fun x y => ?_) u.statics
  rw [sends_addPossible harranged, sends_addPossible h, hmem]

theorem acyclic_accepted (u : HandlerUnit) :
    Acyclic fun x y => (x, y) ∈ others.flatMap (·.unit.overrides) ++ (accepted others u).overrides :=
  (sifted h u).acyclic h

end Others

/-! ## All calls -/

theorem overrides_eq (l : Loader) :
    l.table.overrides = (l.units.map (·.unit)).flatMap HandlerUnit.overrides := by
  simp [table, List.flatMap_map]

theorem acyclic_others (h : Acyclic fun x y => (x, y) ∈ l.table.overrides) (name : String) :
    Acyclic fun x y => (x, y) ∈ (l.others name).flatMap (·.unit.overrides) := by
  refine h.mono fun x y hxy => ?_
  obtain ⟨u, hu, hpair⟩ := List.mem_flatMap.mp hxy
  exact List.mem_flatMap.mpr ⟨u, (List.mem_filter.mp hu).1, hpair⟩

theorem acyclic_after (h : Acyclic fun x y => (x, y) ∈ l.table.overrides) (call : LoaderCall) :
    Acyclic fun x y => (x, y) ∈ (l.after call).table.overrides := by
  cases call with
  | unload name => exact acyclic_others h name
  | load u =>
    have haccepted := acyclic_accepted (acyclic_others h u.name) u
    rw [after, overrides_eq, units_load]
    simpa [List.flatMap_map] using haccepted

theorem acyclic_perform (settings : Settings) (calls : List LoaderCall) :
    Acyclic fun x y => (x, y) ∈ ((empty settings).perform calls).table.overrides := by
  induction calls using List.reverseRecOn with
  | nil => exact acyclic_of_not_sends fun _ _ hpair => by cases hpair
  | append_singleton calls call ih =>
    rw [perform_concat]
    exact acyclic_after ih call

/-- What is left of the unit of a load. -/
def acceptedAt (settings : Settings) (load : Load) : HandlerUnit :=
  accepted (((empty settings).perform load.before).others load.unit.name) load.unit

theorem units_others (l : Loader) (name : String) :
    (l.others name).map (·.unit) = (l.units.map (·.unit)).filter fun u => u.name ≠ name := by
  rw [others, List.filter_map]
  rfl

theorem units_perform (settings : Settings) (calls : List LoaderCall) :
    ((empty settings).perform calls).units.map (·.unit) =
      (lastLoads [] calls).map (acceptedAt settings) := by
  induction calls using List.reverseRecOn with
  | nil => rfl
  | append_singleton calls call ih =>
    have hothers : (((empty settings).perform calls).others call.unitName).map (·.unit) =
        ((lastLoads [] calls).filter fun load => load.unit.name ≠ call.unitName).map
          (acceptedAt settings) := by
      rw [units_others, ih, List.filter_map]
      rfl
    rw [perform_concat, lastLoads_concat, List.map_append, ← hothers]
    cases call with
    | load u => exact units_load _ u
    | unload name => exact (List.append_nil _).symm

theorem unitNames_perform (settings : Settings) (calls : List LoaderCall) :
    ((empty settings).perform calls).unitNames = (lastLoads [] calls).map (·.unit.name) := by
  have hunits := congrArg (List.map HandlerUnit.name) (units_perform settings calls)
  rwa [List.map_map, List.map_map] at hunits

theorem handlersOf_table (l : Loader) (event : String) :
    l.table.handlersOf event = (l.units.map (·.unit)).flatMap fun u =>
      (u.statics.filter fun entry => entry.marker.event == event).map (·.handler) := by
  unfold Table.handlersOf table
  dsimp only
  rw [List.filter_flatMap, List.map_flatMap, List.flatMap_map]
  refine List.flatMap_congr fun u _ => ?_
  rw [List.filter_map, List.map_map]
  rfl

/-! ## Numbers -/

/-- Every listener handler has its number, and no number is given twice. -/
structure Numbered (l : Loader) : Prop where
  lengths : ∀ u ∈ l.units, u.numbers.length = u.unit.listeners.length
  nodup : (l.units.flatMap (·.numbers)).Nodup
  below : ∀ id ∈ l.units.flatMap (·.numbers), id < l.next

theorem Numbered.of_others (h : l.Numbered) (name : String) : Numbered { l with units := l.others name } := by
  have hsublist : (l.others name).Sublist l.units := List.filter_sublist
  refine ⟨fun u hu => h.lengths u (hsublist.subset hu), h.nodup.sublist (hsublist.flatMap _), ?_⟩
  exact fun id hid => h.below id ((hsublist.flatMap _).subset hid)

theorem Numbered.after (h : l.Numbered) (call : LoaderCall) : (l.after call).Numbered := by
  cases call with
  | unload name => exact h.of_others name
  | load u =>
    obtain ⟨hlengths, hnodup, hbelow⟩ := h.of_others u.name
    dsimp only at hlengths hnodup hbelow
    simp only [Loader.after, load]
    refine ⟨fun v hv => ?_, ?_, fun id hid => ?_⟩
    · rcases List.mem_append.mp hv with hv | hv
      · exact hlengths v hv
      · simp [List.mem_singleton.mp hv]
    · rw [List.flatMap_append, List.flatMap_singleton]
      refine hnodup.append List.nodup_range' fun id hold hnew => ?_
      have := hbelow id hold
      have := (List.mem_range'_1.mp hnew).1
      omega
    · rw [List.flatMap_append, List.flatMap_singleton, List.mem_append, List.mem_range'_1] at hid
      dsimp only
      rcases hid with hid | hid
      · have := hbelow id hid
        omega
      · omega

theorem numbered_perform (settings : Settings) (calls : List LoaderCall) :
    ((empty settings).perform calls).Numbered := by
  induction calls using List.reverseRecOn with
  | nil =>
    refine ⟨?_, List.nodup_nil, ?_⟩
    · rintro _ ⟨⟩
    · rintro _ ⟨⟩
  | append_singleton calls call ih =>
    rw [perform_concat]
    exact ih.after call

theorem ids_tableEntries {u : LoadedUnit} (h : u.numbers.length = u.unit.listeners.length) :
    (tableEntries u).map (·.id) = u.numbers := by
  refine List.ext_getElem (by simp [tableEntries, h]) fun i _ _ => ?_
  simp [tableEntries]

theorem nodup_table (settings : Settings) (calls : List LoaderCall) :
    (((empty settings).perform calls).table.listeners.map (·.id)).Nodup := by
  have hnumbered := numbered_perform settings calls
  have hids : ((empty settings).perform calls).table.listeners.map (·.id) =
      ((empty settings).perform calls).units.flatMap (·.numbers) := by
    rw [table, List.map_flatMap]
    exact List.flatMap_congr fun u hu => ids_tableEntries (hnumbered.lengths u hu)
  rw [hids]
  exact hnumbered.nodup

/-- After any loads and unloads, the overrides of the loaded units make no cycle, so that a session can always
take them over. The units are listed once each, in the order of their last loads, and the handlers of an event
are those accepted from these units, in the order of the units and as they stand in each unit. What a load
accepts and rejects is said by `Sifted`, beside the overrides of the other units in whatever order. -/
theorem loader_keeps_invariant (settings : Settings) (calls : List LoaderCall) :
    let l := (empty settings).perform calls
    Acyclic (fun base super => (base, super) ∈ l.table.overrides) ∧
      (∃ g, OverrideGraph.empty.addAll l.table.overrides = .ok g) ∧
      l.unitNames = (lastLoads [] calls).map (·.unit.name) ∧ l.unitNames.Nodup ∧
      (∀ event, l.table.handlersOf event = (lastLoads [] calls).flatMap fun load =>
        ((acceptedAt settings load).statics.filter fun entry => entry.marker.event == event).map
          (·.handler)) ∧
      (∀ load ∈ lastLoads [] calls, ∃ rejected,
        Sifted ((((empty settings).perform load.before).others load.unit.name).flatMap (·.unit.overrides))
          load.unit.statics (acceptedAt settings load).statics rejected) ∧
      ∀ u, ∃ accepted rejected,
        Sifted ((l.others u.name).flatMap (·.unit.overrides)) u.statics accepted rejected ∧
        (l.load u).1.rejected = rejected ++ (checkListeners u.listeners).2 ∧
        (l.load u).2.units.map (·.unit) =
          (l.others u.name).map (·.unit) ++ [⟨u.name, accepted, (checkListeners u.listeners).1⟩] ∧
        ∀ others, others.Perm (l.others u.name) → sift others u = (accepted, rejected) := by
  intro l
  have hacyclic : Acyclic fun x y => (x, y) ∈ l.table.overrides := acyclic_perform settings calls
  have hnames : l.unitNames = (lastLoads [] calls).map (·.unit.name) := unitNames_perform settings calls
  refine ⟨hacyclic, (exists_addAll_empty_iff _).mpr hacyclic, hnames, ?_, fun event => ?_,
    fun load _ => ?_, fun u => ?_⟩
  · rw [hnames]
    exact nodup_lastLoads [] calls
  · rw [handlersOf_table, units_perform, List.flatMap_map]
  · exact ⟨_, sifted (acyclic_others (acyclic_perform settings load.before) _) load.unit⟩
  · have hothers := acyclic_others hacyclic u.name
    exact ⟨_, _, sifted hothers u, rejected_load l u, units_load l u,
      fun others hperm => sift_of_perm hothers hperm u⟩

end Loader

end EventTree
