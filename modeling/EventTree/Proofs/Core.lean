import EventTree.Context

/-!
# The core

All keywords load: no marker of the core is at fault, none overrides anything, and no two units share a
name. So the table of a core machine holds the handlers of all keywords and nothing else.
-/

namespace EventTree

namespace HandlerUnit

/-- A unit of static handlers that are in order and override nothing. -/
structure Plain (u : HandlerUnit) : Prop where
  statics : ∀ entry ∈ u.statics, entry.marker.fault? = none ∧ entry.marker.overrides = none
  listeners : u.listeners = []

end HandlerUnit

namespace Loader

theorem checkStatics_of_plain {g : OverrideGraph} {entries : List StaticEntry}
    (h : ∀ entry ∈ entries, entry.marker.fault? = none ∧ entry.marker.overrides = none) :
    checkStatics g entries = (entries, []) := by
  induction entries with
  | nil => rfl
  | cons entry rest ih =>
    obtain ⟨hfault, hover⟩ := h entry List.mem_cons_self
    have hok : staticFault? g entry.marker = none := by
      rw [staticFault?, hfault, hover]
    rw [checkStatics, hok, hover]
    simp only [ih fun e he => h e (List.mem_cons_of_mem _ he)]

theorem load_of_plain (l : Loader) {u : HandlerUnit} (h : u.Plain) :
    l.load u =
      (⟨u.name, u.statics.length, []⟩, { l with units := l.others u.name ++ [⟨u, []⟩] }) := by
  obtain ⟨name, statics, listeners⟩ := u
  obtain rfl : listeners = [] := h.listeners
  rw [load, checkStatics_of_plain h.statics]
  rfl

theorem loadWhole_of_plain {us : List HandlerUnit} (l : Loader) (h : ∀ u ∈ us, u.Plain)
    (hnames : (l.unitNames ++ us.map (·.name)).Nodup) :
    l.loadWhole us = .ok { l with units := l.units ++ us.map (⟨·, []⟩) } := by
  induction us generalizing l with
  | nil => simp [loadWhole]
  | cons u us ih =>
    have hnew : u.name ∉ l.unitNames := fun hm =>
      (List.nodup_append.mp hnames).2.2 u.name hm u.name (by simp) rfl
    -- A unit with a new name takes the place of no other.
    have hothers : l.others u.name = l.units := by
      rw [others, List.filter_eq_self]
      intro v hv
      refine decide_eq_true fun e => hnew ?_
      rw [← e]
      exact List.mem_map_of_mem hv
    rw [loadWhole, load_of_plain l (h u List.mem_cons_self), hothers]
    have hrest := ih { l with units := l.units ++ [⟨u, []⟩] }
      (fun v hv => h v (List.mem_cons_of_mem _ hv)) (by simpa [unitNames] using hnames)
    simpa using hrest

end Loader

theorem coreUnits_plain : ∀ u ∈ coreUnits, u.Plain := by
  have hmarkers : ∀ m ∈ coreUnits.flatMap (·.statics.map (·.marker)),
      m.fault? = none ∧ m.overrides = none := by decide
  have hlisteners : ∀ u ∈ coreUnits, u.listeners.isEmpty := by decide
  intro u hu
  refine ⟨fun entry he => hmarkers entry.marker ?_, List.isEmpty_iff.mp (hlisteners u hu)⟩
  exact List.mem_flatMap.mpr ⟨u, hu, List.mem_map_of_mem he⟩

theorem coreUnits_names : (coreUnits.map (·.name)).Nodup := by
  decide

namespace Loader

theorem core_eq (settings : Settings) :
    core settings = .ok ⟨settings, coreUnits.map (⟨·, []⟩), 0⟩ :=
  loadWhole_of_plain (empty settings) coreUnits_plain coreUnits_names

end Loader

/-- The table of all keywords. -/
def coreTable : Table where
  statics := coreUnits.flatMap fun u => u.statics.map fun entry => (entry.marker.event, entry.handler)
  overrides := []
  listeners := []

namespace Machine

/-- A machine with all keywords and no other handlers. -/
def IsCore (m : Machine) : Prop := ∃ l, Loader.core m.settings = .ok l ∧ m.table = l.table

theorem IsCore.table_eq {m : Machine} (h : m.IsCore) : m.table = coreTable := by
  obtain ⟨l, hl, ht⟩ := h
  rw [Loader.core_eq] at hl
  rw [ht, ← Except.ok.inj hl]
  rfl

theorem isCore_coreTable (settings : Settings) : IsCore ⟨settings, coreTable⟩ :=
  ⟨_, Loader.core_eq settings, rfl⟩

end Machine

end EventTree
