import EventTree.Proofs.Override.Removal
import EventTree.Registration

/-!
# What a registration brings

Registering goes through the handlers of all types of a listener. It passes over those that are bound
already and binds each of the others once, at the first level that has it. Their overrides are added in
this order, all of them or none. Unregistering takes out what has the listener as its owner.
-/

namespace EventTree

/-- The handlers of all types of a listener, level by level. -/
def Listener.entries (listener : Listener) (table : Table) : List (Level × TableEntry) :=
  listener.chain.flatMap fun level => (table.entriesOf level.type).map fun entry => (level, entry)

theorem Listener.mem_table_of_mem_entries {listener : Listener} {table : Table} {item : Level × TableEntry}
    (h : item ∈ listener.entries table) : item.2 ∈ table.listeners := by
  obtain ⟨level, -, hitem⟩ := List.mem_flatMap.mp h
  obtain ⟨entry, hentry, rfl⟩ := List.mem_map.mp hitem
  exact (List.mem_filter.mp hentry).1

/-! ## Entries of a listener -/

section Items

variable (owner : Nat) (items : List (Level × TableEntry))

/-- The overrides that come with entries. -/
def overridesWith : List (String × String) :=
  items.filterMap fun item => item.2.marker.overrides.map fun base => (base, item.2.marker.event)

def installedWith : List Installed := (overridesWith items).map fun pair => ⟨owner, pair.1, pair.2⟩

def bindingsWith : List (String × Binding) :=
  items.map fun item => (item.2.marker.event, ⟨owner, item.1, item.2.id⟩)

theorem pairs_installedWith :
    (installedWith owner items).map (fun i => (i.base, i.super)) = overridesWith items := by
  rw [installedWith, List.map_map]
  exact List.map_id _

variable {owner items} in
theorem owner_of_installedWith {i : Installed} (h : i ∈ installedWith owner items) : i.owner = owner := by
  obtain ⟨pair, -, rfl⟩ := List.mem_map.mp h
  rfl

end Items

namespace Session

variable {s : Session} {table : Table} {listener : Listener} {owner : Nat}
  {items : List (Level × TableEntry)}

/-! ## Registering -/

/-- Whether an entry is bound to a listener. -/
def binds (s : Session) (owner : Nat) (entry : TableEntry) : Bool :=
  (s.bindingsOf entry.marker.event).any fun b => b.entry == entry.id && b.owner == owner

/-- The entries that are neither bound to a listener nor seen before. -/
def unbound (s : Session) (owner : Nat) (seen : List Nat) :
    List (Level × TableEntry) → List (Level × TableEntry)
  | [] => []
  | item :: rest =>
    if s.binds owner item.2 ∨ item.2.id ∈ seen then unbound s owner seen rest
    else item :: unbound s owner (item.2.id :: seen) rest

/-- The entries that registering a listener binds. -/
def fresh (s : Session) (table : Table) (listener : Listener) : List (Level × TableEntry) :=
  s.unbound listener.id [] (listener.entries table)

/-- Bindings with more, added one after the other. -/
def bindAll (bindings : List (String × List Binding)) (pairs : List (String × Binding)) :
    List (String × List Binding) :=
  pairs.foldl (fun bindings pair => bind bindings pair.1 pair.2) bindings

/-- The session with more entries bound to a listener. -/
def gaining (s : Session) (owner : Nat) (items : List (Level × TableEntry)) : Session :=
  { s with
    overrides := s.overrides.pushAll (overridesWith items)
    installed := s.installed ++ installedWith owner items
    bindings := bindAll s.bindings (bindingsWith owner items) }

/-- What a registration has come to once it has staged more entries. -/
def Staged.adding (staged : Staged) (owner : Nat) (items : List (Level × TableEntry)) : Staged where
  overrides := staged.overrides.pushAll (overridesWith items)
  installed := staged.installed ++ installedWith owner items
  bindings := staged.bindings ++ bindingsWith owner items

theorem Staged.adding_nil (staged : Staged) (owner : Nat) : staged.adding owner [] = staged := by
  simp [adding, overridesWith, installedWith, bindingsWith, OverrideGraph.pushAll]

theorem Staged.adding_append (staged : Staged) (owner : Nat) (items items' : List (Level × TableEntry)) :
    staged.adding owner (items ++ items') = (staged.adding owner items).adding owner items' := by
  simp [adding, overridesWith, installedWith, bindingsWith, OverrideGraph.pushAll, List.append_assoc]

theorem stageEntry_of_unbound {level : Level} {staged : Staged} {entry : TableEntry}
    (h : ¬ s.isBound owner staged entry = true) :
    s.stageEntry owner level staged entry =
      (staged.overrides.addAll (overridesWith [(level, entry)])).map fun _ =>
        staged.adding owner [(level, entry)] := by
  rw [stageEntry, if_neg h, Staged.adding]
  cases hover : entry.marker.overrides with
  | none =>
    simp [overridesWith, installedWith, bindingsWith, hover, OverrideGraph.addAll, Except.map,
      OverrideGraph.pushAll]
  | some base =>
    simp only [overridesWith, installedWith, bindingsWith, hover, List.filterMap_cons, Option.map_some,
      List.filterMap_nil, OverrideGraph.addAll_cons, OverrideGraph.add]
    cases staged.overrides.closesCycle base entry.marker.event <;> rfl

theorem stage_from (s : Session) (owner : Nat) (items : List (Level × TableEntry)) (staged : Staged)
    {seen : List Nat} (hseen : ∀ id, id ∈ seen ↔ ∃ b ∈ staged.bindings, b.2.entry = id) :
    items.foldlM (fun staged item => s.stageEntry owner item.1 staged item.2) staged =
      (staged.overrides.addAll (overridesWith (s.unbound owner seen items))).map fun _ =>
        staged.adding owner (s.unbound owner seen items) := by
  induction items generalizing staged seen with
  | nil => exact congrArg Except.ok (staged.adding_nil owner).symm
  | cons item rest ih =>
    obtain ⟨level, entry⟩ := item
    -- `seen` stands for what was staged so far.
    have hbound : s.isBound owner staged entry = true ↔ s.binds owner entry ∨ entry.id ∈ seen := by
      simp [isBound, binds, hseen]
    rw [List.foldlM_cons, unbound]
    by_cases h : s.isBound owner staged entry = true
    · rw [stageEntry, if_pos h, if_pos (hbound.mp h)]
      exact ih staged hseen
    · rw [stageEntry_of_unbound h, if_neg (mt hbound.mpr h)]
      have hseen' : ∀ id, id ∈ entry.id :: seen ↔
          ∃ b ∈ (staged.adding owner [(level, entry)]).bindings, b.2.entry = id := by
        intro id
        simp [Staged.adding, bindingsWith, hseen, or_comm, eq_comm]
      have hrest := ih (staged.adding owner [(level, entry)]) hseen'
      generalize s.unbound owner (entry.id :: seen) rest = more at hrest ⊢
      have hoverrides : overridesWith ((level, entry) :: more) =
          overridesWith [(level, entry)] ++ overridesWith more := List.filterMap_append (l := [_])
      rw [hoverrides, OverrideGraph.addAll_append]
      cases hadd : staged.overrides.addAll (overridesWith [(level, entry)]) with
      | error cause => rfl
      | ok g =>
        obtain rfl := OverrideGraph.eq_pushAll_of_addAll hadd
        rw [← Staged.adding_append] at hrest
        exact hrest

theorem register_eq (s : Session) (table : Table) (listener : Listener) :
    s.register table listener = (s.overrides.addAll (overridesWith (s.fresh table listener))).map fun _ =>
      s.gaining listener.id (s.fresh table listener) := by
  have hnone : ∀ id, id ∈ ([] : List Nat) ↔ ∃ b ∈ ([] : List (String × Binding)), b.2.entry = id := by simp
  have hstage : s.stage table listener = _ :=
    s.stage_from listener.id (listener.entries table) ⟨s.overrides, [], []⟩ hnone
  rw [register, hstage, fresh]
  cases s.overrides.addAll (overridesWith (s.unbound listener.id [] (listener.entries table))) <;> rfl

/-! ## Entries that were not bound -/

theorem binds_iff (s : Session) (owner : Nat) (entry : TableEntry) :
    s.binds owner entry = true ↔
      ∃ b ∈ s.bindingsOf entry.marker.event, b.owner = owner ∧ b.entry = entry.id := by
  simp [binds, and_comm]

theorem of_mem_unbound {seen : List Nat} {items : List (Level × TableEntry)} {item : Level × TableEntry}
    (h : item ∈ s.unbound owner seen items) :
    item ∈ items ∧ ¬ s.binds owner item.2 = true ∧ item.2.id ∉ seen := by
  induction items generalizing seen with
  | nil => cases h
  | cons first rest ih =>
    rw [unbound] at h
    split at h
    · obtain ⟨hitem, hunbound, hseen⟩ := ih h
      exact ⟨List.mem_cons_of_mem _ hitem, hunbound, hseen⟩
    · rename_i hfirst
      rcases List.mem_cons.mp h with rfl | h
      · exact ⟨List.mem_cons_self, fun hb => hfirst (.inl hb), fun hs => hfirst (.inr hs)⟩
      · obtain ⟨hitem, hunbound, hseen⟩ := ih h
        exact ⟨List.mem_cons_of_mem _ hitem, hunbound, fun hs => hseen (List.mem_cons_of_mem _ hs)⟩

theorem nodup_unbound (s : Session) (owner : Nat) (seen : List Nat) (items : List (Level × TableEntry)) :
    ((s.unbound owner seen items).map (·.2.id)).Nodup := by
  induction items generalizing seen with
  | nil => exact List.nodup_nil
  | cons first rest ih =>
    rw [unbound]
    split
    · exact ih seen
    · refine List.nodup_cons.mpr ⟨fun hmem => ?_, ih _⟩
      obtain ⟨item, hitem, hid⟩ := List.mem_map.mp hmem
      exact (of_mem_unbound hitem).2.2 (hid ▸ List.mem_cons_self)

theorem exists_mem_unbound (s : Session) (owner : Nat) (seen : List Nat)
    {items : List (Level × TableEntry)} {item : Level × TableEntry} (h : item ∈ items) :
    s.binds owner item.2 = true ∨ item.2.id ∈ seen ∨
      ∃ item' ∈ s.unbound owner seen items, item'.2.id = item.2.id := by
  induction items generalizing seen with
  | nil => cases h
  | cons first rest ih =>
    rw [unbound]
    rcases List.mem_cons.mp h with rfl | h
    · split
      · rename_i hfirst
        exact hfirst.imp_right .inl
      · exact .inr (.inr ⟨item, List.mem_cons_self, rfl⟩)
    · split
      · exact ih seen h
      · rcases ih (first.2.id :: seen) h with hbound | hseen | ⟨item', hitem', hid⟩
        · exact .inl hbound
        · rcases List.mem_cons.mp hseen with heq | hseen
          · exact .inr (.inr ⟨first, List.mem_cons_self, heq.symm⟩)
          · exact .inr (.inl hseen)
        · exact .inr (.inr ⟨item', List.mem_cons_of_mem _ hitem', hid⟩)

theorem unbound_eq_nil (seen : List Nat) {items : List (Level × TableEntry)}
    (h : ∀ item ∈ items, s.binds owner item.2 = true) : s.unbound owner seen items = [] :=
  List.eq_nil_iff_forall_not_mem.mpr fun item hitem =>
    (of_mem_unbound hitem).2.1 (h item (of_mem_unbound hitem).1)

/-! ## Bindings -/

theorem bind_eq_extendAt (bindings : List (String × List Binding)) (event : String) (b : Binding) :
    bind bindings event b = extendAt bindings event [b] := rfl

theorem lookup_bindAll (bindings : List (String × List Binding)) (pairs : List (String × Binding))
    (event : String) :
    ((bindAll bindings pairs).lookup event).getD [] =
      (bindings.lookup event).getD [] ++ (pairs.filter (·.1 = event)).map (·.2) := by
  induction pairs generalizing bindings with
  | nil => simp [bindAll]
  | cons pair rest ih =>
    obtain ⟨event', b⟩ := pair
    refine (ih (bind bindings event' b)).trans ?_
    rw [bind_eq_extendAt, lookup_extendAt]
    by_cases h : event = event'
    · subst h
      simp
    · simp [h, Ne.symm h]

theorem bindingsOf_gaining (s : Session) (owner : Nat) (items : List (Level × TableEntry))
    (event : String) :
    (s.gaining owner items).bindingsOf event = s.bindingsOf event ++
      (items.filter fun item => item.2.marker.event = event).map fun item => ⟨owner, item.1, item.2.id⟩ := by
  rw [bindingsOf, gaining, lookup_bindAll, bindingsWith, List.filter_map, List.map_map]
  rfl

theorem orderly_bindAll {bindings : List (String × List Binding)} (h : Orderly bindings)
    (pairs : List (String × Binding)) : Orderly (bindAll bindings pairs) := by
  induction pairs generalizing bindings with
  | nil => exact h
  | cons pair rest ih => exact ih (h.extendAt pair.1 (List.cons_ne_nil pair.2 []))

/-! ## Unregistering -/

/-- Bindings without those of a listener. -/
def released (owner : Nat) (bindings : List (String × List Binding)) : List (String × List Binding) :=
  occupied (bindings.map fun slot => (slot.1, slot.2.filter fun b => b.owner ≠ owner))

theorem keys_released (owner : Nat) (bindings : List (String × List Binding)) :
    (bindings.map fun slot => (slot.1, slot.2.filter fun b => b.owner ≠ owner)).map (·.1) =
      bindings.map (·.1) := by
  simp

theorem bindingsOf_unregister (h : Orderly s.bindings) (owner : Nat) (event : String) :
    (s.unregister owner).bindingsOf event = (s.bindingsOf event).filter fun b => b.owner ≠ owner := by
  have hnodup := (keys_released owner s.bindings).symm ▸ h.nodup
  refine (getD_lookup_occupied hnodup event).trans ?_
  rw [lookup_map_snd s.bindings (List.filter fun b => b.owner ≠ owner), bindingsOf]
  cases s.bindings.lookup event <;> rfl

theorem orderly_unregister (h : Orderly s.bindings) (owner : Nat) :
    Orderly (s.unregister owner).bindings :=
  orderly_occupied ((keys_released owner s.bindings).symm ▸ h.nodup)

theorem overrides_unregister (s : Session) (owner : Nat) :
    (s.unregister owner).overrides = s.overrides.removeAll
      ((s.installed.filter fun i => i.owner = owner).map fun i => (i.base, i.super)) := by
  rw [OverrideGraph.removeAll, List.foldl_map]
  rfl

theorem released_bind (owner : Nat) (bindings : List (String × List Binding)) (event : String)
    {b : Binding} (hb : b.owner = owner) :
    released owner (bind bindings event b) = released owner bindings := by
  unfold released bind
  split
  · rw [List.map_map]
    refine congrArg occupied (List.map_congr_left fun slot _ => ?_)
    by_cases hs : slot.1 = event <;> simp [hs, hb]
  · simp [hb, occupied]

theorem released_bindAll (owner : Nat) (bindings : List (String × List Binding))
    (items : List (Level × TableEntry)) :
    released owner (bindAll bindings (bindingsWith owner items)) = released owner bindings := by
  induction items generalizing bindings with
  | nil => rfl
  | cons item rest ih => exact (ih _).trans (released_bind owner bindings _ rfl)

theorem released_eq_self {bindings : List (String × List Binding)} (h : Orderly bindings)
    (hnone : ∀ slot ∈ bindings, ∀ b ∈ slot.2, b.owner ≠ owner) : released owner bindings = bindings := by
  have hmap : (bindings.map fun slot => (slot.1, slot.2.filter fun b => b.owner ≠ owner)) = bindings := by
    refine (List.map_congr_left fun slot hslot => ?_).trans (List.map_id _)
    have hkeep : (slot.2.filter fun b => b.owner ≠ owner) = slot.2 :=
      List.filter_eq_self.mpr fun b hb => decide_eq_true (hnone slot hslot b hb)
    rw [hkeep, id]
  rw [released, hmap, occupied_eq_self h.nonempty]

theorem mine_gaining (hinstalled : ∀ i ∈ s.installed, i.owner ≠ owner) (items : List (Level × TableEntry)) :
    ((s.gaining owner items).installed.filter fun i => i.owner = owner) = installedWith owner items := by
  have hnone : (s.installed.filter fun i => i.owner = owner) = [] := by simpa using hinstalled
  have hall : ((installedWith owner items).filter fun i => i.owner = owner) = installedWith owner items := by
    simpa using fun i => owner_of_installedWith
  rw [gaining, List.filter_append, hnone, hall, List.nil_append]

theorem unregister_gaining (hproper : s.overrides.Proper) (hslots : Orderly s.bindings)
    (hbindings : ∀ event, ∀ b ∈ s.bindingsOf event, b.owner ≠ owner)
    (hinstalled : ∀ i ∈ s.installed, i.owner ≠ owner) (items : List (Level × TableEntry)) :
    (s.gaining owner items).unregister owner = s := by
  -- Slots that were made for the listener alone are empty and go with it.
  have hslots' : released owner (bindAll s.bindings (bindingsWith owner items)) = s.bindings := by
    rw [released_bindAll]
    refine released_eq_self hslots fun slot hslot b hb => hbindings slot.1 b ?_
    rw [bindingsOf, lookup_of_mem hslots.nodup hslot]
    exact hb
  have hothers : ((s.installed ++ installedWith owner items).filter fun i => i.owner ≠ owner) =
      s.installed := by
    rw [List.filter_append, List.filter_eq_self.mpr (by simpa using hinstalled),
      List.filter_eq_nil_iff.mpr (by simpa using fun i => owner_of_installedWith), List.append_nil]
  have hoverrides : ((s.gaining owner items).unregister owner).overrides = s.overrides := by
    rw [overrides_unregister, mine_gaining hinstalled, pairs_installedWith]
    exact hproper.removeAll_pushAll _
  calc (s.gaining owner items).unregister owner
      = { s with
          overrides := ((s.gaining owner items).unregister owner).overrides
          installed := (s.installed ++ installedWith owner items).filter fun i => i.owner ≠ owner
          bindings := released owner (bindAll s.bindings (bindingsWith owner items)) } := rfl
    _ = s := by rw [hoverrides, hothers, hslots']

end Session

end EventTree
