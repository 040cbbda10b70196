import EventTree.Proofs.Law.Keywords
import EventTree.Proofs.Listener.Staging
import EventTree.Proofs.Override.Replay

/-!
# Histories of listeners

Listeners come and go, overrides are added and removed, and events are raised. Whatever came before, each
handler of a registered listener is bound to it once, so that registering it again does nothing. A listener
that is registered and at once unregistered leaves the session as it was.
-/

namespace EventTree

open EventTree.Action

namespace Session

variable {s s' : Session} {table : Table} {present : List Listener} {listener : Listener}

/-! ## What registering comes to -/

theorem eq_gaining_of_register (h : s.register table listener = .ok s') :
    s' = s.gaining listener.id (s.fresh table listener) ∧
      ∃ g, s.overrides.addAll (overridesWith (s.fresh table listener)) = .ok g := by
  rw [register_eq] at h
  cases hadd : s.overrides.addAll (overridesWith (s.fresh table listener)) with
  | error cause =>
    rw [hadd] at h
    cases h
  | ok g =>
    rw [hadd] at h
    exact ⟨(Except.ok.inj h).symm, g, rfl⟩

theorem binds_gaining {owner other : Nat} {entry : TableEntry} {items : List (Level × TableEntry)}
    (h : s.binds other entry = true) : (s.gaining owner items).binds other entry = true := by
  obtain ⟨b, hb, hown⟩ := (s.binds_iff other entry).mp h
  refine (binds_iff ..).mpr ⟨b, ?_, hown⟩
  rw [bindingsOf_gaining]
  exact List.mem_append_left _ hb

theorem binds_gaining_fresh (hids : (table.listeners.map (·.id)).Nodup) {item : Level × TableEntry}
    (hitem : item ∈ listener.entries table) :
    (s.gaining listener.id (s.fresh table listener)).binds listener.id item.2 = true := by
  rcases s.exists_mem_unbound listener.id [] hitem with hbound | hseen | ⟨item', hnew, hid⟩
  · exact binds_gaining hbound
  · cases hseen
  · -- Numbers tell entries apart.
    have hentry : item'.2 = item.2 :=
      List.inj_on_of_nodup_map hids (Listener.mem_table_of_mem_entries (of_mem_unbound hnew).1)
        (Listener.mem_table_of_mem_entries hitem) hid
    refine (binds_iff ..).mpr ⟨⟨listener.id, item'.1, item'.2.id⟩, ?_, rfl, hid⟩
    rw [bindingsOf_gaining]
    refine List.mem_append_right _ (List.mem_map.mpr ⟨item', List.mem_filter.mpr ⟨hnew, ?_⟩, rfl⟩)
    exact decide_eq_true (congrArg (·.marker.event) hentry)

/-! ## Reached sessions -/

/-- The sessions that start with the overrides of a table and go on by operations of any kind, with the
listeners that are registered. Events may be raised and left at any time. -/
inductive Reached (table : Table) : List Listener → Session → Prop
  | start {g : OverrideGraph} : OverrideGraph.empty.addAll table.overrides = .ok g →
      Reached table [] (start g)
  | register {present : List Listener} {s s' : Session} {listener : Listener} :
      Reached table present s → s.register table listener = .ok s' →
      Reached table (listener :: present) s'
  | unregister {present : List Listener} {s : Session} (owner : Nat) : Reached table present s →
      Reached table (present.filter fun listener => listener.id ≠ owner) (s.unregister owner)
  | add {present : List Listener} {s : Session} {base super : String} {g : OverrideGraph} :
      Reached table present s → s.overrides.add base super = .ok g →
      Reached table present { s with overrides := g }
  | remove {present : List Listener} {s : Session} (base super : String) : Reached table present s →
      Reached table present { s with overrides := s.overrides.remove base super }
  | raising {present : List Listener} {s : Session} (depth : Nat) (bases : List (Option Call)) :
      Reached table present s → Reached table present { s with depth := depth, bases := bases }

/-- What holds of every reached session. The bindings of an event are of entries that answer to it, each
once for a listener, and installed overrides came with bindings of their owner. -/
structure Sound (table : Table) (present : List Listener) (s : Session) : Prop where
  proper : s.overrides.Proper
  acyclic : Acyclic s.overrides.Sends
  orderly : Orderly s.bindings
  known : ∀ event, ∀ b ∈ s.bindingsOf event,
    ∃ entry ∈ table.listeners, entry.id = b.entry ∧ entry.marker.event = event
  once : ∀ event, ((s.bindingsOf event).map fun b => (b.owner, b.entry)).Nodup
  owned : ∀ event, ∀ b ∈ s.bindingsOf event, ∃ listener ∈ present, listener.id = b.owner
  bound : ∀ listener ∈ present, ∀ item ∈ listener.entries table, s.binds listener.id item.2 = true
  installed : ∀ i ∈ s.installed, ∃ b ∈ s.bindingsOf i.super, b.owner = i.owner

theorem sound_start {g : OverrideGraph} (h : OverrideGraph.empty.addAll table.overrides = .ok g) :
    Sound table [] (start g) where
  proper := (OverrideGraph.addAll_supers OverrideGraph.proper_empty h).1
  acyclic := by
    refine ((exists_addAll_empty_iff _).mp ⟨g, h⟩).mono fun x y => ?_
    exact (sends_iff_of_addAll h x y).mp
  orderly := ⟨List.nodup_nil, by rintro _ ⟨⟩⟩
  known := by rintro _ _ ⟨⟩
  once := fun _ => List.nodup_nil
  owned := by rintro _ _ ⟨⟩
  bound := by rintro _ ⟨⟩
  installed := by rintro _ ⟨⟩

namespace Sound

variable (h : Sound table present s)

include h

theorem register (hids : (table.listeners.map (·.id)).Nodup) (hreg : s.register table listener = .ok s') :
    Sound table (listener :: present) s' := by
  obtain ⟨rfl, g, hadd⟩ := eq_gaining_of_register hreg
  have hfresh : ∀ item ∈ s.fresh table listener, _ := fun _ hitem => of_mem_unbound hitem
  refine ⟨h.proper.pushAll _, ?_, orderly_bindAll h.orderly _, fun event b hb => ?_, fun event => ?_,
    fun event b hb => ?_, ?_, fun i hi => ?_⟩
  · refine ((OverrideGraph.exists_addAll_iff h.acyclic _).mp ⟨g, hadd⟩).mono fun x y => ?_
    exact (OverrideGraph.sends_pushAll ..).mp
  · rw [bindingsOf_gaining, List.mem_append] at hb
    rcases hb with hb | hb
    · exact h.known event b hb
    · obtain ⟨item, hitem, rfl⟩ := List.mem_map.mp hb
      obtain ⟨hitem, hevent⟩ := List.mem_filter.mp hitem
      exact ⟨item.2, Listener.mem_table_of_mem_entries (hfresh item hitem).1, rfl, of_decide_eq_true hevent⟩
  · rw [bindingsOf_gaining, List.map_append, List.map_map]
    refine (h.once event).append (List.Nodup.of_map (·.2) ?_) fun pair hold hnew => ?_
    · rw [List.map_map]
      exact (s.nodup_unbound ..).sublist (List.filter_sublist.map _)
    · obtain ⟨b, hb, rfl⟩ := List.mem_map.mp hold
      obtain ⟨item, hitem, heq⟩ := List.mem_map.mp hnew
      obtain ⟨hitem, hevent⟩ := List.mem_filter.mp hitem
      obtain ⟨howner, hentry⟩ := Prod.mk.inj heq
      refine (hfresh item hitem).2.1 ((binds_iff ..).mpr ⟨b, ?_, howner.symm, hentry.symm⟩)
      rwa [of_decide_eq_true hevent]
  · rw [bindingsOf_gaining, List.mem_append] at hb
    rcases hb with hb | hb
    · obtain ⟨other, hother, howner⟩ := h.owned event b hb
      exact ⟨other, List.mem_cons_of_mem _ hother, howner⟩
    · obtain ⟨item, -, rfl⟩ := List.mem_map.mp hb
      exact ⟨listener, List.mem_cons_self, rfl⟩
  · intro other hother item hitem
    rcases List.mem_cons.mp hother with rfl | hother
    · exact binds_gaining_fresh hids hitem
    · exact binds_gaining (h.bound other hother item hitem)
  · rw [bindingsOf_gaining]
    rcases List.mem_append.mp hi with hi | hi
    · obtain ⟨b, hb, howner⟩ := h.installed i hi
      exact ⟨b, List.mem_append_left _ hb, howner⟩
    · obtain ⟨pair, hpair, rfl⟩ := List.mem_map.mp hi
      obtain ⟨item, hitem, hover⟩ := List.mem_filterMap.mp hpair
      obtain ⟨base, -, rfl⟩ := Option.map_eq_some_iff.mp hover
      refine ⟨⟨listener.id, item.1, item.2.id⟩, List.mem_append_right _ (List.mem_map_of_mem ?_), rfl⟩
      exact List.mem_filter.mpr ⟨hitem, decide_eq_true rfl⟩

theorem unregister (owner : Nat) :
    Sound table (present.filter fun listener => listener.id ≠ owner) (s.unregister owner) := by
  have hbindings := bindingsOf_unregister h.orderly owner
  have hkept : ∀ event, ∀ b ∈ s.bindingsOf event, b.owner ≠ owner →
      b ∈ (s.unregister owner).bindingsOf event := by
    intro event b hb hne
    rw [hbindings]
    exact List.mem_filter.mpr ⟨hb, decide_eq_true hne⟩
  refine ⟨?_, ?_, orderly_unregister h.orderly owner, fun event b hb => ?_, fun event => ?_,
    fun event b hb => ?_, fun listener hlistener item hitem => ?_, fun i hi => ?_⟩
  · rw [overrides_unregister]
    exact h.proper.removeAll _
  · rw [overrides_unregister]
    exact h.acyclic.mono fun _ _ => h.proper.sends_of_removeAll _
  · rw [hbindings] at hb
    exact h.known event b (List.mem_filter.mp hb).1
  · rw [hbindings]
    exact (h.once event).sublist (List.filter_sublist.map _)
  · rw [hbindings] at hb
    obtain ⟨hb, hne⟩ := List.mem_filter.mp hb
    obtain ⟨listener, hlistener, howner⟩ := h.owned event b hb
    exact ⟨listener, List.mem_filter.mpr ⟨hlistener, howner ▸ hne⟩, howner⟩
  · obtain ⟨hlistener, hne⟩ := List.mem_filter.mp hlistener
    obtain ⟨b, hb, howner, hentry⟩ := (binds_iff ..).mp (h.bound listener hlistener item hitem)
    refine (binds_iff ..).mpr ⟨b, hkept _ b hb ?_, howner, hentry⟩
    exact howner ▸ of_decide_eq_true hne
  · obtain ⟨hi, hne⟩ := List.mem_filter.mp hi
    obtain ⟨b, hb, howner⟩ := h.installed i hi
    exact ⟨b, hkept _ b hb (howner ▸ of_decide_eq_true hne), howner⟩

theorem add {base super : String} {g : OverrideGraph} (hadd : s.overrides.add base super = .ok g) :
    Sound table present { s with overrides := g } := by
  have hall : s.overrides.addAll [(base, super)] = .ok g := by
    rw [OverrideGraph.addAll, hadd]
    rfl
  obtain rfl := OverrideGraph.eq_pushAll_of_addAll hall
  refine { h with proper := h.proper.pushAll _, acyclic := ?_ }
  refine ((OverrideGraph.exists_addAll_iff h.acyclic _).mp ⟨_, hall⟩).mono fun x y => ?_
  exact (OverrideGraph.sends_pushAll ..).mp

theorem remove (base super : String) :
    Sound table present { s with overrides := s.overrides.remove base super } :=
  { h with
    proper := h.proper.remove base super
    acyclic := h.acyclic.mono fun _ _ => h.proper.sends_of_removeAll [(base, super)] }

end Sound

theorem Reached.sound (hids : (table.listeners.map (·.id)).Nodup) (h : Reached table present s) :
    Sound table present s := by
  induction h with
  | start hstart => exact sound_start hstart
  | register _ hreg ih => exact ih.register hids hreg
  | unregister owner _ ih => exact ih.unregister owner
  | add _ hadd ih => exact ih.add hadd
  | remove base super _ ih => exact ih.remove base super
  | raising depth bases _ ih => exact { ih with }

/-! ## Registering and unregistering -/

/-- The session after a call to register a listener, which may have been refused. -/
def afterRegister (s : Session) (table : Table) (listener : Listener) : Session :=
  (s.register table listener).toOption.getD s

theorem register_refused_iff (hacyclic : Acyclic s.overrides.Sends) :
    (∃ cause, s.register table listener = .error cause) ↔
      ¬ Acyclic fun x y => s.overrides.Sends x y ∨ (x, y) ∈ overridesWith (s.fresh table listener) := by
  rw [← OverrideGraph.exists_addAll_iff hacyclic, register_eq]
  cases s.overrides.addAll (overridesWith (s.fresh table listener)) <;> simp [Except.map]

namespace Sound

variable (h : Sound table present s)

include h

theorem register_present (hlistener : listener ∈ present) : s.register table listener = .ok s := by
  have hnone : s.fresh table listener = [] := unbound_eq_nil [] (h.bound listener hlistener)
  rw [register_eq, hnone]
  simp [gaining, overridesWith, installedWith, bindingsWith, bindAll, OverrideGraph.pushAll,
    OverrideGraph.addAll, Except.map]

theorem count_bindings (hids : (table.listeners.map (·.id)).Nodup) (hlistener : listener ∈ present)
    {item : Level × TableEntry} (hitem : item ∈ listener.entries table) (event : String) :
    ((s.bindingsOf event).map fun b => (b.owner, b.entry)).count (listener.id, item.2.id) =
      if item.2.marker.event = event then 1 else 0 := by
  split
  · rename_i hevent
    obtain ⟨b, hb, howner, hentry⟩ := (binds_iff ..).mp (h.bound listener hlistener item hitem)
    rw [hevent] at hb
    refine List.count_eq_one_of_mem (h.once event) (List.mem_map.mpr ⟨b, hb, ?_⟩)
    rw [howner, hentry]
  · rename_i hevent
    refine List.count_eq_zero_of_not_mem fun hmem => hevent ?_
    obtain ⟨b, hb, heq⟩ := List.mem_map.mp hmem
    obtain ⟨entry, hentry, hid, rfl⟩ := h.known event b hb
    -- numbers tell entries apart, so the entry of the binding is that of the item
    rw [List.inj_on_of_nodup_map hids (Listener.mem_table_of_mem_entries hitem) hentry]
    exact (Prod.mk.inj heq).2.symm.trans hid.symm

section Absent

variable (habsent : ∀ other ∈ present, other.id ≠ listener.id)

include habsent

theorem owner_ne {event : String} {b : Binding} (hb : b ∈ s.bindingsOf event) : b.owner ≠ listener.id := by
  obtain ⟨other, hother, howner⟩ := h.owned event b hb
  exact howner ▸ habsent other hother

theorem installed_ne {i : Installed} (hi : i ∈ s.installed) : i.owner ≠ listener.id := by
  obtain ⟨b, hb, howner⟩ := h.installed i hi
  exact howner ▸ h.owner_ne habsent hb

theorem unregister_register (hreg : s.register table listener = .ok s') :
    s'.unregister listener.id = s := by
  obtain ⟨rfl, -⟩ := eq_gaining_of_register hreg
  exact unregister_gaining h.proper h.orderly (fun _ _ => h.owner_ne habsent)
    (fun _ => h.installed_ne habsent) _

end Absent

end Sound

/-- In every reached session a registration is refused exactly if the overrides that come with it close a
cycle, and then nothing changes. A listener that is registered can be registered again without any change,
and each of its handlers is bound once. Unregistering a new listener at once undoes its registration. -/
theorem registration_laws {settings : Settings} {calls : List LoaderCall}
    (htable : ((Loader.empty settings).perform calls).table = table) (hs : Reached table present s)
    (listener : Listener) :
    ((∃ cause, s.register table listener = .error cause) ↔
      ¬ Acyclic fun x y => s.overrides.Sends x y ∨ (x, y) ∈ overridesWith (s.fresh table listener)) ∧
    (∀ cause, s.register table listener = .error cause → s.afterRegister table listener = s) ∧
    (listener ∈ present → s.register table listener = .ok s ∧
      ∀ item ∈ listener.entries table, ∀ event,
        ((s.bindingsOf event).map fun b => (b.owner, b.entry)).count (listener.id, item.2.id) =
          if item.2.marker.event = event then 1 else 0) ∧
    ((∀ other ∈ present, other.id ≠ listener.id) → ∀ s', s.register table listener = .ok s' →
      s'.unregister listener.id = s) := by
  have hids : (table.listeners.map (·.id)).Nodup := htable ▸ Loader.nodup_table settings calls
  have hsound := hs.sound hids
  refine ⟨register_refused_iff hsound.acyclic, fun cause hcause => ?_, fun hlistener => ?_,
    fun habsent s' hreg => hsound.unregister_register habsent hreg⟩
  · rw [afterRegister, hcause]
    rfl
  · exact ⟨hsound.register_present hlistener, fun item hitem event =>
      hsound.count_bindings hids hlistener hitem event⟩

/-- A handler overrides `e` by `x`, and so does a listener with one type at two levels. Another listener of
that type comes and goes, and one that overrides `x` by `e` is refused. -/
theorem registration_laws_of_repeated_type :
    let extra : HandlerUnit := ⟨"extra", [⟨.onOverride "x" "e", fun _ _ => return .normal⟩],
      [⟨"A", .onOverride "x" "e", fun _ _ _ => return .normal⟩,
        ⟨"B", .onOverride "e" "x", fun _ _ _ => return .normal⟩]⟩
    let table := ((Loader.empty .default).perform [.load extra]).table
    let a : Listener := ⟨0, [⟨"A", "one"⟩, ⟨"A", "two"⟩]⟩
    ∃ s s', Reached table [a] s ∧ s.register table a = .ok s ∧
      ((s.bindingsOf "x").map fun b => (b.owner, b.entry)).count (0, 0) = 1 ∧
      (∃ cause, s.register table ⟨1, [⟨"B", "three"⟩]⟩ = .error cause) ∧
      s.afterRegister table ⟨1, [⟨"B", "three"⟩]⟩ = s ∧
      s.register table ⟨2, [⟨"A", "four"⟩]⟩ = .ok s' ∧ s'.overrides.supersOf "e" = ["x", "x", "x"] ∧
      s'.unregister 2 = s := by
  intro extra table a
  let s : Session :=
    ⟨⟨[("e", ["x", "x"])]⟩, [("x", [⟨0, ⟨"A", "one"⟩, 0⟩])], [⟨0, "e", "x"⟩], 0, []⟩
  let s' : Session :=
    ⟨⟨[("e", ["x", "x", "x"])]⟩, [("x", [⟨0, ⟨"A", "one"⟩, 0⟩, ⟨2, ⟨"A", "four"⟩, 0⟩])],
      [⟨0, "e", "x"⟩, ⟨2, "e", "x"⟩], 0, []⟩
  have hs : Reached table [a] s := Reached.register (.start (g := ⟨[("e", ["x"])]⟩) rfl) rfl
  have hrefused : s.register table ⟨1, [⟨"B", "three"⟩]⟩ = .error (.overrideCycle "x" "e") := rfl
  obtain ⟨-, -, hpresent, -⟩ := registration_laws rfl hs a
  obtain ⟨-, hunchanged, -, -⟩ := registration_laws rfl hs ⟨1, [⟨"B", "three"⟩]⟩
  obtain ⟨-, -, -, hnew⟩ := registration_laws rfl hs ⟨2, [⟨"A", "four"⟩]⟩
  obtain ⟨hagain, honce⟩ := hpresent List.mem_cons_self
  exact ⟨s, s', hs, hagain, honce _ List.mem_cons_self "x", ⟨_, hrefused⟩, hunchanged _ hrefused, rfl, rfl,
    hnew (by simp [a]) s' rfl⟩

/-! ## Contexts -/

/-- What may happen while no listener comes or goes. -/
def operating (table : Table) : Law where
  allows w w' := ∀ present, Reached table present w.session → Reached table present w'.session
  refl _ _ := id
  trans h h' present hs := h' present (h present hs)
  forest _ _ _ := id
  store _ _ _ _ := id
  raising h present hs := (h present (hs.raising _ _)).raising _ _
  basing _ h present hs := (h present (hs.raising _ _)).raising _ _
  adding base super := by
    refine ⟨fun hold w => ?_⟩
    rw [result_addOverride]
    split
    · exact fun _ => id
    · split
      · exact fun _ => id
      · rename_i hcloses
        exact fun _ hs => hs.add (if_neg hcloses)
  dropping _ base super _ hs := hs.remove base super

theorem Reached.addPossible (h : Reached table present s) (pairs : List (String × String)) :
    Reached table present { s with overrides := Loader.addPossible s.overrides pairs } := by
  induction pairs generalizing s with
  | nil => exact h
  | cons pair rest ih =>
    obtain ⟨base, super⟩ := pair
    rw [Loader.addPossible_cons]
    split
    · exact ih h
    · rename_i hcloses
      exact ih (h.add (if_neg hcloses))

theorem takeOverrides_operating : Handler.Obeying Keyword.takeOverrides (operating table) := by
  intro engine _ call
  refine ⟨fun hold w => ?_⟩
  rw [result_takeOverrides]
  exact fun _ hs => hs.addPossible w.store.overrides

/-- All keywords act by operations on the session. -/
theorem coreTable_operating :
    ∀ entry ∈ coreTable.statics, Handler.Obeying entry.2 (operating table) := by
  intro entry hentry
  rcases coreTable_obeying entry hentry with h | rfl
  · exact h
  · exact takeOverrides_operating

end Session

namespace Context

variable {table : Table} {patience : Nat} {event : String} {n : NodeId} {hold : Hold}

theorem reached_raise {m : Machine} (hm : m.Obeying (Session.operating table)) {w : World}
    {present : List Listener} (hs : w.session.Reached table present) :
    Allowed (fun w' => w'.session.Reached table present)
      (((m.engine patience (m.perform patience)).raise event n).result hold w) :=
  ((Action.Obeys.raise (hm.engine patience) event n).allowed hold w).mono fun _ h => h present hs

theorem reached_start {l : Loader} (hm : Machine.Obeying ⟨l.settings, l.table⟩ (Session.operating l.table))
    {store : EventStore} {c : Context} (h : (start l patience store).1 = .ok c) :
    c.session.Reached l.table [] := by
  cases hadd : OverrideGraph.empty.addAll l.table.overrides with
  | error cause =>
    unfold start at h
    dsimp only at h
    rw [hadd] at h
    cases h
  | ok g =>
    rw [start_eq hadd] at h
    dsimp only at h
    generalize hr : Action.result _ _ _ = r at h
    have hreached : Allowed (fun w' => w'.session.Reached l.table []) r :=
      hr ▸ reached_raise hm (.start hadd)
    obtain ⟨outcome, w⟩ := r
    cases outcome with
    | error stop => cases h
    | ok _ =>
      obtain rfl := Except.ok.inj h
      exact hreached

end Context

end EventTree
