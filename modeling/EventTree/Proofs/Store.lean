import EventTree.Proofs.Override.Graph
import Mathlib.Data.List.Induction

/-!
# Histories of a store

A store is asked for one thing after the other. Whatever came before, it has the bodies of an event that were
declared since the event was removed last, the mask shows the slots of the declared events and no others,
and the stored overrides make no cycle.
-/

namespace EventTree

open Relation

/-! ## Calls -/

/-- What can be asked of a store. -/
inductive StoreCall where
  | declare (name : String) (bodies : List Snapshot)
  | remove (name : String)
  | bodies (name : String)
  | names
  | addOverride (base super : String)
  | removeOverride (base super : String)

namespace EventStore

/-- The store after a call. -/
def after (s : EventStore) : StoreCall → EventStore
  | .declare name bodies => s.declare name bodies
  | .remove name => s.remove name
  | .bodies name => s.lookUp name
  | .names => s.noting .names
  | .addOverride base super => s.addOverride base super
  | .removeOverride base super => s.removeOverride base super

/-- Whether a call is answered with success; those that cannot fail always are. -/
def grants (s : EventStore) : StoreCall → Bool
  | .remove name => s.contains name
  | .addOverride base super => (s.overrideFault? base super).isNone
  | .removeOverride base super => s.overrides.contains (base, super)
  | .declare .. | .bodies _ | .names => true

/-- The store after calls, one after the other. -/
def perform (s : EventStore) (calls : List StoreCall) : EventStore := calls.foldl after s

/-- The calls, each with whether it was granted. -/
def record (s : EventStore) : List StoreCall → List (StoreCall × Bool)
  | [] => []
  | call :: calls => (call, s.grants call) :: (s.after call).record calls

theorem perform_concat (s : EventStore) (calls : List StoreCall) (call : StoreCall) :
    s.perform (calls ++ [call]) = (s.perform calls).after call := by
  simp [perform]

theorem record_concat (s : EventStore) (calls : List StoreCall) (call : StoreCall) :
    s.record (calls ++ [call]) = s.record calls ++ [(call, (s.perform calls).grants call)] := by
  induction calls generalizing s with
  | nil => rfl
  | cons first calls ih =>
    rw [List.cons_append, record, ih, record, List.cons_append]
    rfl

end EventStore

/-! ## What was declared -/

namespace StoreCall

/-- Whether an event was removed, which takes that it was declared. -/
def isRemoval (name : String) : StoreCall × Bool → Bool
  | (remove other, granted) => other == name && granted
  | _ => false

/-- The bodies that a call declares under a name. -/
def bodiesFor? (name : String) : StoreCall × Bool → Option (List Snapshot)
  | (declare other given, _) => if other = name then some given else none
  | _ => none

/-- The lists of bodies that were declared under a name since its last removal, in order. -/
def declaredLists (name : String) (record : List (StoreCall × Bool)) : List (List Snapshot) :=
  (record.reverse.takeWhile fun entry => !isRemoval name entry).reverse.filterMap (bodiesFor? name)

/-- The bodies of an event according to a record; an event that was not declared has none at all. -/
def declared? (name : String) (record : List (StoreCall × Bool)) : Option (List Snapshot) :=
  match declaredLists name record with
  | [] => none
  | lists => some lists.flatten

theorem declaredLists_concat (name : String) (record : List (StoreCall × Bool))
    (entry : StoreCall × Bool) :
    declaredLists name (record ++ [entry]) =
      if isRemoval name entry then []
      else declaredLists name record ++ (bodiesFor? name entry).toList := by
  unfold declaredLists
  rw [List.reverse_concat, List.takeWhile_cons]
  cases isRemoval name entry with
  | true => rfl
  | false => cases h : bodiesFor? name entry <;> simp [h]

theorem declared?_of_quiet {name : String} {entry : StoreCall × Bool}
    (hremoval : isRemoval name entry = false) (hbodies : bodiesFor? name entry = none)
    (record : List (StoreCall × Bool)) : declared? name (record ++ [entry]) = declared? name record := by
  unfold declared?
  rw [declaredLists_concat, hremoval, hbodies]
  simp

theorem declared?_declare (name other : String) (bodies : List Snapshot) (granted : Bool)
    (record : List (StoreCall × Bool)) :
    declared? other (record ++ [(declare name bodies, granted)]) =
      if other = name then some ((declared? name record).getD [] ++ bodies) else declared? other record := by
  by_cases h : other = name
  · subst h
    unfold declared?
    rw [declaredLists_concat]
    cases declaredLists other record with
    | nil => simp [isRemoval, bodiesFor?]
    | cons first lists => simp [isRemoval, bodiesFor?]
  · have hbodies : bodiesFor? other (declare name bodies, granted) = none := if_neg (Ne.symm h)
    rw [if_neg h, declared?_of_quiet rfl hbodies]

theorem declared?_remove (name other : String) (granted : Bool) (record : List (StoreCall × Bool)) :
    declared? other (record ++ [(remove name, granted)]) =
      if other = name ∧ granted = true then none else declared? other record := by
  by_cases h : other = name ∧ granted = true
  · obtain ⟨rfl, rfl⟩ := h
    unfold declared?
    rw [declaredLists_concat]
    simp [isRemoval]
  · rw [if_neg h]
    refine declared?_of_quiet ?_ rfl record
    simp only [isRemoval, Bool.and_eq_false_iff, beq_eq_false_iff_ne]
    by_cases ho : name = other
    · exact .inr (by simpa [ho] using h)
    · exact .inl ho

end StoreCall

/-! ## Entries and mask -/

namespace EventStore

variable {s : EventStore}

/-- Every event has one entry, and the mask has the slots of the declared events and no others. -/
structure Sound (s : EventStore) : Prop where
  nodup : (s.events.map (·.1)).Nodup
  mask : ∀ i : Fin 64, s.mask.getLsbD i = true ↔ ∃ name ∈ s.events.map (·.1), s.slot name = i

theorem sound_empty (slot : String → Fin 64) : (empty slot).Sound := by
  refine ⟨List.nodup_nil, fun i => ?_⟩
  simp [empty]

theorem getLsbD_bit (s : EventStore) (name : String) (i : Fin 64) :
    (s.bit name).getLsbD i = decide (s.slot name = i) := by
  rw [bit, BitVec.getLsbD_twoPow]
  simp [Fin.ext_iff]

theorem mayContain_iff (s : EventStore) (name : String) :
    s.mayContain name = true ↔ s.mask.getLsbD (s.slot name) = true := by
  have hself : (s.bit name).getLsbD (s.slot name) = true := by
    rw [getLsbD_bit, decide_eq_true rfl]
  have hbit : 0#64 ≠ s.bit name := by
    intro h
    rw [← h] at hself
    simp at hself
  -- The mask cut down to one bit is that bit or nothing.
  have hand : s.mask &&& s.bit name = if s.mask.getLsbD (s.slot name) then s.bit name else 0#64 :=
    BitVec.and_twoPow s.mask (s.slot name)
  rw [mayContain, beq_iff_eq, hand]
  split
  · simp_all
  · simp_all

theorem getLsbD_foldl_bit (s : EventStore) (events : List (String × List Snapshot)) (mask : BitVec 64)
    (i : Fin 64) :
    (events.foldl (fun mask event => mask ||| s.bit event.1) mask).getLsbD i = true ↔
      mask.getLsbD i = true ∨ ∃ name ∈ events.map (·.1), s.slot name = i := by
  induction events generalizing mask with
  | nil => simp
  | cons event rest ih =>
    rw [List.foldl_cons, ih, BitVec.getLsbD_or, Bool.or_eq_true, getLsbD_bit, decide_eq_true_eq, or_assoc]
    simp

theorem events_declare (s : EventStore) (name : String) (bodies : List Snapshot) :
    (s.declare name bodies).events = extendAt s.events name bodies := rfl

theorem Sound.declare (h : s.Sound) (name : String) (bodies : List Snapshot) :
    (s.declare name bodies).Sound := by
  refine ⟨nodup_keys_extendAt h.nodup name bodies, fun i => ?_⟩
  change (s.mask ||| s.bit name).getLsbD i = true ↔ ∃ other ∈ _, s.slot other = i
  rw [BitVec.getLsbD_or, Bool.or_eq_true, h.mask, getLsbD_bit, decide_eq_true_eq, events_declare]
  simp only [mem_keys_iff, lookup_extendAt]
  constructor
  · rintro (⟨other, hother, hslot⟩ | hslot)
    · refine ⟨other, ?_, hslot⟩
      split <;> simp_all
    · exact ⟨name, by simp, hslot⟩
  · rintro ⟨other, hother, hslot⟩
    split at hother
    · rename_i heq
      exact .inr (heq ▸ hslot)
    · exact .inl ⟨other, hother, hslot⟩

theorem Sound.remove (h : s.Sound) (name : String) : (s.remove name).Sound := by
  unfold EventStore.remove
  split
  · refine ⟨h.nodup.sublist (List.Sublist.map _ List.filter_sublist), fun i => ?_⟩
    refine (s.getLsbD_foldl_bit _ 0 i).trans ?_
    simp [noting]
  · exact ⟨h.nodup, h.mask⟩

theorem Sound.lookup_remove (h : s.Sound) (name other : String) :
    (s.remove name).events.lookup other =
      if other = name ∧ s.contains name = true then none else s.events.lookup other := by
  unfold EventStore.remove
  split
  · rename_i hc
    refine (lookup_filter h.nodup _ other).trans ?_
    by_cases ho : other = name
    · simp [ho, hc]
    · cases s.events.lookup other <;> simp [ho, Option.filter]
  · rename_i hc
    rw [if_neg fun hand => hc hand.2]
    rfl

/-! ## Declared events -/

/-- A store has what its record says. -/
structure Reflects (s : EventStore) (slot : String → Fin 64) (record : List (StoreCall × Bool)) : Prop
    extends s.Sound where
  slot_eq : s.slot = slot
  lookup : ∀ name, s.events.lookup name = StoreCall.declared? name record

theorem reflects_empty (slot : String → Fin 64) : (empty slot).Reflects slot [] :=
  ⟨sound_empty slot, rfl, fun _ => rfl⟩

section Reflects

variable {slot : String → Fin 64} {record : List (StoreCall × Bool)} (h : s.Reflects slot record)

include h

theorem Reflects.of_quiet {s' : EventStore} {entry : StoreCall × Bool} (hslot : s'.slot = s.slot)
    (hevents : s'.events = s.events) (hmask : s'.mask = s.mask)
    (hquiet : ∀ name, StoreCall.isRemoval name entry = false ∧ StoreCall.bodiesFor? name entry = none) :
    s'.Reflects slot (record ++ [entry]) := by
  refine ⟨⟨hevents ▸ h.nodup, ?_⟩, hslot.trans h.slot_eq, fun name => ?_⟩
  · rw [hevents, hmask, hslot]
    exact h.mask
  · rw [hevents, h.lookup, StoreCall.declared?_of_quiet (hquiet name).1 (hquiet name).2]

theorem Reflects.after (call : StoreCall) : (s.after call).Reflects slot (record ++ [(call, s.grants call)]) := by
  cases call with
  | declare name bodies =>
    refine ⟨h.toSound.declare name bodies, h.slot_eq, fun other => ?_⟩
    rw [StoreCall.declared?_declare, ← h.lookup, ← h.lookup]
    exact lookup_extendAt s.events name other bodies
  | remove name =>
    refine ⟨h.toSound.remove name, ?_, fun other => ?_⟩
    · change (s.remove name).slot = slot
      rw [← h.slot_eq]
      unfold EventStore.remove
      split <;> rfl
    · rw [StoreCall.declared?_remove, ← h.lookup]
      exact h.toSound.lookup_remove name other
  | names | removeOverride base super =>
    exact h.of_quiet rfl rfl rfl fun _ => ⟨rfl, rfl⟩
  | bodies name =>
    unfold EventStore.after lookUp
    dsimp only
    split <;> exact h.of_quiet rfl rfl rfl fun _ => ⟨rfl, rfl⟩
  | addOverride base super =>
    unfold EventStore.after addOverride
    dsimp only
    split <;> exact h.of_quiet rfl rfl rfl fun _ => ⟨rfl, rfl⟩

theorem Reflects.bodies?_eq (name : String) : s.bodies? name = StoreCall.declared? name record := by
  rw [bodies?, ← h.lookup]
  split
  · rfl
  · rename_i hmay
    -- The mask turns a name away only if it is not declared.
    rw [mayContain_iff, h.mask] at hmay
    cases hl : s.events.lookup name with
    | none => rfl
    | some bodies => exact absurd ⟨name, (mem_keys_iff ..).mpr (by simp [hl]), rfl⟩ hmay

end Reflects

theorem reflects_perform (slot : String → Fin 64) (calls : List StoreCall) :
    ((empty slot).perform calls).Reflects slot ((empty slot).record calls) := by
  induction calls using List.reverseRecOn with
  | nil => exact reflects_empty slot
  | append_singleton calls call ih =>
    rw [perform_concat, record_concat]
    exact ih.after call

/-- After any calls a store is a plain table: an event has the bodies that were declared under its name since
it was removed last, put together in order, and an event without such a declaration has none. A removal
succeeds for the declared events and no others. The mask lets a name pass if a declared event has the same slot,
whatever the slots are: so it passes every declared name, and none if nothing is declared. Asking for the bodies
of a name is noted if the mask lets it pass, and changes nothing else. -/
theorem store_reflects_record (slot : String → Fin 64) (calls : List StoreCall) (name : String) :
    let s := (empty slot).perform calls
    let declared? := fun name => StoreCall.declared? name ((empty slot).record calls)
    s.bodies? name = declared? name ∧
      s.grants (.remove name) = (declared? name).isSome ∧
      (s.mayContain name = true ↔ ∃ other, (declared? other).isSome ∧ slot other = slot name) ∧
      (name ∈ s.names ↔ (declared? name).isSome) ∧
      ∃ noted, s.after (.bodies name) = { s with journal := noted ++ s.journal } ∧
        (noted = [.lookup] ∨ noted = []) ∧
        (noted = [.lookup] ↔ ∃ other, (declared? other).isSome ∧ slot other = slot name) := by
  intro s declared?
  have h : s.Reflects slot _ := reflects_perform slot calls
  have hdeclared : ∀ other, other ∈ s.events.map (·.1) ↔ (declared? other).isSome := fun other => by
    rw [mem_keys_iff, h.lookup]
  have hpass : s.mayContain name = true ↔ ∃ other, (declared? other).isSome ∧ slot other = slot name := by
    rw [mayContain_iff, h.mask, h.slot_eq]
    simp only [hdeclared]
  refine ⟨h.bodies?_eq name, ?_, hpass, ?_, ?_⟩
  · exact congrArg Option.isSome (h.lookup name)
  · rw [names, sortedNames, List.mem_mergeSort, hdeclared]
  · by_cases hmay : s.mayContain name = true
    · exact ⟨[.lookup], if_pos hmay, .inl rfl, iff_of_true rfl (hpass.mp hmay)⟩
    · exact ⟨[], if_neg hmay, .inr rfl, iff_of_false (by simp) fun hshared => hmay (hpass.mpr hshared)⟩

/-! ## Stored overrides -/

/-- An override is stored. -/
def Stores (s : EventStore) (base super : String) : Prop := (base, super) ∈ s.overrides

theorem acyclic_after (h : Acyclic s.Stores) (call : StoreCall) : Acyclic (s.after call).Stores := by
  cases call with
  | declare name bodies | names => exact h
  | remove name =>
    unfold after remove
    dsimp only
    split <;> exact h
  | bodies name =>
    unfold after lookUp
    dsimp only
    split <;> exact h
  | addOverride base super =>
    unfold Stores after
    cases hfault : s.overrideFault? base super with
    | some cause =>
      dsimp only
      rw [overrides_addOverride_of_some hfault]
      exact h
    | none =>
      dsimp only
      rw [overrides_addOverride_of_none hfault]
      exact overrideFault?_eq_none_iff.mp hfault
  | removeOverride base super => exact h.mono fun _ _ hstored => mem_of_mem_eraseLast hstored

theorem acyclic_perform (slot : String → Fin 64) (calls : List StoreCall) :
    Acyclic ((empty slot).perform calls).Stores := by
  induction calls using List.reverseRecOn with
  | nil => exact acyclic_of_not_sends fun _ _ hstored => by cases hstored
  | append_singleton calls call ih =>
    rw [perform_concat]
    exact acyclic_after ih call

theorem overrideFault?_of_acyclic (h : Acyclic s.Stores) (base super : String) :
    (ReflTransGen s.Stores super base ∧ s.overrideFault? base super = some (.overrideCycle base super)) ∨
      (¬ ReflTransGen s.Stores super base ∧ s.overrideFault? base super = none) := by
  obtain ⟨g, hg⟩ := (exists_addAll_empty_iff s.overrides).mpr h
  have hsends : g.Sends = s.Stores := by
    funext x y
    exact propext (sends_iff_of_addAll hg x y)
  rw [overrideFault?_eq hg, ← hsends, ← OverrideGraph.closesCycle_iff]
  cases g.closesCycle base super <;> simp

/-- After any calls, from wherever they came, the stored overrides make no cycle, so that they can all be taken
over again. Storing one more fails, for what it is itself, exactly if a way of stored overrides leads from its
super back to its base; then nothing is stored, and else this override and nothing besides. -/
theorem stored_overrides_acyclic (slot : String → Fin 64) (calls : List StoreCall) :
    let s := (empty slot).perform calls
    Acyclic s.Stores ∧ (∃ g, OverrideGraph.empty.addAll s.overrides = .ok g) ∧
      ∀ base super,
        (s.grants (.addOverride base super) = false ↔ base = super ∨ TransGen s.Stores super base) ∧
        (s.grants (.addOverride base super) = false →
          s.overrideFault? base super = some (.overrideCycle base super) ∧
            (s.after (.addOverride base super)).overrides = s.overrides) ∧
        (s.grants (.addOverride base super) = true →
          (s.after (.addOverride base super)).overrides = s.overrides ++ [(base, super)]) := by
  intro s
  have hacyclic : Acyclic s.Stores := acyclic_perform slot calls
  refine ⟨hacyclic, (exists_addAll_empty_iff s.overrides).mpr hacyclic, fun base super => ?_⟩
  rw [← reflTransGen_iff_eq_or_transGen, grants]
  rcases overrideFault?_of_acyclic hacyclic base super with ⟨hback, hfault⟩ | ⟨hback, hfault⟩
  · have hafter := overrides_addOverride_of_some hfault
    simp [hfault, hback, after, hafter]
  · have hafter := overrides_addOverride_of_none hfault
    simp [hfault, hback, after, hafter]

end EventStore

end EventTree
