import Mathlib.Data.List.Nodup

/-!
# Lists with keys

Overrides, declared events and bindings are kept in lists with one entry for each key. What a key has is
changed in place, a new key goes to the end, and entries are left out.
-/

namespace EventTree

variable {β : Type}

theorem mem_keys_iff (entries : List (String × β)) (key : String) :
    key ∈ entries.map (·.1) ↔ (entries.lookup key).isSome := by
  induction entries with
  | nil => simp
  | cons entry rest ih =>
    obtain ⟨key', b⟩ := entry
    by_cases h : key = key'
    · simp [h]
    · simp [h, List.lookup_cons, beq_eq_false_iff_ne.mpr h, ← ih]

theorem lookup_of_mem {entries : List (String × β)} (h : (entries.map (·.1)).Nodup)
    {entry : String × β} (he : entry ∈ entries) : entries.lookup entry.1 = some entry.2 := by
  induction entries with
  | nil => cases he
  | cons first rest ih =>
    obtain ⟨hnew, hrest⟩ := List.nodup_cons.mp h
    rcases List.mem_cons.mp he with rfl | he
    · exact List.lookup_cons_self
    · have hne : entry.1 ≠ first.1 := fun e => hnew (List.mem_map.mpr ⟨entry, he, e⟩)
      rw [List.lookup_cons, beq_eq_false_iff_ne.mpr hne]
      exact ih hrest he

/-! ## Changing what a key has -/

/-- The entries with what one key has changed. -/
def changeAt (entries : List (String × β)) (key : String) (change : β → β) : List (String × β) :=
  entries.map fun entry => if entry.1 = key then (entry.1, change entry.2) else entry

theorem keys_changeAt (entries : List (String × β)) (key : String) (change : β → β) :
    (changeAt entries key change).map (·.1) = entries.map (·.1) := by
  rw [changeAt, List.map_map]
  refine List.map_congr_left fun entry _ => ?_
  simp only [Function.comp_apply]
  split <;> rfl

theorem lookup_changeAt (entries : List (String × β)) (key other : String) (change : β → β) :
    (changeAt entries key change).lookup other =
      if other = key then (entries.lookup key).map change else entries.lookup other := by
  unfold changeAt
  induction entries with
  | nil => simp
  | cons entry rest ih =>
    obtain ⟨key', b⟩ := entry
    by_cases hk : key' = key
    · subst hk
      by_cases ho : other = key'
      · simp [ho]
      · simp [ho, ih, List.lookup_cons, beq_eq_false_iff_ne.mpr ho]
    · by_cases ho : other = key'
      · subst ho
        simp [hk]
      · simp only [List.map_cons, hk, if_false, List.lookup_cons, beq_eq_false_iff_ne.mpr ho, ih,
          beq_eq_false_iff_ne.mpr (Ne.symm hk)]

theorem lookup_map_snd (entries : List (String × β)) (change : β → β) (key : String) :
    (entries.map fun entry => (entry.1, change entry.2)).lookup key = (entries.lookup key).map change := by
  induction entries with
  | nil => rfl
  | cons entry rest ih =>
    obtain ⟨key', b⟩ := entry
    rw [List.map_cons, List.lookup_cons, List.lookup_cons, ih]
    cases key == key' <;> rfl

theorem changeAt_eq_self {entries : List (String × β)} {key : String} {change : β → β}
    (h : ∀ entry ∈ entries, entry.1 = key → change entry.2 = entry.2) :
    changeAt entries key change = entries := by
  refine (List.map_congr_left fun entry he => ?_).trans (List.map_id _)
  split
  · rename_i hk
    rw [h entry he hk, id]
  · rfl

theorem changeAt_changeAt (entries : List (String × β)) (key : String) (change change' : β → β) :
    changeAt (changeAt entries key change) key change' = changeAt entries key (change' ∘ change) := by
  simp only [changeAt, List.map_map]
  refine List.map_congr_left fun entry _ => ?_
  grind

theorem changeAt_comm (entries : List (String × β)) (key key' : String) {change change' : β → β}
    (h : ∀ b, change (change' b) = change' (change b)) :
    changeAt (changeAt entries key' change') key change =
      changeAt (changeAt entries key change) key' change' := by
  simp only [changeAt, List.map_map]
  refine List.map_congr_left fun entry _ => ?_
  grind

/-! ## Adding to what a key has -/

/-- The entries with more under one key, which goes to the end if it is new. -/
def extendAt (entries : List (String × List β)) (key : String) (more : List β) :
    List (String × List β) :=
  if (entries.lookup key).isSome then changeAt entries key (· ++ more) else entries ++ [(key, more)]

theorem lookup_extendAt (entries : List (String × List β)) (key other : String) (more : List β) :
    (extendAt entries key more).lookup other =
      if other = key then some ((entries.lookup key).getD [] ++ more) else entries.lookup other := by
  unfold extendAt
  split
  · rename_i h
    obtain ⟨had, hs⟩ := Option.isSome_iff_exists.mp h
    rw [lookup_changeAt, hs]
    rfl
  · rename_i h
    have hnone : entries.lookup key = none := Option.not_isSome_iff_eq_none.mp h
    rw [List.lookup_append, hnone]
    by_cases ho : other = key
    · simp [ho, hnone]
    · rw [if_neg ho, List.lookup_cons, beq_eq_false_iff_ne.mpr ho]
      exact Option.or_none

theorem nodup_keys_extendAt {entries : List (String × List β)} (h : (entries.map (·.1)).Nodup)
    (key : String) (more : List β) : ((extendAt entries key more).map (·.1)).Nodup := by
  unfold extendAt
  split
  · rw [keys_changeAt]
    exact h
  · rename_i hnew
    rw [← mem_keys_iff] at hnew
    rw [List.map_append]
    exact h.append (List.nodup_singleton key) (List.disjoint_singleton.mpr hnew)

/-- Every key is there once and has something. -/
structure Orderly (entries : List (String × List β)) : Prop where
  nodup : (entries.map (·.1)).Nodup
  nonempty : ∀ entry ∈ entries, entry.2 ≠ []

theorem Orderly.extendAt {entries : List (String × List β)} (h : Orderly entries) (key : String)
    {more : List β} (hmore : more ≠ []) : Orderly (extendAt entries key more) := by
  refine ⟨nodup_keys_extendAt h.nodup key more, fun entry he => ?_⟩
  unfold EventTree.extendAt changeAt at he
  split at he
  · obtain ⟨entry', he', rfl⟩ := List.mem_map.mp he
    split
    · simp [hmore]
    · exact h.nonempty entry' he'
  · rcases List.mem_append.mp he with he | he
    · exact h.nonempty entry he
    · rw [List.mem_singleton.mp he]
      exact hmore

/-! ## Leaving out entries -/

theorem lookup_filter {entries : List (String × β)} (h : (entries.map (·.1)).Nodup)
    (keep : String × β → Bool) (key : String) :
    (entries.filter keep).lookup key = (entries.lookup key).filter fun b => keep (key, b) := by
  induction entries with
  | nil => rfl
  | cons entry rest ih =>
    obtain ⟨key', b⟩ := entry
    obtain ⟨hnew, hrest⟩ := List.nodup_cons.mp h
    have ih := ih hrest
    by_cases hk : key = key'
    · subst hk
      -- If the entry is left out, no later one answers for its key.
      have hnone : rest.lookup key = none := by
        rw [mem_keys_iff] at hnew
        exact Option.not_isSome_iff_eq_none.mp hnew
      by_cases hkeep : keep (key, b)
      · simp [hkeep, Option.filter]
      · simp [hkeep, ih, hnone, Option.filter]
    · by_cases hkeep : keep (key', b)
      · simp [hkeep, List.lookup_cons, beq_eq_false_iff_ne.mpr hk, ih]
      · simp [hkeep, List.lookup_cons, beq_eq_false_iff_ne.mpr hk, ih]

/-- The entries of the keys that have something. -/
def occupied (entries : List (String × List β)) : List (String × List β) :=
  entries.filter fun entry => !entry.2.isEmpty

theorem orderly_occupied {entries : List (String × List β)} (h : (entries.map (·.1)).Nodup) :
    Orderly (occupied entries) := by
  refine ⟨h.sublist (List.filter_sublist.map _), fun entry he => ?_⟩
  simpa using (List.mem_filter.mp he).2

theorem getD_lookup_occupied {entries : List (String × List β)} (h : (entries.map (·.1)).Nodup)
    (key : String) : ((occupied entries).lookup key).getD [] = (entries.lookup key).getD [] := by
  rw [occupied, lookup_filter h]
  rcases entries.lookup key with _ | (_ | _) <;> rfl

theorem occupied_eq_self {entries : List (String × List β)} (h : ∀ entry ∈ entries, entry.2 ≠ []) :
    occupied entries = entries := by
  rw [occupied, List.filter_eq_self]
  intro entry he
  simpa using h entry he

theorem occupied_changeAt (entries : List (String × List β)) (key : String)
    {change : List β → List β} (h : change [] = []) :
    occupied (changeAt (occupied entries) key change) = occupied (changeAt entries key change) := by
  simp only [occupied, changeAt, List.filter_map, List.filter_filter]
  refine congrArg _ (List.filter_congr fun entry _ => ?_)
  by_cases hk : entry.1 = key <;> cases he : entry.2 <;> simp [hk, he, h]

end EventTree
