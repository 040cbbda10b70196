import EventTree.Proofs.Forest.Holds
import EventTree.Proofs.Plot
import EventTree.Selection

/-!
# What a program can find

Every walk and every selector that starts on a plot stays on it, in the whole forest and in what is
left of it without lost nodes.
-/

namespace EventTree.Plot

/-- Links lead from the first owned nodes to the first owned nodes. -/
structure Closed (P : Plot) (bound : Nat) (g : Forest) : Prop where
  parent : ∀ n p, P.Mine bound n → g.parent n = some p → P.Mine bound p
  child : ∀ n c, P.Mine bound n → c ∈ g.children n → P.Mine bound c
  value : ∀ n m, P.Mine bound n → g.value n = some (.node m) → P.Mine bound m

theorem Tended.closed_of_pruned {P : Plot} {f g : Forest} (ht : P.Tended f) (hg : f.Pruned g) :
    P.Closed f.size g where
  parent n p hn hp :=
    have hp := hg.parent n p hp
    ⟨ht.fenced.parent n p hn.1 hp, ht.wellFormed.has_parent hp⟩
  child n c hn hc :=
    have hc := hg.child ht.wellFormed hc
    ⟨ht.fenced.child n c hn.1 hc, ht.wellFormed.has_child hc⟩
  value n m hn hv := by
    rw [hg.value_eq] at hv
    exact ⟨ht.fenced.value n m hn.1 hv, ht.wellFormed.held n m hv⟩

theorem Tended.closed {P : Plot} {f : Forest} (ht : P.Tended f) : P.Closed f.size f :=
  ht.closed_of_pruned (.refl ht.wellFormed)

theorem Tended.closed_seen {P : Plot} {f : Forest} (ht : P.Tended f) (hold : Hold) :
    P.Closed f.size (f.seen hold) :=
  ht.closed_of_pruned (Forest.seen_pruned ht.wellFormed hold)

namespace Closed

variable {P : Plot} {bound : Nat} {g : Forest} (h : P.Closed bound g) {n m : NodeId}

include h

/-! ## Walks -/

theorem climb {fuel : Nat} (hn : P.Mine bound n) (hm : m ∈ g.climb fuel n) : P.Mine bound m := by
  induction fuel generalizing n with
  | zero => cases hm
  | succ fuel ih =>
    rw [Forest.climb] at hm
    split at hm
    · cases hm
    · rename_i p hp
      have hpm := h.parent n p hn hp
      rcases List.mem_cons.mp hm with rfl | hm
      · exact hpm
      · exact ih hpm hm

theorem upwards (hn : P.Mine bound n) (hm : m ∈ n :: g.ancestors n) : P.Mine bound m := by
  rcases List.mem_cons.mp hm with rfl | hm
  · exact hn
  · exact h.climb hn hm

theorem root (hn : P.Mine bound n) : P.Mine bound (g.root n) := by
  unfold Forest.root
  cases hl : (g.ancestors n).getLast? with
  | none => exact hn
  | some r => exact h.climb hn (List.mem_of_getLast? hl)

theorem below {fuel : Nat} (hn : P.Mine bound n) (hm : m ∈ g.below fuel n) : P.Mine bound m := by
  induction fuel generalizing n with
  | zero => cases hm
  | succ fuel ih =>
    rw [Forest.below, List.mem_flatMap] at hm
    obtain ⟨c, hc, hm⟩ := hm
    have hcm := h.child n c hn hc
    rcases List.mem_cons.mp hm with rfl | hm
    · exact hcm
    · exact ih hcm hm

theorem child? {i : Nat} (hn : P.Mine bound n) (hm : g.child? n i = some m) : P.Mine bound m :=
  h.child n m hn (List.mem_of_getElem? hm)

theorem find? {a : String} (hn : P.Mine bound n) (hm : g.find? n a = some m) : P.Mine bound m :=
  h.child n m hn (List.mem_of_find?_eq_some hm)

theorem findAll {a : String} (hn : P.Mine bound n) (hm : m ∈ g.findAll n a) : P.Mine bound m :=
  h.child n m hn (List.mem_filter.mp hm).1

theorem previousSibling? (hn : P.Mine bound n) (hm : g.previousSibling? n = some m) :
    P.Mine bound m := by
  simp only [Forest.previousSibling?, Option.bind_eq_bind, Option.bind_eq_some_iff] at hm
  obtain ⟨p, hp, i, -, hm⟩ := hm
  split at hm
  · cases hm
  · exact h.child? (h.parent n p hn hp) hm

theorem nextSibling? (hn : P.Mine bound n) (hm : g.nextSibling? n = some m) : P.Mine bound m := by
  simp only [Forest.nextSibling?, Option.bind_eq_bind, Option.bind_eq_some_iff] at hm
  obtain ⟨p, hp, i, -, hm⟩ := hm
  exact h.child? (h.parent n p hn hp) hm

/-! ## Selectors -/

theorem image {step : Step} (hn : P.Mine bound n) (hm : m ∈ g.image step n) : P.Mine bound m := by
  cases step with
  | root =>
    rw [Forest.image, List.mem_singleton] at hm
    rw [hm]
    exact h.root hn
  | parent => exact h.parent n m hn (Option.mem_toList.mp hm)
  | children => exact h.child n m hn hm
  | descendants => exact h.below hn hm
  | reference =>
    obtain ⟨v, hv, hvm⟩ := Option.bind_eq_some_iff.mp (Option.mem_toList.mp hm)
    cases v <;> simp only [Value.asNode?, reduceCtorEq, Option.some.injEq] at hvm
    exact h.value n m hn (hvm ▸ hv)
  | previous => exact h.previousSibling? hn (Option.mem_toList.mp hm)
  | next => exact h.nextSibling? hn (Option.mem_toList.mp hm)
  | range _ _ =>
    rw [Forest.image, List.mem_singleton] at hm
    exact hm ▸ hn
  | ancestor name =>
    exact h.upwards hn (List.mem_of_find?_eq_some (Option.mem_toList.mp hm))
  | valueIs text =>
    rw [Forest.image] at hm
    split at hm
    · exact List.mem_singleton.mp hm ▸ hn
    · cases hm
  | named name => exact h.findAll hn hm

theorem advance {step : Step} {nodes : List NodeId} (hn : ∀ n ∈ nodes, P.Mine bound n)
    (hm : m ∈ g.advance step nodes) : P.Mine bound m := by
  unfold Forest.advance at hm
  split at hm
  · exact hn m (List.mem_of_mem_drop (List.mem_of_mem_take hm))
  · obtain ⟨n, hmem, hm⟩ := List.mem_flatMap.mp hm
    exact h.image (hn n hmem) hm

theorem follow {steps : List Step} {nodes : List NodeId} (hn : ∀ n ∈ nodes, P.Mine bound n)
    (hm : m ∈ g.follow steps nodes) : P.Mine bound m := by
  induction steps generalizing nodes with
  | nil => exact hn m hm
  | cons step steps ih =>
    have hm : m ∈ g.follow steps (g.advance step nodes).eraseDups := hm
    exact ih (fun k hk => h.advance hn (List.mem_eraseDups.mp hk)) hm

theorem select {s : Selector} (hn : P.Mine bound n) (hm : m ∈ (s.select g n).nodes) :
    P.Mine bound m := by
  have hm : m ∈ g.follow s.steps [n] := hm
  exact h.follow (fun k hk => List.mem_singleton.mp hk ▸ hn) hm

/-! ## Values -/

theorem mineIn_value (hn : P.Mine bound n) : P.MineIn bound (g.value n) :=
  fun m hm => h.value n m hn hm

theorem values {found : Selection} (hn : ∀ n ∈ found.nodes, P.Mine bound n)
    {v : Option LiveValue} (hv : v ∈ found.values g) : P.MineIn bound v := by
  unfold Selection.values at hv
  split at hv
  · obtain ⟨k, hk, rfl⟩ := List.mem_map.mp hv
    rintro m ⟨⟩
    exact hn k hk
  · obtain ⟨k, hk, rfl⟩ := List.mem_map.mp hv
    exact h.mineIn_value (hn k hk)
  · obtain ⟨k, hk, rfl⟩ := List.mem_map.mp hv
    rintro m ⟨⟩
  · rw [List.mem_singleton] at hv
    subst hv
    rintro m ⟨⟩

theorem singleValue (hn : P.Mine bound n) : P.MineIn bound (g.singleValue n) := by
  unfold Forest.singleValue
  split
  · rename_i s _
    cases hl : ((s.select g n).values g).head? with
    | none => rintro m ⟨⟩
    | some v => exact h.values (fun k hk => h.select hn hk) (List.mem_of_head? hl)
  · exact h.mineIn_value hn

end Closed

end EventTree.Plot
