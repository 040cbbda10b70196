import EventTree.Proofs.Forest.Planting

/-!
# Fences

A fence goes around the owned nodes: no link leads from an owned node to one that is not owned, and all
nodes still to come are owned. Every edit that is given owned nodes only is work inside the fence. It
changes no node outside, and the fence still stands.
-/

namespace EventTree

/-- No link leads from an owned node to one that is not owned, and new nodes will be owned. -/
structure Fenced (owned : NodeId → Prop) (f : Forest) : Prop where
  wellFormed : f.WellFormed
  unborn : ∀ n, ¬ f.Has n → owned n
  parent : ∀ n p, owned n → f.parent n = some p → owned p
  child : ∀ n c, owned n → c ∈ f.children n → owned c
  value : ∀ n m, owned n → f.value n = some (.node m) → owned m

/-- `g` came of `f` by work inside the fence. -/
structure Tilled (owned : NodeId → Prop) (f g : Forest) : Prop where
  fenced : Fenced owned g
  size_le : f.size ≤ g.size
  outside : ∀ n, ¬ owned n → g.cell n = f.cell n

namespace Tilled

variable {owned : NodeId → Prop} {f g h : Forest}

theorem refl (hf : Fenced owned f) : Tilled owned f f := ⟨hf, Nat.le_refl _, fun _ _ => rfl⟩

theorem trans (hg : Tilled owned f g) (hh : Tilled owned g h) : Tilled owned f h where
  fenced := hh.fenced
  size_le := Nat.le_trans hg.size_le hh.size_le
  outside n hn := by rw [hh.outside n hn, hg.outside n hn]

end Tilled

/-! ## Two fences around what was added -/

section Grown

variable {f g : Forest} (wf : f.WellFormed) (wg : g.WellFormed) (hg : f.Grown g)

include wf wg hg

theorem fenced_apart : Fenced (fun n => ¬ f.Has n) g where
  wellFormed := wg
  unborn n hn hf := hn (hg.has hf)
  parent n p hn hp hf := by
    have hc := (wg.linked p n).mpr hp
    rw [hg.children_eq hf] at hc
    exact hn (wf.has_child hc)
  child n c hn hc hf := by
    have hp := (wg.linked n c).mp hc
    rw [hg.parent_eq hf] at hp
    exact hn (wf.has_parent hp)
  value n m hn hv := hg.new_value n m hn hv

theorem fenced_around : Fenced (fun n => f.Has n ∨ ¬ g.Has n) g where
  wellFormed := wg
  unborn _ hn := Or.inr hn
  parent n p hn hp := by
    have hf := hn.resolve_right fun h => h (Forest.has_of_parent hp)
    rw [hg.parent_eq hf] at hp
    exact Or.inl (wf.has_parent hp)
  child n c hn hc := by
    have hf := hn.resolve_right fun h => h (Forest.has_of_mem_children hc)
    rw [hg.children_eq hf] at hc
    exact Or.inl (wf.has_child hc)
  value n m hn hv := by
    have hf := hn.resolve_right fun h => h (Forest.has_of_value hv)
    rw [hg.value_eq hf] at hv
    exact Or.inl (wf.held n m hv)

end Grown

namespace Fenced

variable {owned : NodeId → Prop} {f g : Forest} (hf : Fenced owned f)

include hf

/-- Work is inside the fence if it changes owned nodes only and adds no links that lead out. -/
theorem till (wg : g.WellFormed) (hsize : f.size ≤ g.size)
    (houtside : ∀ n, ¬ owned n → g.cell n = f.cell n)
    (hparent : ∀ n p, owned n → g.parent n = some p → f.parent n = some p ∨ owned p)
    (hvalue : ∀ n m, owned n → g.value n = some (.node m) →
      f.value n = some (.node m) ∨ owned m) : Tilled owned f g where
  fenced :=
    { wellFormed := wg
      unborn := fun n hn => hf.unborn n fun h => hn (Nat.lt_of_lt_of_le h hsize)
      parent := fun n p hn hp => (hparent n p hn hp).elim (hf.parent n p hn) id
      child := fun n c hn hc => by
        by_contra ho
        -- An outside child of an owned node would have been there before.
        have hp : g.parent c = some n := (wg.linked n c).mp hc
        rw [Forest.parent, houtside c ho] at hp
        exact ho (hf.child n c hn ((hf.wellFormed.linked n c).mpr hp))
      value := fun n m hn hv => (hvalue n m hn hv).elim (hf.value n m hn) id }
  size_le := hsize
  outside := houtside

/-! ## Edits of single nodes -/

theorem create (a : String) : Tilled owned f (f.create a).2 := by
  refine hf.till (hf.wellFormed.create a) (by simp) ?_ ?_ ?_
  · intro n hn
    refine Forest.cell_create_ne fun e => hn (hf.unborn n ?_)
    rw [e]
    exact Nat.lt_irrefl _
  · intro n p _ hp
    rw [Forest.parent_create] at hp
    exact Or.inl hp
  · intro n m _ hv
    rw [Forest.value_create] at hv
    exact Or.inl hv

theorem setName {n : NodeId} (hn : owned n) (a : String) : Tilled owned f (f.setName n a) := by
  refine hf.till (hf.wellFormed.setName n a) (by simp) ?_ ?_ ?_
  · exact fun m hm => Forest.cell_update_ne fun e => hm (e ▸ hn)
  · intro m p _ hp
    rw [Forest.parent_setName] at hp
    exact Or.inl hp
  · intro k m _ hv
    rw [Forest.value_setName] at hv
    exact Or.inl hv

theorem setValue {n : NodeId} (hn : owned n) {v : Option LiveValue}
    (hv : ∀ m, v = some (.node m) → owned m ∧ f.Has m) : Tilled owned f (f.setValue n v) := by
  refine hf.till (hf.wellFormed.setValue n fun m hm => (hv m hm).2) (by simp) ?_ ?_ ?_
  · exact fun m hm => Forest.cell_update_ne fun e => hm (e ▸ hn)
  · intro m p _ hp
    rw [Forest.parent_setValue] at hp
    exact Or.inl hp
  · intro k m _ hkv
    by_cases hhas : f.Has n
    · rw [Forest.value_setValue hhas] at hkv
      split at hkv
      · exact Or.inr (hv m hkv).1
      · exact Or.inl hkv
    · rw [Forest.setValue, Forest.update_of_not_has hhas] at hkv
      exact Or.inl hkv

/-! ## Edits of links -/

theorem detach {n : NodeId} (hn : owned n) : Tilled owned f (f.detach n) := by
  refine hf.till (hf.wellFormed.detach n) (by simp) ?_ ?_ ?_
  · exact fun m hm => Forest.cell_detach (fun e => hm (e ▸ hn)) fun hp => hm (hf.parent n m hn hp)
  · exact fun m p _ hp => Or.inl (Forest.parent_of_parent_detach hp)
  · intro k m _ hv
    rw [Forest.value_detach] at hv
    exact Or.inl hv

theorem attach {p c : NodeId} (ha : f.Attachable p c) (hp : owned p) (hc : owned c)
    {change : List NodeId → List NodeId}
    (hperm : (change (f.children p)).Perm (c :: f.children p)) :
    Tilled owned f ((f.setParent c (some p)).setChildren p change) := by
  refine hf.till (ha.wellFormed hf.wellFormed hperm) (by simp) ?_ ?_ ?_
  · exact fun m hm => Forest.cell_attach (fun e => hm (e ▸ hp)) fun e => hm (e ▸ hc)
  · intro m q _ hq
    rw [ha.parent_attach] at hq
    split at hq
    · exact Or.inr (Option.some.inj hq ▸ hp)
    · exact Or.inl hq
  · intro k m _ hv
    rw [Forest.value_setChildren, Forest.value_setParent] at hv
    exact Or.inl hv

theorem append {p c : NodeId} (ha : f.Attachable p c) (hp : owned p) (hc : owned c) :
    Tilled owned f (f.append p c) := hf.attach ha hp hc (List.perm_append_singleton c _)

theorem moveTo {p c : NodeId} {position : Option Nat} (hp : owned p) (hc : owned c) (hhp : f.Has p)
    (hhc : f.Has c) (h : f.insertFault? p position c = none) :
    Tilled owned f (f.moveTo p position c) := by
  have ha := hf.wellFormed.attachable_of_insertFault? hhp hhc h
  have hout := hf.detach hc
  refine hout.trans (hout.fenced.attach ha hp hc (List.perm_insertIdx c _ ?_))
  rw [hf.wellFormed.length_children_detach]
  exact Forest.position_le_of_insertFault? h

theorem clear {n : NodeId} (hn : owned n) : Tilled owned f (f.clear n) := by
  refine hf.till (hf.wellFormed.clear n) (by simp) ?_ ?_ ?_
  · intro m hm
    exact Forest.cell_clear (fun e => hm (e ▸ hn)) fun h => hm (hf.child n m hn h)
  · intro m p _ hp
    rw [Forest.parent_clear] at hp
    split at hp
    · cases hp
    · exact Or.inl hp
  · intro k m _ hv
    rw [Forest.value_clear] at hv
    exact Or.inl hv

theorem exchange {n other p : NodeId} (hn : owned n) (ho : owned other) (hho : f.Has other)
    (hp : f.parent n = some p) (hne : other ≠ n) (hna : ¬ f.Above other n) :
    Tilled owned f (f.exchange n other) := by
  obtain ⟨i, heq, hle⟩ := hf.wellFormed.exchange_eq_link hp hne hho hna
  have hout := (hf.detach ho).trans ((hf.detach ho).fenced.detach hn)
  rw [heq]
  exact hout.trans (hout.fenced.attach (hf.wellFormed.attachable_exchange hp hne hho hna)
    (hf.parent n p hn hp) ho (List.perm_insertIdx other _ hle))

/-! ## Growth -/

theorem grow (hg : f.Grown g) (wg : g.WellFormed) : Tilled owned f g := by
  have hold : ∀ n, ¬ owned n → f.Has n := fun n hn => by
    by_contra h
    exact hn (hf.unborn n h)
  refine hf.till wg hg.size_le (fun n hn => hg.cell_eq n (hold n hn)) ?_ ?_
  · intro n p _ hp
    by_cases hn : f.Has n
    · rw [hg.parent_eq hn] at hp
      exact Or.inl hp
    · exact Or.inr (hf.unborn p ((fenced_apart hf.wellFormed wg hg).parent n p hn hp))
  · intro n m _ hv
    by_cases hn : f.Has n
    · rw [hg.value_eq hn] at hv
      exact Or.inl hv
    · exact Or.inr (hf.unborn m (hg.new_value n m hn hv))

end Fenced

end EventTree
