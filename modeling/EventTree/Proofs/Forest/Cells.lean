import EventTree.Forest.Edit
import Mathlib.Data.List.Nodup

/-!
# Cells after a change

What each way of writing does to the cells of a forest. Later proofs read a changed forest through
these facts and do not open the array of cells again.
-/

namespace EventTree

@[ext]
theorem NodeId.ext_index {a b : NodeId} (h : a.index = b.index) : a = b := by
  cases a; cases b; simp_all

namespace Forest

/-- The forest has the node. -/
def Has (f : Forest) (n : NodeId) : Prop := n.index < f.size

instance (f : Forest) (n : NodeId) : Decidable (f.Has n) := inferInstanceAs (Decidable (_ < _))

theorem cell_of_not_has {f : Forest} {n : NodeId} (h : ¬ f.Has n) : f.cell n = Cell.fresh "" := by
  unfold cell
  unfold Has size at h
  rw [Array.getD_eq_getD_getElem?, Array.getElem?_eq_none (by omega)]
  rfl

theorem parent_of_not_has {f : Forest} {n : NodeId} (h : ¬ f.Has n) : f.parent n = none := by
  rw [parent, cell_of_not_has h]
  rfl

theorem children_of_not_has {f : Forest} {n : NodeId} (h : ¬ f.Has n) : f.children n = [] := by
  rw [children, cell_of_not_has h]
  rfl

theorem has_of_parent {f : Forest} {n p : NodeId} (h : f.parent n = some p) : f.Has n := by
  by_contra hn
  rw [parent_of_not_has hn] at h
  cases h

theorem has_of_mem_children {f : Forest} {n c : NodeId} (h : c ∈ f.children n) : f.Has n := by
  by_contra hn
  rw [children_of_not_has hn] at h
  cases h

theorem has_of_value {f : Forest} {n : NodeId} {v : LiveValue} (h : f.value n = some v) :
    f.Has n := by
  by_contra hn
  rw [value, cell_of_not_has hn] at h
  cases h

theorem ext_cells {f g : Forest} (hs : f.size = g.size) (hc : ∀ n, f.cell n = g.cell n) : f = g := by
  cases f with
  | mk cs =>
    cases g with
    | mk ds =>
      congr 1
      apply Array.ext hs
      intro i hi hj
      have := hc ⟨i⟩
      simpa [cell, Array.getD, hi, hj] using this

theorem cell_ext {c d : Cell} (hn : c.name = d.name) (hv : c.value = d.value)
    (hp : c.parent = d.parent) (hc : c.children = d.children) : c = d := by
  cases c; cases d; simp_all

theorem ext_fields {f g : Forest} (hs : f.size = g.size) (hname : ∀ n, f.name n = g.name n)
    (hvalue : ∀ n, f.value n = g.value n) (hparent : ∀ n, f.parent n = g.parent n)
    (hchildren : ∀ n, f.children n = g.children n) : f = g :=
  ext_cells hs fun n => cell_ext (hname n) (hvalue n) (hparent n) (hchildren n)

/-! ## Updates -/

section Update

variable {f : Forest} {n m : NodeId} {change : Cell → Cell}

@[simp]
theorem size_update : (f.update n change).size = f.size := by
  simp [update, size]

@[simp]
theorem has_update : (f.update n change).Has m ↔ f.Has m := by
  simp [Has]

theorem cell_update_self (h : f.Has n) : (f.update n change).cell n = change (f.cell n) := by
  unfold Has size at h
  simp only [update, cell, Array.getD_eq_getD_getElem?, Array.getElem?_modify]
  simp [h]

theorem cell_update_ne (h : m ≠ n) : (f.update n change).cell m = f.cell m := by
  have hi : n.index ≠ m.index := fun e => h (NodeId.ext_index e.symm)
  simp only [update, cell, Array.getD_eq_getD_getElem?, Array.getElem?_modify]
  simp [hi]

theorem update_of_not_has (h : ¬ f.Has n) : f.update n change = f := by
  apply ext_cells size_update
  intro m
  by_cases hm : m = n
  · subst hm
    rw [cell_of_not_has (by simpa using h), cell_of_not_has h]
  · exact cell_update_ne hm

theorem part_update {β : Type} {part : Cell → β} (h : ∀ c, part (change c) = part c) :
    part ((f.update n change).cell m) = part (f.cell m) := by
  by_cases hf : f.Has n
  · by_cases hm : m = n
    · subst hm
      rw [cell_update_self hf, h]
    · rw [cell_update_ne hm]
  · rw [update_of_not_has hf]

end Update

/-! ## Single fields -/

section Fields

variable {f : Forest} {n m : NodeId} {a : String} {v : Option LiveValue} {p : Option NodeId}
  {change : List NodeId → List NodeId}

@[simp]
theorem size_setName : (f.setName n a).size = f.size := size_update
@[simp]
theorem size_setValue : (f.setValue n v).size = f.size := size_update
@[simp]
theorem size_setParent : (f.setParent n p).size = f.size := size_update
@[simp]
theorem size_setChildren : (f.setChildren n change).size = f.size := size_update

@[simp]
theorem has_setName : (f.setName n a).Has m ↔ f.Has m := has_update
@[simp]
theorem has_setValue : (f.setValue n v).Has m ↔ f.Has m := has_update
@[simp]
theorem has_setParent : (f.setParent n p).Has m ↔ f.Has m := has_update
@[simp]
theorem has_setChildren : (f.setChildren n change).Has m ↔ f.Has m := has_update

@[simp]
theorem value_setName : (f.setName n a).value m = f.value m := part_update fun _ => rfl
@[simp]
theorem parent_setName : (f.setName n a).parent m = f.parent m := part_update fun _ => rfl
@[simp]
theorem children_setName : (f.setName n a).children m = f.children m := part_update fun _ => rfl

@[simp]
theorem name_setValue : (f.setValue n v).name m = f.name m := part_update fun _ => rfl
@[simp]
theorem parent_setValue : (f.setValue n v).parent m = f.parent m := part_update fun _ => rfl
@[simp]
theorem children_setValue : (f.setValue n v).children m = f.children m := part_update fun _ => rfl

@[simp]
theorem name_setParent : (f.setParent n p).name m = f.name m := part_update fun _ => rfl
@[simp]
theorem value_setParent : (f.setParent n p).value m = f.value m := part_update fun _ => rfl
@[simp]
theorem children_setParent : (f.setParent n p).children m = f.children m :=
  part_update fun _ => rfl

@[simp]
theorem name_setChildren : (f.setChildren n change).name m = f.name m := part_update fun _ => rfl
@[simp]
theorem value_setChildren : (f.setChildren n change).value m = f.value m := part_update fun _ => rfl
@[simp]
theorem parent_setChildren : (f.setChildren n change).parent m = f.parent m :=
  part_update fun _ => rfl

theorem value_setValue (h : f.Has n) :
    (f.setValue n v).value m = if m = n then v else f.value m := by
  unfold value setValue
  split
  · subst m; rw [cell_update_self h]
  · rw [cell_update_ne ‹_›]

theorem parent_setParent (h : f.Has n) :
    (f.setParent n p).parent m = if m = n then p else f.parent m := by
  unfold parent setParent
  split
  · subst m; rw [cell_update_self h]
  · rw [cell_update_ne ‹_›]

theorem children_setChildren (h : f.Has n) :
    (f.setChildren n change).children m = if m = n then change (f.children n) else f.children m := by
  unfold children setChildren
  split
  · subst m; rw [cell_update_self h]
  · rw [cell_update_ne ‹_›]

end Fields

/-! ## New nodes -/

section Create

variable {f : Forest} {a : String} {n : NodeId}

@[simp]
theorem size_create : (f.create a).2.size = f.size + 1 := by simp [create, size]

@[simp]
theorem create_fst : (f.create a).1 = ⟨f.size⟩ := rfl

theorem has_create_self : (f.create a).2.Has ⟨f.size⟩ := by simp [Has]

theorem cell_create_self : (f.create a).2.cell ⟨f.size⟩ = .fresh a := by
  simp [create, cell, size, Array.getD_eq_getD_getElem?]

theorem cell_create_ne (h : n ≠ ⟨f.size⟩) : (f.create a).2.cell n = f.cell n := by
  have hi : n.index ≠ f.cells.size := fun e => h (NodeId.ext_index e)
  simp [create, cell, Array.getD_eq_getD_getElem?, Array.getElem?_push, hi]

theorem ne_of_has (h : f.Has n) : n ≠ ⟨f.size⟩ := by
  rintro rfl
  exact Nat.lt_irrefl _ h

theorem parent_create : (f.create a).2.parent n = f.parent n := by
  by_cases h : n = ⟨f.size⟩
  · subst h
    rw [parent, cell_create_self, parent_of_not_has (by simp [Has])]
    rfl
  · rw [parent, cell_create_ne h, parent]

theorem children_create : (f.create a).2.children n = f.children n := by
  by_cases h : n = ⟨f.size⟩
  · subst h
    rw [children, cell_create_self, children_of_not_has (by simp [Has])]
    rfl
  · rw [children, cell_create_ne h, children]

theorem value_create : (f.create a).2.value n = f.value n := by
  by_cases h : n = ⟨f.size⟩
  · subst h
    rw [value, cell_create_self, value, cell_of_not_has (by simp [Has])]
    rfl
  · rw [value, cell_create_ne h, value]

end Create

end Forest

end EventTree
