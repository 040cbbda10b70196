import EventTree.Forest.Plant
import EventTree.Proofs.Tree

/-!
# Comparing nodes and comparing their snapshots

A comparison of nodes stops at each node that it meets on both sides. A tree is equal to itself, so
whatever it meets it gives the order of the snapshots.
-/

namespace EventTree.Forest

@[simp] theorem firstDifference_cons (order : Ordering) (orders : List Ordering) :
    firstDifference (order :: orders) = order.then (firstDifference orders) := by
  cases order <;> rfl

theorem firstDifference_zipWith {order : NodeId → NodeId → Ordering} {shape : NodeId → Snapshot}
    (h : ∀ a b, order a b = (shape a).compare (shape b)) (as bs : List NodeId) :
    firstDifference (List.zipWith order as bs) = Tree.compareAll (as.map shape) (bs.map shape) := by
  induction as generalizing bs with
  | nil => cases bs <;> rfl
  | cons a as ih =>
    cases bs with
    | nil => rfl
    | cons b bs =>
      rw [List.zipWith_cons_cons, firstDifference_cons, h, ih, List.map_cons, List.map_cons, Tree.compareAll]

/-- Two values that are not both nodes are told apart without looking into a node. -/
theorem compareValuesBy_eq (f : Forest) {order : NodeId → NodeId → Ordering} {shape : NodeId → Snapshot}
    (h : ∀ a b, order a b = (shape a).compare (shape b)) (v u : Option LiveValue) :
    f.compareValuesBy order v u =
      Tree.compareValues (v.map (Value.map shape Selector.source)) (u.map (Value.map shape Selector.source)) := by
  rcases v with _ | v
  · cases u <;> rfl
  · rcases u with _ | u
    · cases v <;> rfl
    · cases v with
      | node a =>
        cases u with
        | node b =>
          rw [compareValuesBy, h]
          rfl
        | bool | int | float | string | selector => rfl
      | bool | int | float | string | selector => cases u <;> rfl

/-- The snapshot of a node down to some level. -/
def snapshotTo (f : Forest) (fuel : Nat) (n : NodeId) : Snapshot := (f.viewTo fuel n).snapshot

theorem snapshotTo_succ (f : Forest) (fuel : Nat) (n : NodeId) :
    f.snapshotTo (fuel + 1) n =
      ⟨f.name n, (f.value n).map (Value.map (f.snapshotTo fuel) Selector.source),
        (f.children n).map (f.snapshotTo fuel)⟩ := by
  have hvalue : ∀ v : Option LiveValue,
      Tree.mapSelectorsValue Selector.source (v.map (Value.map (f.viewTo fuel) id)) =
        v.map (Value.map (f.snapshotTo fuel) Selector.source) := by
    rintro (_ | v)
    · rfl
    · cases v <;> rfl
  have hchildren : ∀ cs : List NodeId,
      Tree.mapSelectorsAll Selector.source (cs.map (f.viewTo fuel)) = cs.map (f.snapshotTo fuel) := by
    intro cs
    induction cs with
    | nil => rfl
    | cons c cs ih => rw [List.map_cons, Tree.mapSelectorsAll, ih]; rfl
  rw [snapshotTo, viewTo, Tree.snapshot, Tree.mapSelectors, hvalue, hchildren]

theorem compareTo_eq (f : Forest) (fuel : Nat) (a b : NodeId) :
    f.compareTo fuel a b = (f.snapshotTo fuel a).compare (f.snapshotTo fuel b) := by
  -- A level looks at nodes of the next one only, and there one node on both sides is equal to itself.
  induction fuel generalizing a b with
  | zero =>
    rw [compareTo]
    split
    · next h => rw [h, Tree.compare_self]
    · exact Ordering.then_eq.symm
  | succ fuel ih =>
    rw [compareTo]
    split
    · next h => rw [h, Tree.compare_self]
    · rw [f.compareValuesBy_eq ih, firstDifference_zipWith ih, snapshotTo_succ, snapshotTo_succ, Tree.compare,
        List.length_map, List.length_map]

theorem compare_eq_snapshot (f : Forest) (a b : NodeId) :
    f.compare a b = (f.snapshot a).compare (f.snapshot b) := f.compareTo_eq f.size a b

theorem compareValues_eq (f : Forest) (v u : Option LiveValue) :
    f.compareValues v u = Tree.compareValues (v.map f.snapshotValue) (u.map f.snapshotValue) :=
  f.compareValuesBy_eq f.compare_eq_snapshot v u

end EventTree.Forest
