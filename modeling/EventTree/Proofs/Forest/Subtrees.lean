import EventTree.Forest.Walk
import EventTree.Proofs.Forest.WellFormed

/-!
# Subtrees

A node and all that is below it, in document order: the node, then the subtrees of its children one after
the other. No tree is higher than the forest has nodes, so the walks downwards see all of it, and what is
below a node is what it is above of.
-/

namespace EventTree.Forest

/-- A node, then its descendants. -/
def subtree (f : Forest) (n : NodeId) : List NodeId := n :: f.descendants n

namespace WellFormed

variable {f : Forest} (wf : f.WellFormed)

include wf

/-! ## Downwards -/

theorem length_ancestors_child {n c : NodeId} (h : c ∈ f.children n) :
    (f.ancestors c).length = (f.ancestors n).length + 1 := by
  rw [wf.ancestors_of_child ((wf.linked n c).mp h), List.length_cons]

/-- There is no endless way down: each step down is one ancestor more, and there are fewer of them than
nodes. -/
theorem wellFounded_children : WellFounded fun c n => c ∈ f.children n := by
  apply Subrelation.wf (r := InvImage (· < ·) fun n => f.size - (f.ancestors n).length)
  · intro c n h
    change f.size - (f.ancestors c).length < f.size - (f.ancestors n).length
    have hlength := wf.length_ancestors_child h
    have hlt : (f.ancestors c).length < f.size := wf.climb_length f.size (wf.has_child h)
    omega
  · exact InvImage.wf _ Nat.lt_wfRel.wf

theorem children_of_size_le {n : NodeId} (h : f.size ≤ (f.ancestors n).length) :
    f.children n = [] := by
  refine children_of_not_has fun hn => ?_
  have hlt : (f.ancestors n).length < f.size := wf.climb_length f.size hn
  omega

theorem below_succ {fuel : Nat} {n : NodeId} (h : f.size ≤ fuel + (f.ancestors n).length) :
    f.below (fuel + 1) n = f.below fuel n := by
  induction fuel generalizing n with
  | zero =>
    have hnil : f.children n = [] := wf.children_of_size_le (by omega)
    simp only [below, hnil, List.flatMap_nil]
  | succ fuel ih =>
    rw [below, below]
    refine List.flatMap_congr fun c hc => ?_
    -- One level down there is one ancestor more for the unit of fuel that is spent.
    have hlength := wf.length_ancestors_child hc
    rw [ih (by omega)]

theorem lastBelow_succ {fuel : Nat} {n : NodeId} (h : f.size ≤ fuel + (f.ancestors n).length) :
    f.lastBelow (fuel + 1) n = f.lastBelow fuel n := by
  induction fuel generalizing n with
  | zero =>
    have hnil : f.children n = [] := wf.children_of_size_le (by omega)
    simp only [lastBelow, hnil, List.getLast?_nil]
  | succ fuel ih =>
    rw [lastBelow, lastBelow]
    cases hc : (f.children n).getLast? with
    | none => rfl
    | some c =>
      have hlength := wf.length_ancestors_child (List.mem_of_getLast? hc)
      exact ih (by omega)

/-! ## Descendants -/

theorem descendants_eq (n : NodeId) : f.descendants n = (f.children n).flatMap f.subtree := by
  rw [descendants, ← wf.below_succ (by omega)]
  rfl

theorem mem_descendants {n m : NodeId} : m ∈ f.descendants n ↔ f.Above n m := by
  constructor
  · intro h
    induction n using wf.wellFounded_children.induction with
    | _ n ih =>
      rw [wf.descendants_eq, List.mem_flatMap] at h
      obtain ⟨c, hc, hm⟩ := h
      have hparent := above_of_parent ((wf.linked n c).mp hc)
      rcases List.mem_cons.mp hm with rfl | hm
      · exact hparent
      · exact hparent.trans (ih c hc hm)
  · intro h
    induction h using Relation.TransGen.head_induction_on with
    | single h =>
      rw [wf.descendants_eq, List.mem_flatMap]
      exact ⟨m, (wf.linked _ m).mpr h, List.mem_cons_self⟩
    | head h _ ih =>
      rw [wf.descendants_eq, List.mem_flatMap]
      exact ⟨_, (wf.linked _ _).mpr h, List.mem_cons_of_mem _ ih⟩

/-! ## Last descendants -/

theorem lastBelow_of_leaf {n : NodeId} (h : f.children n = []) : f.lastBelow f.size n = n := by
  rw [← wf.lastBelow_succ (by omega), lastBelow, h]
  rfl

theorem lastBelow_of_last {n c : NodeId} {l : List NodeId} (h : f.children n = l ++ [c]) :
    f.lastBelow f.size n = f.lastBelow f.size c := by
  rw [← wf.lastBelow_succ (by omega), lastBelow, h, List.getLast?_concat]

end WellFormed

end EventTree.Forest
