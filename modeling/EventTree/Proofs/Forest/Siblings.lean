import EventTree.Keyword.Sequence
import EventTree.Proofs.Forest.Holds

/-!
# Siblings by position

Where a node stands among its siblings is read off a split of the children of its parent. A scope that
is held shows its children the same way in what is seen.
-/

namespace EventTree.Forest

section Split

variable {f : Forest} (wf : f.WellFormed) {p x : NodeId} {l r : List NodeId}
  (h : f.children p = l ++ x :: r)

include wf h

theorem WellFormed.parent_of_split : f.parent x = some p :=
  (wf.linked p x).mp (h ▸ List.mem_append_right l List.mem_cons_self)

theorem WellFormed.index?_of_split : f.index? x = some l.length := by
  have hx : x ∉ l := fun hm => by
    have hnodup := wf.nodup p
    rw [h, List.nodup_append] at hnodup
    exact hnodup.2.2 x hm x List.mem_cons_self rfl
  rw [index?, wf.parent_of_split h, Option.bind_some, h, List.idxOf?_eq_some_iff]
  refine ⟨by simp, by simp, fun j hj hjx => hx ?_⟩
  rw [← hjx, List.getElem_append_left hj]
  exact List.getElem_mem hj

theorem WellFormed.nextSibling?_of_split : f.nextSibling? x = r.head? := by
  simp only [nextSibling?, wf.parent_of_split h, wf.index?_of_split h, child?, h,
    Option.bind_eq_bind, Option.bind_some]
  cases r <;> simp

theorem WellFormed.previousSibling?_of_split : f.previousSibling? x = l.getLast? := by
  simp only [previousSibling?, wf.parent_of_split h, wf.index?_of_split h, child?, h,
    Option.bind_eq_bind, Option.bind_some]
  rcases List.eq_nil_or_concat l with rfl | ⟨l, y, rfl⟩
  · rfl
  · simp

theorem WellFormed.siblingsBefore_of_split : f.siblingsBefore x = l.reverse := by
  simp only [siblingsBefore, wf.parent_of_split h, wf.index?_of_split h, h]
  simp

theorem WellFormed.positionAfter_of_split (position : Nat) :
    f.positionAfter p x position = l.length + 1 := by
  simp [positionAfter, wf.parent_of_split h, wf.index?_of_split h]

end Split

theorem child?_of_split {f : Forest} {p x : NodeId} {l r : List NodeId}
    (h : f.children p = l ++ x :: r) : f.child? p l.length = some x := by
  simp [child?, h]

end EventTree.Forest
