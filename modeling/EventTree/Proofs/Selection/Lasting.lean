import EventTree.Proofs.Forest.Kept
import EventTree.Proofs.Forest.Subtrees
import EventTree.Proofs.Isolation
import EventTree.Proofs.Trap.Blocks
import Mathlib.Data.List.Find

/-!
# What is found lasts

Every node that a selector finds from a node of the forest is a node of the forest. As long as nodes are
only added, each walk from an old node goes the same way as before, and so each selector finds the same
nodes from it, in the whole forest and in what is left of it without lost nodes.
-/

namespace EventTree.Forest

namespace WellFormed

variable {f : Forest} (wf : f.WellFormed)

include wf

theorem has_advance {step : Step} {nodes : List NodeId} (hn : ∀ n ∈ nodes, f.Has n) {m : NodeId}
    (hm : m ∈ f.advance step nodes) : f.Has m :=
  ((Plot.whole wf).tended_start.closed.advance (fun n hmem => ⟨trivial, hn n hmem⟩) hm).2

theorem has_select (hold : Hold) {s : Selector} {n m : NodeId} (hn : f.Has n)
    (hm : m ∈ (s.select (f.seen hold) n).nodes) : f.Has m :=
  (((Plot.whole wf).tended_start.closed_seen hold).select ⟨trivial, hn⟩ hm).2

end WellFormed

/-! ## New nodes -/

theorem cell_createWith (f : Forest) (name : String) (v : Option LiveValue) :
    ((f.create name).2.setValue ⟨f.size⟩ v).cell ⟨f.size⟩ = { Cell.fresh name with value := v } := by
  rw [setValue, cell_update_self has_create_self, cell_create_self]

theorem untouched_createWith {f : Forest} (wf : f.WellFormed) (name : String) {v : Option LiveValue}
    (hv : ∀ m, v = some (.node m) → f.Has m) :
    f.Untouched ((f.create name).2.setValue ⟨f.size⟩ v) := by
  refine ⟨wf.createWith name hv, by simp, fun m hm => ?_⟩
  rw [setValue, cell_update_ne (ne_of_has hm), cell_create_ne (ne_of_has hm)]

theorem untouched_copy {f : Forest} (wf : f.WellFormed) (n : NodeId) : f.Untouched (f.copy n).2 :=
  have hcopied := copied wf n
  ⟨hcopied.wellFormed, hcopied.grown.size_le, hcopied.grown.cell_eq⟩

namespace Untouched

variable {f g : Forest}

theorem refl (wf : f.WellFormed) : f.Untouched f := ⟨wf, Nat.le_refl _, fun _ _ => rfl⟩

theorem trans {k : Forest} (h : f.Untouched g) (hk : g.Untouched k) : f.Untouched k where
  wellFormed := hk.wellFormed
  size_le := Nat.le_trans h.size_le hk.size_le
  cell_eq m hm := by rw [hk.cell_eq m (h.has hm), h.cell_eq m hm]

theorem keepsApart {e : Forest} (h : f.Untouched g) : KeepsApart e f g :=
  ⟨h.size_le, fun m hm _ => .of_cell (h.cell_eq m hm)⟩

variable (h : f.Untouched g) {n : NodeId} (hn : f.Has n)

include h hn

theorem name_eq : g.name n = f.name n := congrArg Cell.name (h.cell_eq n hn)

theorem value_eq : g.value n = f.value n := congrArg Cell.value (h.cell_eq n hn)

theorem parent_eq : g.parent n = f.parent n := congrArg Cell.parent (h.cell_eq n hn)

theorem children_eq : g.children n = f.children n := congrArg Cell.children (h.cell_eq n hn)

variable (wf : f.WellFormed)

include wf

/-! ## Trees -/

theorem same_inTree {m : NodeId} (hm : f.InTree n m) : f.SameNode g m :=
  .of_cell (h.cell_eq m (wf.has_reached hn hm))

theorem isFinite (hfinite : f.IsFinite n) : g.IsFinite n :=
  hfinite.of_same fun _ => h.same_inTree hn wf

theorem view_eq (hfinite : f.IsFinite n) : g.view n = f.view n :=
  hfinite.view_of_same (fun _ => h.same_inTree hn wf) wf hn h.size_le

/-! ## Walks -/

theorem ancestors_eq : g.ancestors n = f.ancestors n := by
  induction n using wf.wellFounded.induction with
  | _ n ih =>
    cases hp : f.parent n with
    | none => rw [wf.ancestors_of_root hp, h.wellFormed.ancestors_of_root (by rw [h.parent_eq hn, hp])]
    | some p =>
      rw [wf.ancestors_of_child hp, h.wellFormed.ancestors_of_child (by rw [h.parent_eq hn, hp]),
        ih p hp (wf.has_parent hp)]

theorem root_eq : g.root n = f.root n := by rw [root, h.ancestors_eq hn wf, root]

theorem index?_eq : g.index? n = f.index? n := by
  rw [index?, h.parent_eq hn, index?]
  cases hp : f.parent n with
  | none => rfl
  | some p => rw [Option.bind_some, Option.bind_some, h.children_eq (wf.has_parent hp)]

theorem descendants_eq : g.descendants n = f.descendants n := by
  induction n using wf.wellFounded_children.induction with
  | _ n ih =>
    rw [wf.descendants_eq, h.wellFormed.descendants_eq, h.children_eq hn]
    refine List.flatMap_congr fun c hc => ?_
    rw [subtree, ih c hc (wf.has_child hc), subtree]

theorem previousSibling?_eq : g.previousSibling? n = f.previousSibling? n := by
  rw [previousSibling?, h.parent_eq hn, h.index?_eq hn wf, previousSibling?]
  cases hp : f.parent n with
  | none => rfl
  | some p => simp only [Option.bind_eq_bind, Option.bind_some, child?, h.children_eq (wf.has_parent hp)]

theorem nextSibling?_eq : g.nextSibling? n = f.nextSibling? n := by
  rw [nextSibling?, h.parent_eq hn, h.index?_eq hn wf, nextSibling?]
  cases hp : f.parent n with
  | none => rfl
  | some p => simp only [Option.bind_eq_bind, Option.bind_some, child?, h.children_eq (wf.has_parent hp)]

theorem nearestNamed?_eq (name : String) : g.nearestNamed? name n = f.nearestNamed? name n := by
  rw [nearestNamed?, h.ancestors_eq hn wf, nearestNamed?]
  refine List.find?_congr fun m hm => ?_
  have hhas : f.Has m := by
    rcases List.mem_cons.mp hm with rfl | hm
    · exact hn
    · exact wf.has_above (wf.mem_ancestors.mp hm)
  rw [hasName, h.name_eq hhas, hasName]

theorem findAll_eq (name : String) : g.findAll n name = f.findAll n name := by
  rw [findAll, h.children_eq hn, findAll]
  refine List.filter_congr fun c hc => ?_
  rw [hasName, h.name_eq (wf.has_child hc), hasName]

theorem textOf_value_eq : g.textOf (g.value n) = f.textOf (f.value n) := by
  rw [h.value_eq hn]
  match hv : f.value n with
  | some (.node m) =>
    have hname : g.name m = f.name m := h.name_eq (wf.held n m hv)
    simp [textOf, text, Value.text, hname]
  | none | some (.bool _) | some (.int _) | some (.float _) | some (.string _)
  | some (.selector _) => rfl

/-! ## Selectors -/

theorem image_eq (step : Step) : g.image step n = f.image step n := by
  cases step with
  | root => rw [image, h.root_eq hn wf, image]
  | parent => rw [image, h.parent_eq hn, image]
  | children => rw [image, h.children_eq hn, image]
  | descendants => rw [image, h.descendants_eq hn wf, image]
  | reference => rw [image, reference?, h.value_eq hn, image, reference?]
  | previous => rw [image, h.previousSibling?_eq hn wf, image]
  | next => rw [image, h.nextSibling?_eq hn wf, image]
  | range start stop => rfl
  | ancestor name => rw [image, h.nearestNamed?_eq hn wf, image]
  | valueIs text => rw [image, h.textOf_value_eq hn wf, image]
  | named name => rw [image, h.findAll_eq hn wf, image]

omit hn

theorem advance_eq {nodes : List NodeId} (hnodes : ∀ n ∈ nodes, f.Has n) (step : Step) :
    g.advance step nodes = f.advance step nodes := by
  have hmapped : nodes.flatMap (g.image step) = nodes.flatMap (f.image step) :=
    List.flatMap_congr fun n hn => h.image_eq (hnodes n hn) wf step
  cases step with
  | range start stop => rfl
  | _ => exact hmapped

theorem follow_eq {nodes : List NodeId} (hnodes : ∀ n ∈ nodes, f.Has n) (steps : List Step) :
    g.follow steps nodes = f.follow steps nodes := by
  induction steps generalizing nodes with
  | nil => rfl
  | cons step steps ih =>
    have hnext : ∀ m ∈ (f.advance step nodes).eraseDups, f.Has m := fun m hm =>
      wf.has_advance hnodes (List.mem_eraseDups.mp hm)
    change g.follow steps (g.advance step nodes).eraseDups = f.follow steps (f.advance step nodes).eraseDups
    rw [h.advance_eq wf hnodes, ih hnext]

include hn

theorem select_eq (s : Selector) : s.select g n = s.select f n := by
  rw [Selector.select, h.follow_eq wf (fun m hm => List.mem_singleton.mp hm ▸ hn), Selector.select]

omit hn wf in
theorem values_eq {found : Selection} (hfound : ∀ n ∈ found.nodes, f.Has n) :
    found.values g = found.values f := by
  unfold Selection.values
  split
  · rfl
  · exact List.map_congr_left fun n hn => h.value_eq (hfound n hn)
  · exact List.map_congr_left fun n hn => by rw [h.name_eq (hfound n hn)]
  · rfl

/-! ## Without lost nodes -/

omit hn

theorem not_has_above {a n : NodeId} (ha : g.Above a n) (hn : ¬ f.Has n) : ¬ f.Has a := by
  -- An old node has the children that it had, so a new node is none of them.
  have hstep : ∀ {p c : NodeId}, ¬ f.Has c → g.parent c = some p → ¬ f.Has p := by
    intro p c hc hp hhas
    have hchild := (h.wellFormed.linked p c).mpr hp
    rw [h.children_eq hhas] at hchild
    exact hc (wf.has_child hchild)
  induction ha with
  | single hp => exact hstep hn hp
  | tail _ hp ih => exact ih (hstep hn hp)

theorem detach (n : NodeId) : (f.detach n).Untouched (g.detach n) := by
  refine ⟨h.wellFormed.detach n, by simpa using h.size_le, fun m hm => ?_⟩
  have hm := has_detach.mp hm
  refine cell_ext ?_ ?_ ?_ ?_
  · exact name_detach.trans ((h.name_eq hm).trans name_detach.symm)
  · exact value_detach.trans ((h.value_eq hm).trans value_detach.symm)
  · change (g.detach n).parent m = (f.detach n).parent m
    rw [parent_detach, h.parent_eq hm, parent_detach]
  · change (g.detach n).children m = (f.detach n).children m
    rw [h.wellFormed.children_detach, h.children_eq hm, wf.children_detach]

/-- The same nodes are lost: an old node has old nodes above it, and a new one new nodes. -/
theorem detach_summit (held : List NodeId) (n : NodeId) :
    (f.detach (f.summit held n)).Untouched (g.detach (g.summit held n)) := by
  by_cases hn : f.Has n
  · have hsame : g.summit held n = f.summit held n := by rw [summit, h.ancestors_eq hn wf, summit]
    rw [hsame]
    exact h.detach wf _
  -- Nothing is lost in `f`, which does not have the node. What is lost in `g` is new, and so is all
  -- above it.
  · have hroot : f.parent (f.summit held n) = none := by
      have hmem := f.summit_mem held n
      rw [wf.ancestors_of_root (parent_of_not_has hn), List.mem_singleton] at hmem
      rw [hmem, parent_of_not_has hn]
    have hnew : ¬ f.Has (g.summit held n) := by
      rcases List.mem_cons.mp (g.summit_mem held n) with hmem | hmem
      · rwa [hmem]
      · exact h.not_has_above wf (h.wellFormed.mem_ancestors.mp hmem) hn
    rw [detach_of_root hroot]
    refine ⟨h.wellFormed.detach _, by simpa using h.size_le, fun m hm => ?_⟩
    rw [cell_detach, h.cell_eq m hm]
    · exact fun e => hnew (e ▸ hm)
    · exact fun hp => h.not_has_above wf (above_of_parent hp) hnew hm

theorem seen (hold : Hold) : (f.seen hold).Untouched (g.seen hold) := by
  unfold Forest.seen
  -- The entries go one after the other, each from what the last one has left.
  generalize hold.entries = entries
  induction entries generalizing f g with
  | nil => exact h
  | cons n entries ih => exact ih (h.detach_summit wf hold.held n) (wf.detach _)

end Untouched

end EventTree.Forest
