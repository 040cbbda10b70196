import EventTree.Proofs.Forest.Cells
import Mathlib.Data.List.Perm.Subperm
import Mathlib.Logic.Relation

/-!
# Well-formed forests

In a well-formed forest a child knows its parent exactly when the parent knows its child, no child is
listed twice, no node is above itself, and every node held in a value is there. Every chain of parents
then ends, and it ends within the fuel that `ancestors` allows, so the ancestors of a node are those of
its parent and the parent itself.
-/

namespace EventTree.Forest

/-- `p` is the parent of `c`. -/
def IsParent (f : Forest) (p c : NodeId) : Prop := f.parent c = some p

/-- `a` is a strict ancestor of `n`. -/
def Above (f : Forest) : NodeId → NodeId → Prop := Relation.TransGen f.IsParent

structure WellFormed (f : Forest) : Prop where
  linked : ∀ p c, c ∈ f.children p ↔ f.parent c = some p
  nodup : ∀ p, (f.children p).Nodup
  acyclic : ∀ n, ¬ f.Above n n
  /-- A node in a value is a node of the forest. -/
  held : ∀ n m, f.value n = some (.node m) → f.Has m

/-! ## Ancestors -/

theorem above_of_parent {f : Forest} {p c : NodeId} (h : f.parent c = some p) : f.Above p c :=
  Relation.TransGen.single h

theorem above_iff {f : Forest} {a n : NodeId} :
    f.Above a n ↔ ∃ p, f.parent n = some p ∧ (a = p ∨ f.Above a p) := by
  constructor
  · intro h
    cases h with
    | single h => exact ⟨a, h, Or.inl rfl⟩
    | tail h hp => exact ⟨_, hp, Or.inr h⟩
  · rintro ⟨p, hp, rfl | h⟩
    · exact above_of_parent hp
    · exact Relation.TransGen.tail h hp

theorem Above.trans {f : Forest} {a b c : NodeId} (h : f.Above a b) (h' : f.Above b c) :
    f.Above a c := Relation.TransGen.trans h h'

theorem Above.mono {f g : Forest} (h : ∀ c p, g.parent c = some p → f.parent c = some p)
    {a n : NodeId} (ha : g.Above a n) : f.Above a n :=
  Relation.TransGen.mono (fun p c hp => h c p hp) a n ha

theorem Above.has_right {f : Forest} {a n : NodeId} (h : f.Above a n) : f.Has n := by
  obtain ⟨p, hp, -⟩ := above_iff.mp h
  exact has_of_parent hp

theorem mem_climb_above {f : Forest} {a : NodeId} :
    ∀ {fuel : Nat} {n : NodeId}, a ∈ f.climb fuel n → f.Above a n := by
  intro fuel
  induction fuel with
  | zero => intro n h; cases h
  | succ fuel ih =>
    intro n h
    rw [climb] at h
    split at h
    · cases h
    · rename_i p hp
      rw [List.mem_cons] at h
      exact above_iff.mpr ⟨p, hp, h.imp id ih⟩

theorem climb_of_length_lt {f : Forest} :
    ∀ {fuel : Nat} {n : NodeId}, (f.climb fuel n).length < fuel →
      f.climb (fuel + 1) n = f.climb fuel n := by
  intro fuel
  induction fuel with
  | zero => intro n h; cases h
  | succ fuel ih =>
    intro n h
    rw [climb] at h
    rw [climb]
    conv_rhs => rw [climb]
    cases hp : f.parent n with
    | none => rfl
    | some p =>
      rw [hp] at h
      simp only [List.length_cons] at h
      simp only [ih (show (f.climb fuel p).length < fuel by omega)]

namespace WellFormed

variable {f : Forest} (wf : f.WellFormed)

include wf

theorem has_parent {p c : NodeId} (h : f.parent c = some p) : f.Has p :=
  has_of_mem_children ((wf.linked p c).mpr h)

theorem has_child {p c : NodeId} (h : c ∈ f.children p) : f.Has c :=
  has_of_parent ((wf.linked p c).mp h)

theorem not_mem_children_of_root {c : NodeId} (h : f.parent c = none) (p : NodeId) :
    c ∉ f.children p := by
  rw [wf.linked, h]
  simp

theorem ne_parent {p c : NodeId} (h : f.parent c = some p) : c ≠ p := by
  rintro rfl
  exact wf.acyclic c (above_of_parent h)

theorem has_above {a n : NodeId} (h : f.Above a n) : f.Has a := by
  induction h with
  | single h => exact wf.has_parent h
  | tail _ _ ih => exact ih

theorem climb_nodup (fuel : Nat) (n : NodeId) : (n :: f.climb fuel n).Nodup := by
  induction fuel generalizing n with
  | zero => simp [climb]
  | succ fuel ih =>
    refine List.nodup_cons.mpr ⟨fun h => wf.acyclic n (mem_climb_above h), ?_⟩
    rw [climb]
    split
    · exact List.nodup_nil
    · exact ih _

theorem climb_length (fuel : Nat) {n : NodeId} (hn : f.Has n) :
    (f.climb fuel n).length < f.size := by
  -- The node and its ancestors are different nodes of the forest.
  have hsub : (n :: f.climb fuel n).map (·.index) ⊆ List.range f.size := by
    intro i hi
    obtain ⟨m, hm, rfl⟩ := List.mem_map.mp hi
    rw [List.mem_range]
    rcases List.mem_cons.mp hm with rfl | hm
    · exact hn
    · exact wf.has_above (mem_climb_above hm)
  have hnd : ((n :: f.climb fuel n).map (·.index)).Nodup :=
    (wf.climb_nodup fuel n).map fun _ _ h => NodeId.ext_index h
  have := (hnd.subperm hsub).length_le
  simp only [List.map_cons, List.length_cons, List.length_map, List.length_range] at this
  omega

/-- The fuel of `ancestors` never runs out. -/
theorem ancestors_eq (n : NodeId) :
    f.ancestors n = match f.parent n with
      | none => []
      | some p => p :: f.ancestors p := by
  unfold ancestors
  cases hs : f.size with
  | zero =>
    cases hp : f.parent n with
    | none => rfl
    | some p =>
      have := has_of_parent hp
      unfold Has at this
      omega
  | succ s =>
    conv_lhs => rw [climb]
    cases hp : f.parent n with
    | none => rfl
    | some p =>
      -- The chain of the parent ends before its fuel does, so one unit less does it too.
      have hlen := wf.climb_length (s + 1) (has_of_parent hp)
      rw [climb, hp] at hlen
      simp only [List.length_cons] at hlen
      simp only
      rw [climb_of_length_lt (by omega)]

theorem ancestors_of_root {n : NodeId} (h : f.parent n = none) : f.ancestors n = [] := by
  rw [wf.ancestors_eq, h]

theorem ancestors_of_child {n p : NodeId} (h : f.parent n = some p) :
    f.ancestors n = p :: f.ancestors p := by
  rw [wf.ancestors_eq, h]

theorem mem_ancestors {a n : NodeId} : a ∈ f.ancestors n ↔ f.Above a n := by
  refine ⟨mem_climb_above, fun h => ?_⟩
  induction h with
  | single h => rw [wf.ancestors_of_child h]; exact List.mem_cons_self
  | tail _ h ih => rw [wf.ancestors_of_child h]; exact List.mem_cons_of_mem _ ih

theorem isAncestor_iff {a n : NodeId} : f.isAncestor a n = true ↔ f.Above a n := by
  rw [isAncestor, List.contains_iff_mem, wf.mem_ancestors]

theorem wellFounded : WellFounded f.IsParent := by
  apply Subrelation.wf (r := InvImage (· < ·) fun n => (f.ancestors n).length)
  · intro p c h
    change (f.ancestors p).length < (f.ancestors c).length
    rw [wf.ancestors_of_child h]
    exact Nat.lt_succ_self _
  · exact InvImage.wf _ Nat.lt_wfRel.wf

end WellFormed

end EventTree.Forest
