import EventTree.Forest.Walk
import EventTree.Proofs.Forest.Planting

/-!
# Histories of a forest

Whatever is done to the nodes of a forest, one operation after the other and failed ones included, it
stays well formed. So the loops that follow parents upwards come to an end, and no node that is to be
replaced has lost its position.
-/

namespace EventTree

/-! ## Operations -/

/-- What a program can do to live nodes. -/
inductive Operation where
  | new (name : String)
  | withValue (name : String) (value : LiveValue)
  | withChild (n child : NodeId)
  | add (n child : NodeId)
  | insert (n : NodeId) (position : Nat) (child : NodeId)
  | addChild (n : NodeId) (name : String)
  | addValueChild (n : NodeId) (name : String) (value : LiveValue)
  | untie (n : NodeId)
  | replace (n other : NodeId)
  | clear (n : NodeId)
  | deepClone (n : NodeId)
  | setName (n : NodeId) (name : String)
  | setValue (n : NodeId) (value : LiveValue)
  | replaceValue (n : NodeId) (value : Option LiveValue)
  | takeValue (n : NodeId)
  | clearValue (n : NodeId)
  deriving DecidableEq, Repr

namespace Operation

/-- The nodes that an operation is given, those in values included. -/
def nodes : Operation → List NodeId
  | new _ => []
  | withValue _ value => Value.nodes [some value]
  | withChild n child | add n child | insert n _ child => [n, child]
  | addChild n _ | untie n | clear n | deepClone n | setName n _ | takeValue n | clearValue n => [n]
  | addValueChild n _ value | setValue n value => n :: Value.nodes [some value]
  | replaceValue n value => n :: Value.nodes [value]
  | replace n other => [n, other]

/-- The outcome of an operation. A child that `withChild` cannot insert is skipped. -/
def apply (f : Forest) : Operation → Except Cause Forest
  | new name => .ok (f.create name).2
  | withValue name value => .ok ((f.create name).2.setValue (f.create name).1 (some value))
  | withChild n child => .ok ((f.insert n none child).toOption.getD f)
  | add n child => f.insert n none child
  | insert n position child => f.insert n (some position) child
  | addChild n name => .ok (f.addChild n name none).2
  | addValueChild n name value => .ok (f.addChild n name (some value)).2
  | untie n => f.untie n
  | replace n other => f.replace n other
  | clear n => .ok (f.clear n)
  | deepClone n => .ok (f.copy n).2
  | setName n name => .ok (f.setName n name)
  | setValue n value => .ok (f.setValue n (some value))
  | replaceValue n value => .ok (f.setValue n value)
  | takeValue n | clearValue n => .ok (f.setValue n none)

/-- The forest after an operation; one that fails changes nothing. -/
def after (f : Forest) (op : Operation) : Forest := (op.apply f).toOption.getD f

end Operation

theorem Value.of_mem_nodes {P : NodeId → Prop} {v : Option LiveValue} (h : ∀ n ∈ nodes [v], P n) :
    ∀ m, v = some (.node m) → P m := by
  rintro m rfl
  exact h m (by simp [nodes, asNode?])

namespace Forest

/-- The forest after operations, one after the other. -/
def perform (f : Forest) (ops : List Operation) : Forest := ops.foldl Operation.after f

/-- Each operation is given nodes that are there when its turn comes. -/
def Performable : Forest → List Operation → Prop
  | _, [] => True
  | f, op :: ops => (∀ n ∈ op.nodes, f.Has n) ∧ Performable (op.after f) ops

instance decidablePerformable : (f : Forest) → (ops : List Operation) → Decidable (f.Performable ops)
  | _, [] => inferInstanceAs (Decidable True)
  | f, op :: ops =>
    have := decidablePerformable (op.after f) ops
    inferInstanceAs (Decidable ((∀ n ∈ op.nodes, f.Has n) ∧ _))

/-! ## One operation -/

theorem after_of_apply {f : Forest} {op : Operation} {P : Forest → Prop} (hf : P f)
    (h : ∀ g, op.apply f = .ok g → P g) : P (op.after f) := by
  unfold Operation.after
  cases ha : op.apply f with
  | error cause => exact hf
  | ok g => exact h g ha

theorem WellFormed.after {f : Forest} (wf : f.WellFormed) {op : Operation}
    (h : ∀ n ∈ op.nodes, f.Has n) : (op.after f).WellFormed := by
  apply after_of_apply wf
  intro g hg
  cases op with
  | new name => cases hg; exact wf.create name
  | withValue name value => cases hg; exact wf.createWith name (Value.of_mem_nodes h)
  | withChild n child =>
    cases hg
    cases hi : f.insert n none child with
    | error cause => exact wf
    | ok g => exact wf.insert (h n (by simp [Operation.nodes])) (h child (by simp [Operation.nodes])) hi
  | add n child | insert n position child =>
    exact wf.insert (h n (by simp [Operation.nodes])) (h child (by simp [Operation.nodes])) hg
  | addChild n name =>
    cases hg
    exact wf.addChild (h n (by simp [Operation.nodes])) name (by rintro m ⟨⟩)
  | addValueChild n name value =>
    cases hg
    refine wf.addChild (h n (by simp [Operation.nodes])) name (Value.of_mem_nodes fun m hm => ?_)
    exact h m (List.mem_cons_of_mem _ hm)
  | untie n => exact wf.untie hg
  | replace n other => exact wf.replace (h other (by simp [Operation.nodes])) hg
  | clear n => cases hg; exact wf.clear n
  | deepClone n => cases hg; exact (copied wf n).wellFormed
  | setName n name => cases hg; exact wf.setName n name
  | setValue n value | replaceValue n value =>
    cases hg
    refine wf.setValue n (Value.of_mem_nodes fun m hm => ?_)
    exact h m (List.mem_cons_of_mem _ hm)
  | takeValue n | clearValue n => cases hg; exact wf.setValue n (by rintro m ⟨⟩)

/-! ## All operations -/

theorem WellFormed.perform {f : Forest} (wf : f.WellFormed) {ops : List Operation}
    (h : f.Performable ops) : (f.perform ops).WellFormed := by
  induction ops generalizing f with
  | nil => exact wf
  | cons op ops ih => exact ih (wf.after h.1) h.2

/-! ## Loops along parents -/

/-- The first sibling after a node, or else after one of its ancestors. -/
def nextBeyond? (f : Forest) (n : NodeId) : Option NodeId :=
  (n :: f.ancestors n).findSome? f.nextSibling?

/-- Every loop that follows parents upwards ends, and does what one round of it and then the same loop
from the parent do. -/
structure LoopsEnd (f : Forest) : Prop where
  wellFounded : WellFounded f.IsParent
  root : ∀ n, f.root n = match f.parent n with
    | none => n
    | some p => f.root p
  isAncestor : ∀ a n, f.isAncestor a n = match f.parent n with
    | none => false
    | some p => p == a || f.isAncestor a p
  path : ∀ n, f.path n = match f.index? n, f.parent n with
    | some i, some p => f.path p ++ [i]
    | _, _ => []
  nextNode? : ∀ n, f.nextNode? n = match f.children n with
    | first :: _ => some first
    | [] => f.nextBeyond? n
  nextBeyond? : ∀ n, f.nextBeyond? n = match f.nextSibling? n with
    | some sibling => some sibling
    | none => (f.parent n).bind f.nextBeyond?

theorem WellFormed.loopsEnd {f : Forest} (wf : f.WellFormed) : f.LoopsEnd where
  wellFounded := wf.wellFounded
  root n := by
    unfold Forest.root
    cases h : f.parent n with
    | none => rw [wf.ancestors_of_root h]; rfl
    | some p => rw [wf.ancestors_of_child h, List.getLast?_cons, Option.getD_some]
  isAncestor a n := by
    unfold Forest.isAncestor
    cases h : f.parent n with
    | none => rw [wf.ancestors_of_root h]; rfl
    | some p =>
      rw [wf.ancestors_of_child h, List.contains_cons, Bool.beq_comm]
  path n := by
    unfold Forest.path
    cases h : f.parent n with
    | none =>
      have hi : f.index? n = none := by rw [index?, h]; rfl
      rw [wf.ancestors_of_root h, hi]
      simp [hi]
    | some p =>
      obtain ⟨i, hi, -⟩ := wf.index_of_child h
      rw [wf.ancestors_of_child h, hi, List.filterMap_cons, hi]
      simp
  nextNode? n := by
    rw [Forest.nextNode?]
    cases f.children n <;> rfl
  nextBeyond? n := by
    rw [Forest.nextBeyond?, List.findSome?_cons]
    cases hs : f.nextSibling? n with
    | some sibling => rfl
    | none =>
      cases h : f.parent n with
      | none => rw [wf.ancestors_of_root h]; rfl
      | some p => rw [wf.ancestors_of_child h]; rfl

/-! ## The main statement -/

/-- After any operations on existing nodes, from no nodes at all on, the nodes are a forest. -/
theorem perform_forest (ops : List Operation) (h : Forest.empty.Performable ops) :
    (Forest.empty.perform ops).WellFormed ∧ (Forest.empty.perform ops).LoopsEnd ∧
      ∀ n other a, (Forest.empty.perform ops).replace n other ≠ .error (.lostPosition a) := by
  have wf := wellFormed_empty.perform h
  exact ⟨wf, wf.loopsEnd, fun n other a => wf.replace_ne_lostPosition a⟩

/-- A history with a failed insertion, a copy and a replacement. -/
theorem perform_forest_of_family :
    let ops : List Operation := [.new "a", .addChild ⟨0⟩ "b", .add ⟨1⟩ ⟨0⟩,
      .setValue ⟨1⟩ (.node ⟨0⟩), .addChild ⟨1⟩ "c", .replace ⟨2⟩ ⟨1⟩, .new "d", .replace ⟨1⟩ ⟨3⟩,
      .deepClone ⟨0⟩]
    Forest.empty.Performable ops ∧ (Forest.empty.perform ops).WellFormed := by
  intro ops
  have h : Forest.empty.Performable ops := by decide
  exact ⟨h, (perform_forest ops h).1⟩

end Forest

end EventTree
