import EventTree.Proofs.Forest.Histories
import EventTree.Proofs.Forest.Siblings
import EventTree.Proofs.Forest.Subtrees
import Mathlib.Data.List.Lex

/-!
# Paths

The path of a node is found upwards, the node at a path downwards. Main statement: the one undoes the
other, and document order is the lexicographic order of the paths.
-/

namespace EventTree.Forest

/-- `p` is smaller than `q` at the first place where they differ, or ends where `q` goes on. -/
def PathBefore (p q : List Nat) : Prop := List.Lex (· < ·) p q

theorem PathBefore.asymm {p q : List Nat} (h : PathBefore p q) : ¬ PathBefore q p :=
  asymm_of (List.Lex (· < ·)) h

theorem not_pathBefore_self (p : List Nat) : ¬ PathBefore p p := fun h => h.asymm h

theorem nodeAt?_append (f : Forest) (n : NodeId) (p q : List Nat) :
    f.nodeAt? n (p ++ q) = (f.nodeAt? n p).bind fun m => f.nodeAt? m q := by
  induction p generalizing n with
  | nil => rfl
  | cons i p ih =>
    rw [List.cons_append, nodeAt?, nodeAt?]
    cases f.child? n i with
    | none => rfl
    | some c => exact ih c

theorem child?_eq_split {f : Forest} {n c : NodeId} {i : Nat} (h : f.child? n i = some c) :
    ∃ l r, f.children n = l ++ c :: r ∧ l.length = i := by
  obtain ⟨hi, hc⟩ := List.getElem?_eq_some_iff.mp h
  refine ⟨(f.children n).take i, (f.children n).drop (i + 1), ?_, by simp; omega⟩
  conv_lhs => rw [← List.take_append_drop i (f.children n)]
  rw [List.drop_eq_getElem_cons hi, hc]

namespace WellFormed

variable {f : Forest} (wf : f.WellFormed)

include wf

/-! ## One step -/

theorem root_of_root {n : NodeId} (h : f.parent n = none) : f.root n = n := by
  rw [wf.loopsEnd.root, h]

theorem root_of_child {n p : NodeId} (h : f.parent n = some p) : f.root n = f.root p := by
  rw [wf.loopsEnd.root, h]

theorem path_of_root {n : NodeId} (h : f.parent n = none) : f.path n = [] := by
  rw [wf.loopsEnd.path, h]
  cases f.index? n <;> rfl

theorem path_of_child? {n c : NodeId} {i : Nat} (h : f.child? n i = some c) :
    f.parent c = some n ∧ f.path c = f.path n ++ [i] := by
  obtain ⟨l, r, hsplit, rfl⟩ := child?_eq_split h
  refine ⟨wf.parent_of_split hsplit, ?_⟩
  rw [wf.loopsEnd.path, wf.index?_of_split hsplit, wf.parent_of_split hsplit]

theorem child?_of_parent {n p : NodeId} (h : f.parent n = some p) :
    ∃ i, f.child? p i = some n ∧ f.path n = f.path p ++ [i] := by
  obtain ⟨l, r, hsplit⟩ := List.append_of_mem ((wf.linked p n).mpr h)
  have hchild := child?_of_split hsplit
  exact ⟨l.length, hchild, (wf.path_of_child? hchild).2⟩

/-! ## Whole ways -/

theorem nodeAt?_root_path (n : NodeId) : f.nodeAt? (f.root n) (f.path n) = some n := by
  induction n using wf.wellFounded.induction with
  | _ n ih =>
    cases hp : f.parent n with
    | none => rw [wf.root_of_root hp, wf.path_of_root hp, nodeAt?]
    | some p =>
      obtain ⟨i, hchild, hpath⟩ := wf.child?_of_parent hp
      rw [wf.root_of_child hp, hpath, nodeAt?_append, ih p hp, Option.bind_some, nodeAt?, hchild]
      rfl

theorem path_of_nodeAt? {n m : NodeId} {p : List Nat} (h : f.nodeAt? n p = some m) :
    f.path m = f.path n ++ p ∧ f.root m = f.root n := by
  induction p generalizing n with
  | nil =>
    cases h
    simp
  | cons i p ih =>
    rw [nodeAt?, Option.bind_eq_some_iff] at h
    obtain ⟨c, hchild, hm⟩ := h
    obtain ⟨hparent, hpath⟩ := wf.path_of_child? hchild
    obtain ⟨hp, hr⟩ := ih hm
    rw [hp, hr, hpath, wf.root_of_child hparent, List.append_assoc]
    exact ⟨rfl, rfl⟩

theorem path_of_above {a n : NodeId} (h : f.Above a n) :
    ∃ i rest, f.path n = f.path a ++ i :: rest := by
  induction h with
  | single hp =>
    obtain ⟨i, -, hpath⟩ := wf.child?_of_parent hp
    exact ⟨i, [], hpath⟩
  | tail _ hp ih =>
    obtain ⟨i, rest, hup⟩ := ih
    obtain ⟨j, -, hpath⟩ := wf.child?_of_parent hp
    exact ⟨i, rest ++ [j], by rw [hpath, hup, List.append_assoc]; rfl⟩

theorem path_of_mem_subtree {n m : NodeId} (h : m ∈ f.subtree n) :
    ∃ rest, f.path m = f.path n ++ rest := by
  rcases List.mem_cons.mp h with rfl | h
  · exact ⟨[], (List.append_nil _).symm⟩
  · obtain ⟨i, rest, hpath⟩ := wf.path_of_above (wf.mem_descendants.mp h)
    exact ⟨i :: rest, hpath⟩

theorem mem_subtree_root (n : NodeId) : n ∈ f.subtree (f.root n) := by
  induction n using wf.wellFounded.induction with
  | _ n ih =>
    cases hp : f.parent n with
    | none => rw [wf.root_of_root hp]; exact List.mem_cons_self
    | some p =>
      rw [wf.root_of_child hp]
      refine List.mem_cons_of_mem _ (wf.mem_descendants.mpr (above_iff.mpr ⟨p, hp, ?_⟩))
      exact (List.mem_cons.mp (ih p hp)).imp Eq.symm wf.mem_descendants.mp

theorem root_of_above {a n : NodeId} (h : f.Above a n) : f.root n = f.root a := by
  induction h with
  | single hp => exact wf.root_of_child hp
  | tail _ hp ih => rw [wf.root_of_child hp, ih]

theorem root_of_mem_subtree {n m : NodeId} (h : m ∈ f.subtree n) : f.root m = f.root n := by
  rcases List.mem_cons.mp h with rfl | h
  · rfl
  · exact wf.root_of_above (wf.mem_descendants.mp h)

/-! ## Document order -/

/-- A node comes before what is below it, and the subtree of an earlier child before that of a later
one. -/
theorem pairwise_subtree (n : NodeId) :
    (f.subtree n).Pairwise fun a b => PathBefore (f.path a) (f.path b) := by
  induction n using wf.wellFounded_children.induction with
  | _ n ih =>
    refine List.pairwise_cons.mpr ⟨fun m hm => ?_, ?_⟩
    · obtain ⟨i, rest, hpath⟩ := wf.path_of_above (wf.mem_descendants.mp hm)
      have hlex : PathBefore (f.path n ++ []) (f.path n ++ i :: rest) :=
        List.Lex.append_left _ .nil _
      rwa [hpath, ← List.append_nil (f.path n), List.append_assoc]
    · rw [wf.descendants_eq, List.pairwise_flatMap]
      refine ⟨fun c hc => ih c hc, List.pairwise_iff_getElem.mpr ?_⟩
      intro i j hi hj hij a ha b hb
      -- The paths first differ at the places of the two children.
      obtain ⟨-, hpi⟩ := wf.path_of_child? (List.getElem?_eq_getElem hi)
      obtain ⟨-, hpj⟩ := wf.path_of_child? (List.getElem?_eq_getElem hj)
      obtain ⟨resta, hpa⟩ := wf.path_of_mem_subtree ha
      obtain ⟨restb, hpb⟩ := wf.path_of_mem_subtree hb
      rw [hpa, hpb, hpi, hpj, List.append_assoc, List.append_assoc]
      exact List.Lex.append_left _ (.rel hij) _

theorem nodup_subtree (n : NodeId) : (f.subtree n).Nodup := by
  refine List.nodup_iff_pairwise_ne.mpr ((wf.pairwise_subtree n).imp ?_)
  rintro a b h rfl
  exact not_pathBefore_self _ h

theorem idxOf_subtree_lt_iff {n a b : NodeId} (ha : a ∈ f.subtree n) (hb : b ∈ f.subtree n) :
    (f.subtree n).idxOf a < (f.subtree n).idxOf b ↔ PathBefore (f.path a) (f.path b) := by
  have hsorted := List.pairwise_iff_getElem.mp (wf.pairwise_subtree n)
  have hi := List.idxOf_lt_length_iff.mpr ha
  have hj := List.idxOf_lt_length_iff.mpr hb
  have before : ∀ {x y : NodeId} (hx : (f.subtree n).idxOf x < (f.subtree n).length)
      (hy : (f.subtree n).idxOf y < (f.subtree n).length),
      (f.subtree n).idxOf x < (f.subtree n).idxOf y → PathBefore (f.path x) (f.path y) := by
    intro x y hx hy hlt
    simpa only [List.getElem_idxOf] using hsorted _ _ hx hy hlt
  refine ⟨before hi hj, fun hlex => ?_⟩
  -- If `a` does not come first, then `b` does or they are the same.
  by_contra hle
  rcases Nat.lt_or_eq_of_le (Nat.le_of_not_lt hle) with hlt | heq
  · exact hlex.asymm (before hj hi hlt)
  · obtain rfl := (List.idxOf_inj hb).mp heq
    exact not_pathBefore_self _ hlex

end WellFormed

/-! ## The main statement -/

/-- Paths and nodes belong to each other one by one, and document order is the order of the paths. -/
theorem paths_address_nodes {f : Forest} (wf : f.WellFormed) :
    (∀ n, f.nodeAt? (f.root n) (f.path n) = some n) ∧
    (∀ r p m, f.parent r = none → f.nodeAt? r p = some m → f.path m = p ∧ f.root m = r) ∧
    ∀ a b, f.root a = f.root b →
      ((f.subtree (f.root a)).idxOf a < (f.subtree (f.root a)).idxOf b ↔
        PathBefore (f.path a) (f.path b)) := by
  refine ⟨wf.nodeAt?_root_path, fun r p m hr hm => ?_, fun a b hroot => ?_⟩
  · obtain ⟨hpath, hroot⟩ := wf.path_of_nodeAt? hm
    rw [hpath, hroot, wf.path_of_root hr, wf.root_of_root hr]
    exact ⟨rfl, rfl⟩
  · exact wf.idxOf_subtree_lt_iff (wf.mem_subtree_root a) (hroot ▸ wf.mem_subtree_root b)

/-- The later of two children was moved to the front. -/
theorem paths_address_nodes_of_shuffled :
    let f := Forest.empty.perform [.new "r", .addChild ⟨0⟩ "a", .addChild ⟨0⟩ "b",
      .addChild ⟨1⟩ "c", .addChild ⟨2⟩ "d", .insert ⟨0⟩ 0 ⟨2⟩]
    f.WellFormed ∧ f.nodeAt? (f.root ⟨4⟩) (f.path ⟨4⟩) = some ⟨4⟩ ∧
      (f.parent ⟨0⟩ = none ∧ f.nodeAt? ⟨0⟩ [1, 0] = some ⟨3⟩ ∧ f.path ⟨3⟩ = [1, 0] ∧
        f.root ⟨3⟩ = ⟨0⟩) ∧
      f.root ⟨4⟩ = f.root ⟨1⟩ ∧ PathBefore (f.path ⟨4⟩) (f.path ⟨1⟩) := by
  intro f
  have wf : f.WellFormed := wellFormed_empty.perform (by decide)
  obtain ⟨hnode, hpath, horder⟩ := paths_address_nodes wf
  have hroot : f.parent ⟨0⟩ = none := by decide
  have hat : f.nodeAt? ⟨0⟩ [1, 0] = some ⟨3⟩ := by decide
  have hsame : f.root ⟨4⟩ = f.root ⟨1⟩ := by decide
  exact ⟨wf, hnode ⟨4⟩, ⟨hroot, hat, hpath ⟨0⟩ [1, 0] ⟨3⟩ hroot hat⟩, hsame,
    (horder ⟨4⟩ ⟨1⟩ hsame).mp (by decide)⟩

end EventTree.Forest
