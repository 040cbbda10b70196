import EventTree.Forest.Hold
import EventTree.Forest.Walk
import EventTree.Proofs.Forest.Editing

/-!
# What is left of a forest

Without its lost nodes a forest has fewer links and is the same otherwise. The children of a node that
is held keep their parent, and so their places and their siblings.
-/

namespace EventTree.Forest

/-- `g` is `f` without some of its links. -/
structure Pruned (f g : Forest) : Prop where
  wellFormed : g.WellFormed
  size_eq : g.size = f.size
  name_eq : ∀ n, g.name n = f.name n
  value_eq : ∀ n, g.value n = f.value n
  parent : ∀ n p, g.parent n = some p → f.parent n = some p

namespace Pruned

theorem refl {f : Forest} (wf : f.WellFormed) : Pruned f f :=
  ⟨wf, rfl, fun _ => rfl, fun _ => rfl, fun _ _ h => h⟩

theorem detach {f g : Forest} (h : Pruned f g) (n : NodeId) : Pruned f (g.detach n) where
  wellFormed := h.wellFormed.detach n
  size_eq := by rw [size_detach, h.size_eq]
  name_eq m := by rw [name_detach, h.name_eq]
  value_eq m := by rw [value_detach, h.value_eq]
  parent m p hp := h.parent m p (parent_of_parent_detach hp)

theorem child {f g : Forest} (h : Pruned f g) (wf : f.WellFormed) {n c : NodeId}
    (hc : c ∈ g.children n) : c ∈ f.children n :=
  (wf.linked n c).mpr (h.parent c n ((h.wellFormed.linked n c).mp hc))

theorem has {f g : Forest} (h : Pruned f g) {n : NodeId} : g.Has n ↔ f.Has n := by
  rw [Has, h.size_eq, Has]

end Pruned

theorem seen_pruned {f : Forest} (wf : f.WellFormed) (h : Hold) : Pruned f (f.seen h) := by
  have key : ∀ (entries : List NodeId) (g : Forest), Pruned f g →
      Pruned f (entries.foldl (fun f n => f.detach (f.summit h.held n)) g) := by
    intro entries
    induction entries with
    | nil => exact fun _ hg => hg
    | cons n entries ih => exact fun g hg => ih _ (hg.detach _)
  exact key h.entries f (Pruned.refl wf)

/-! ## Held parents -/

theorem WellFormed.chain_split {f : Forest} (wf : f.WellFormed) {x : NodeId} (n : NodeId)
    (h : x ∈ n :: f.ancestors n) : ∃ l, n :: f.ancestors n = l ++ x :: f.ancestors x := by
  induction n using wf.wellFounded.induction with
  | _ n ih =>
    rcases List.mem_cons.mp h with rfl | hx
    · exact ⟨[], rfl⟩
    · cases hp : f.parent n with
      | none =>
        rw [wf.ancestors_of_root hp] at hx
        cases hx
      | some p =>
        rw [wf.ancestors_of_child hp] at hx ⊢
        obtain ⟨l, hl⟩ := ih p hp hx
        exact ⟨n :: l, by rw [hl]; rfl⟩

theorem summit_mem (f : Forest) (held : List NodeId) (n : NodeId) :
    f.summit held n ∈ n :: f.ancestors n := by
  unfold summit
  cases h : ((n :: f.ancestors n).filter held.contains).getLast? with
  | none => exact List.mem_cons_self
  | some x => exact (List.mem_filter.mp (List.mem_of_getLast? h)).1

theorem WellFormed.parent_summit {f : Forest} (wf : f.WellFormed) {held : List NodeId} {s : NodeId}
    (hs : s ∈ held) (n : NodeId) : f.parent (f.summit held n) ≠ some s := by
  intro hp
  obtain ⟨l, hl⟩ := wf.chain_split n (summit_mem f held n)
  generalize hx : f.summit held n = x at hp hl
  rw [wf.ancestors_of_child hp] at hl
  have hlast : x ∈ s :: f.ancestors s := by
    rw [← hx, summit, hl]
    -- The last held node on the way up is `s` or above it.
    rw [List.filter_append, List.filter_cons, List.filter_cons_of_pos (by simpa using hs)]
    have hmem : ∀ k : List NodeId, (k ++ s :: (f.ancestors s).filter held.contains).getLast?.getD n ∈
        s :: f.ancestors s := by
      intro k
      rw [List.getLast?_append_of_ne_nil _ (by simp)]
      have := List.getLast_mem (List.cons_ne_nil s ((f.ancestors s).filter held.contains))
      rw [List.getLast?_eq_some_getLast (List.cons_ne_nil _ _), Option.getD_some]
      rcases List.mem_cons.mp this with h | h
      · rw [h]; exact List.mem_cons_self
      · exact List.mem_cons_of_mem _ (List.mem_filter.mp h).1
    split
    · rw [List.append_cons]
      exact hmem _
    · exact hmem _
  have habove := above_of_parent hp
  rcases List.mem_cons.mp hlast with h | h
  · rw [h] at habove
    exact wf.acyclic s habove
  · exact wf.acyclic s (habove.trans (wf.mem_ancestors.mp h))

section Held

variable {f : Forest} (wf : f.WellFormed) {h : Hold} {s : NodeId} (hs : s ∈ h.held)

include wf hs

theorem WellFormed.seen_of_held :
    (f.seen h).children s = f.children s ∧ ∀ c, f.parent c = some s → (f.seen h).parent c = some s := by
  unfold seen
  generalize h.entries = entries
  induction entries generalizing f with
  | nil => exact ⟨rfl, fun _ hc => hc⟩
  | cons n entries ih =>
    -- What goes next has no held node right above it, so it is no child of `s`.
    have hne := wf.parent_summit hs n
    obtain ⟨hchildren, hparent⟩ := ih (wf.detach (f.summit h.held n))
    rw [List.foldl_cons]
    constructor
    · rw [hchildren, wf.children_detach, List.filter_eq_self.mpr]
      intro c hc
      refine decide_eq_true ?_
      rintro rfl
      exact hne ((wf.linked s _).mp hc)
    · intro c hc
      refine hparent c ?_
      rw [parent_detach, if_neg, hc]
      rintro rfl
      exact hne hc

theorem WellFormed.children_seen : (f.seen h).children s = f.children s :=
  (wf.seen_of_held hs).1

theorem WellFormed.parent_seen {c : NodeId} (hc : f.parent c = some s) :
    (f.seen h).parent c = some s := (wf.seen_of_held hs).2 c hc

theorem WellFormed.index?_seen {c : NodeId} (hc : f.parent c = some s) :
    (f.seen h).index? c = f.index? c := by
  rw [index?, wf.parent_seen hs hc, index?, hc]
  simp only [Option.bind_some, wf.children_seen hs]

theorem WellFormed.previousSibling?_seen {c : NodeId} (hc : f.parent c = some s) :
    (f.seen h).previousSibling? c = f.previousSibling? c := by
  simp only [previousSibling?, wf.parent_seen hs hc, hc, wf.index?_seen hs hc, child?,
    wf.children_seen hs, Option.bind_eq_bind, Option.bind_some]

theorem WellFormed.nextSibling?_seen {c : NodeId} (hc : f.parent c = some s) :
    (f.seen h).nextSibling? c = f.nextSibling? c := by
  simp only [nextSibling?, wf.parent_seen hs hc, hc, wf.index?_seen hs hc, child?,
    wf.children_seen hs, Option.bind_eq_bind, Option.bind_some]

theorem WellFormed.siblingsBefore_seen {c : NodeId} (hc : f.parent c = some s) :
    (f.seen h).siblingsBefore c = f.siblingsBefore c := by
  simp only [siblingsBefore, wf.parent_seen hs hc, hc, wf.index?_seen hs hc]
  cases f.index? c with
  | none => rfl
  | some i => simp only [wf.children_seen hs]

end Held

end EventTree.Forest
