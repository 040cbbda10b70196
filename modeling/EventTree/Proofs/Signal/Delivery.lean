import EventTree.Proofs.Signal.Passing

/-!
# What a return carries

The nodes that a `return` makes hang together and hang on nothing that was there before. Putting loops
back does not touch them, so they arrive as they were made; and none of them lies above the node where
the return ends, so they can be put below it.
-/

namespace EventTree

namespace Forest

/-- `f` has grown to `g`, and all that has come since is in `u` as it is in `g`. -/
structure Carries (f g u : Forest) : Prop where
  start : f.WellFormed
  made : g.WellFormed
  grown : f.Grown g
  wellFormed : u.WellFormed
  size_le : g.size ≤ u.size
  cell_eq : ∀ k, ¬ f.Has k → g.Has k → u.cell k = g.cell k

theorem Carrying.carries {f g : Forest} {v : Option LiveValue} {n r : NodeId} (wf : f.WellFormed)
    (h : f.Carrying v n r g) : f.Carries g g :=
  ⟨wf, h.wellFormed, h.grown, h.wellFormed, Nat.le_refl _, fun _ _ _ => rfl⟩

theorem WellFormed.carries {f : Forest} (wf : f.WellFormed) : f.Carries f f :=
  ⟨wf, wf, .refl f, wf, Nat.le_refl _, fun _ _ _ => rfl⟩

namespace Carries

variable {f g u u' : Forest} (h : f.Carries g u)

include h

theorem has {n : NodeId} (hn : f.Has n) : u.Has n :=
  Nat.lt_of_lt_of_le (h.grown.has hn) h.size_le

theorem name_eq {k : NodeId} (hk : ¬ f.Has k) (hg : g.Has k) : u.name k = g.name k := by
  rw [name, h.cell_eq k hk hg, name]

theorem value_eq {k : NodeId} (hk : ¬ f.Has k) (hg : g.Has k) : u.value k = g.value k := by
  rw [value, h.cell_eq k hk hg, value]

theorem parent_eq {k : NodeId} (hk : ¬ f.Has k) (hg : g.Has k) : u.parent k = g.parent k := by
  rw [parent, h.cell_eq k hk hg, parent]

theorem children_eq {k : NodeId} (hk : ¬ f.Has k) (hg : g.Has k) : u.children k = g.children k := by
  rw [children, h.cell_eq k hk hg, children]

theorem parent_ne {k n : NodeId} (hk : ¬ f.Has k) (hg : g.Has k) (hn : f.Has n) :
    u.parent k ≠ some n := by
  intro hp
  rw [h.parent_eq hk hg] at hp
  have hc := (h.made.linked n k).mpr hp
  rw [h.grown.children_eq hn] at hc
  exact hk (h.start.has_child hc)

theorem new_below {c k : NodeId} (hc : ¬ f.Has c) (hg : g.Has c) (ha : u.Above c k) :
    ¬ f.Has k ∧ g.Has k := by
  -- A child that was there before would have a parent that was.
  have hstep : ∀ {p k : NodeId}, ¬ f.Has p ∧ g.Has p → u.parent k = some p → ¬ f.Has k ∧ g.Has k := by
    rintro p k ⟨hp, hgp⟩ hpk
    have hmem := (h.wellFormed.linked p k).mpr hpk
    rw [h.children_eq hp hgp] at hmem
    refine ⟨fun hf => hp ?_, h.made.has_child hmem⟩
    have hparent := (h.made.linked p k).mp hmem
    rw [h.grown.parent_eq hf] at hparent
    exact h.start.has_parent hparent
  induction ha with
  | single hp => exact hstep ⟨hc, hg⟩ hp
  | tail _ hp ih => exact hstep ih hp

theorem restored {n : NodeId} (hn : f.Has n) (hr : u.Restored n u') : f.Carries g u' where
  start := h.start
  made := h.made
  grown := h.grown
  wellFormed := hr.wellFormed
  size_le := Nat.le_trans h.size_le hr.size_le
  cell_eq k hk hg := by
    have hne : k ≠ n := fun e => hk (e ▸ hn)
    have hmem : k ∉ u.children n := fun hm =>
      h.parent_ne hk hg hn ((h.wellFormed.linked n k).mp hm)
    rw [hr.cell_eq k (Nat.lt_of_lt_of_le hg h.size_le) hne hmem, h.cell_eq k hk hg]

theorem givenBack {n : NodeId} {ds : List NodeId} (hn : f.Has n)
    (hr : Keyword.GivenBack n ds u u') : f.Carries g u' where
  start := h.start
  made := h.made
  grown := h.grown
  wellFormed := hr.wellFormed
  size_le := hr.size_eq ▸ h.size_le
  cell_eq k hk hg := by
    have hne : k ≠ n := fun e => hk (e ▸ hn)
    rw [← h.cell_eq k hk hg]
    refine cell_ext (hr.name_eq k) (hr.value_eq k) ?_ ?_
    · exact (hr.parent_eq k).trans (if_neg fun hp => h.parent_ne hk hg hn hp.2)
    · exact (hr.children_eq k).trans (if_neg hne)

end Carries

end Forest

open EventTree.Action Keyword

/-! ## Unwinding -/

section Unwinding

variable {f g : Forest} {w : World} (h : f.Carries g w.forest)

include h

theorem Pass.carries_restored {pass : Pass} (hn : f.Has pass.node) :
    f.Carries g (pass.restored w.forest) := by
  have htidied : f.Carries g (pass.tidied w.forest) := by
    rcases Pass.tidied_restored h.wellFormed (h.has hn) with hr | hr
    · exact h.restored hn hr
    · rw [hr]; exact h
  exact htidied.restored hn (Forest.restored_spec htidied.wellFormed (htidied.has hn) _)

theorem Frame.carries_unwound {frame : Frame} (hwithin : frame.Within f) :
    f.Carries g (frame.unwound w).forest := by
  cases frame with
  | passing => exact h
  | looping pass =>
    have hforest : ∀ w' : World, w'.shallower.forest = w'.forest := fun _ => rfl
    rw [unwound, hforest, left, World.forest_on]
    exact Pass.carries_restored h hwithin

theorem carries_unwind {frames : List Frame} (hwithin : ∀ frame ∈ frames, frame.Within f) :
    f.Carries g (unwind frames w).forest := by
  induction frames with
  | nil => exact h
  | cons frame frames ih =>
    exact Frame.carries_unwound (ih fun x hx => hwithin x (List.mem_cons_of_mem _ hx))
      (hwithin frame List.mem_cons_self)

theorem Nested.outcome {m : Machine} (hm : m.IsCore) {t s : Moment} {frames : List Frame} {flow : Flow}
    (hnested : Nested m t frames s) (hs : m.outcome s = (.ok flow, w))
    (hlets : ∀ frame ∈ frames, frame.Lets flow) (hwithin : ∀ frame ∈ frames, frame.Within f) :
    m.outcome t = (.ok flow, unwind frames w) := by
  induction hnested with
  | here => exact hs
  | inside henters _ ih =>
    rename_i frame frames _
    have hinner := fun x hx => hwithin x (List.mem_cons_of_mem _ hx)
    have hcarries := carries_unwind h hinner
    have hframe := hwithin frame List.mem_cons_self
    refine henters.outcome_of_lets hm (ih hs (fun x hx => hlets x (List.mem_cons_of_mem _ hx)) hinner)
      (hlets frame List.mem_cons_self) hcarries.wellFormed (hframe.mono ?_)
    exact Nat.le_trans h.grown.size_le hcarries.size_le

end Unwinding

/-! ## Arriving -/

/-- What came with `r` is on a node: its value, if there is one, and its children after those that the
node has. -/
structure Receives (n r : NodeId) (f g u u' : Forest) : Prop where
  value_eq : u'.value n = (g.value r).or (u.value n)
  children_eq : u'.children n = u.children n ++ g.children r
  size_le : g.size ≤ u'.size
  sameNode : ∀ k, ¬ f.Has k → g.Has k → k ≠ r → g.SameNode u' k

namespace Forest

/-- Moves the value of a node, if it has one, to another. -/
def passValue (f : Forest) (n r : NodeId) : Forest :=
  match f.value r with
  | none => f.setValue r none
  | some v => (f.setValue r none).setValue n (some v)

section PassValue

variable {f : Forest} {n r m : NodeId}

@[simp]
theorem size_passValue : (f.passValue n r).size = f.size := by
  unfold passValue
  split <;> simp

@[simp]
theorem name_passValue : (f.passValue n r).name m = f.name m := by
  unfold passValue
  split <;> simp

@[simp]
theorem parent_passValue : (f.passValue n r).parent m = f.parent m := by
  unfold passValue
  split <;> simp

@[simp]
theorem children_passValue : (f.passValue n r).children m = f.children m := by
  unfold passValue
  split <;> simp

theorem WellFormed.passValue (wf : f.WellFormed) : (f.passValue n r).WellFormed := by
  have hnone := wf.setValue r (v := none) (by rintro k ⟨⟩)
  unfold Forest.passValue
  split
  · exact hnone
  · rename_i v hv
    exact hnone.setValue n fun k hk => has_setValue.mpr (wf.held r k (hv.trans hk))

theorem value_passValue (hr : f.Has r) (hn : f.Has n) (hne : n ≠ r) : (f.passValue n r).value m =
    if m = n then (f.value r).or (f.value n) else if m = r then none else f.value m := by
  unfold passValue
  split
  · rename_i hv
    rw [value_setValue hr, hv, Option.none_or]
    grind
  · rename_i v hv
    rw [value_setValue (has_setValue.mpr hn), value_setValue hr, hv, Option.some_or]

end PassValue

end Forest

theorem result_settleOn_returning {hold : Hold} {w : World} {n r : NodeId} :
    (settleOn n (.returning r)).result hold w =
      (forEach (w.forest.children r) fun c => insert n none c).result hold
        (w.on (w.forest.passValue n r)) := by
  unfold settleOn
  rw [result_bind_ok (result_ask _), result_bind_ok (result_edit _), Forest.passValue]
  dsimp only
  cases hv : w.forest.value r with
  | none =>
    rw [result_bind_ok (result_ask _), Forest.children_setValue]
    rfl
  | some v =>
    rw [result_bind_ok (result_setValue _ _), result_bind_ok (result_ask _),
      Forest.children_setValue, Forest.children_setValue]
    rfl

theorem settleOn_lends (hold : Hold) {w : World} (wf : w.forest.WellFormed) {n r : NodeId}
    (hn : w.forest.Has n) (hne : n ≠ r) (hna : ¬ w.forest.Above r n) :
    ∃ u, (settleOn n (.returning r)).result hold w = (.ok (), w.on u) ∧
      Lent n (w.forest.children r) (w.forest.passValue n r) u ∧
      u.children n = w.forest.children n ++ w.forest.children r := by
  have hparent : ∀ {c}, c ∈ w.forest.children r → w.forest.parent c = some r := fun hc =>
    (wf.linked r _).mp hc
  -- All of them are below what is returned, and the node is not.
  have hlend : ∀ c ∈ w.forest.children r, Lendable (w.forest.passValue n r) n c := by
    intro c hc
    have hrc := Forest.above_of_parent (hparent hc)
    refine ⟨by simpa [Forest.Has] using wf.has_child hc, fun e => hna (e ▸ hrc), fun ha => ?_⟩
    exact hna (hrc.trans (ha.mono fun x p hp => by simpa using hp))
  obtain ⟨u, hrun, hl, hchildren⟩ := appendAll_lends hold (w := w.on (w.forest.passValue n r))
    wf.passValue (by simpa [Forest.Has] using hn) (wf.nodup r) hlend (fun c hc h => by
      rw [World.forest_on, Forest.parent_passValue, hparent hc] at h
      exact hne (Option.some.inj h).symm)
  rw [World.forest_on, Forest.children_passValue] at hchildren
  exact ⟨u, result_settleOn_returning.trans hrun, hl, hchildren⟩

theorem settleOn_receives {f g : Forest} (hold : Hold) {w : World} (h : f.Carries g w.forest)
    {n r : NodeId} (hn : f.Has n) (hr : ¬ f.Has r) (hg : g.Has r) :
    ∃ u, (settleOn n (.returning r)).result hold w = (.ok (), w.on u) ∧
      Receives n r f g w.forest u := by
  have hne : n ≠ r := fun e => hr (e ▸ hn)
  have hrhas : w.forest.Has r := Nat.lt_of_lt_of_le hg h.size_le
  obtain ⟨u, hrun, hl, hchildren⟩ := settleOn_lends hold h.wellFormed (h.has hn) hne fun ha =>
    (h.new_below hr hg ha).1 hn
  refine ⟨u, hrun, ?_, ?_, ?_, ?_⟩
  · rw [hl.value_eq, Forest.value_passValue hrhas (h.has hn) hne, if_pos rfl, h.value_eq hr hg]
  · rw [hchildren, h.children_eq hr hg]
  · rw [hl.size_eq, Forest.size_passValue]
    exact h.size_le
  · intro k hk hgk hkr
    have hkn : k ≠ n := fun e => hk (e ▸ hn)
    refine ⟨?_, ?_, ?_⟩
    · rw [hl.name_eq, Forest.name_passValue, h.name_eq hk hgk]
    · rw [hl.value_eq, Forest.value_passValue hrhas (h.has hn) hne, if_neg hkn, if_neg hkr,
        h.value_eq hk hgk]
    · rw [hl.children_ne k hkn, Forest.children_passValue, ← h.children_eq hk hgk,
        List.filter_eq_self]
      -- A child of `k` has no other parent.
      intro c hc
      refine decide_eq_true fun hcr => hkr ?_
      have hpk := (h.wellFormed.linked k c).mp hc
      exact Option.some.inj (hpk.symm.trans ((h.wellFormed.linked r c).mp hcr))

end EventTree
