import EventTree.Proofs.Plot.Machine

/-!
# Isolation of `eval`

`eval` runs copies. A copy and all that comes of it are new nodes, and they are a plot of their own, so
whatever the program does, the nodes that were there before stay as they are. Only what the program
returns reaches the node of the `eval`: its value, and children after those that the node has.

That all nodes stay is a statement about nodes that are alive, and every node is taken to be. The value
that the node of the `eval` had is replaced. If it was a tree that nothing else owned, the nodes of that tree
still count as untouched, with their parents and children.
-/

namespace EventTree

namespace Forest

/-- All nodes of `f` are in `g` as they were. -/
structure Untouched (f g : Forest) : Prop where
  wellFormed : g.WellFormed
  size_le : f.size ≤ g.size
  cell_eq : ∀ m, f.Has m → g.cell m = f.cell m

/-- All nodes of `f` are in `g` as they were, except that `n` may have another value, and new nodes after
its children. -/
structure Outgrown (f : Forest) (n : NodeId) (g : Forest) : Prop where
  wellFormed : g.WellFormed
  size_le : f.size ≤ g.size
  cell_eq : ∀ m, f.Has m → m ≠ n → g.cell m = f.cell m
  name_eq : g.name n = f.name n
  parent_eq : g.parent n = f.parent n
  children_eq : ∃ added, g.children n = f.children n ++ added ∧ ∀ c ∈ added, ¬ f.Has c

namespace Untouched

variable {f g : Forest} (h : f.Untouched g)

include h

theorem has {m : NodeId} (hm : f.Has m) : g.Has m := Nat.lt_of_lt_of_le hm h.size_le

theorem outgrown {n : NodeId} (hn : f.Has n) : f.Outgrown n g := by
  have hcell := h.cell_eq n hn
  refine ⟨h.wellFormed, h.size_le, fun m hm _ => h.cell_eq m hm, ?_, ?_, [], ?_, by simp⟩
  · rw [name, hcell, name]
  · rw [parent, hcell, parent]
  · rw [children, hcell, children, List.append_nil]

end Untouched

namespace Outgrown

variable {f g : Forest} {n : NodeId} (h : f.Outgrown n g)

include h

theorem has {m : NodeId} (hm : f.Has m) : g.Has m := Nat.lt_of_lt_of_le hm h.size_le

theorem parent_of_has {m : NodeId} (hm : f.Has m) : g.parent m = f.parent m := by
  by_cases hmn : m = n
  · rw [hmn, h.parent_eq]
  · rw [parent, h.cell_eq m hm hmn, parent]

theorem has_above (wf : f.WellFormed) {a m : NodeId} (hm : f.Has m) (ha : g.Above a m) :
    f.Has a := by
  induction ha with
  | single hp =>
    rw [IsParent, h.parent_of_has hm] at hp
    exact wf.has_parent hp
  | tail _ hp ih =>
    rw [IsParent, h.parent_of_has hm] at hp
    exact ih (wf.has_parent hp)

theorem new_child (wf : f.WellFormed) {m c : NodeId} (hm : ¬ f.Has m) (hc : c ∈ g.children m) :
    ¬ f.Has c := by
  intro hf
  have hp := (h.wellFormed.linked m c).mp hc
  rw [h.parent_of_has hf] at hp
  exact hm (wf.has_parent hp)

theorem setValue {m : NodeId} (hm : m = n ∨ ¬ f.Has m) {v : Option LiveValue}
    (hv : ∀ k, v = some (.node k) → g.Has k) : f.Outgrown n (g.setValue m v) := by
  obtain ⟨added, hadded, hnew⟩ := h.children_eq
  refine ⟨h.wellFormed.setValue m hv, by simpa using h.size_le, ?_, ?_, ?_, added, ?_, hnew⟩
  · intro k hk hkn
    rw [Forest.setValue, cell_update_ne, h.cell_eq k hk hkn]
    rintro rfl
    exact hm.elim hkn (absurd hk)
  · rw [name_setValue, h.name_eq]
  · rw [parent_setValue, h.parent_eq]
  · rw [children_setValue, hadded]

end Outgrown

theorem Outgrown.trans {f g h : Forest} {n : NodeId} (hg : f.Outgrown n g) (hh : g.Outgrown n h) :
    f.Outgrown n h := by
  have hold : ∀ {m}, f.Has m → g.Has m := fun hm => Nat.lt_of_lt_of_le hm hg.size_le
  obtain ⟨added, hadded, hnew⟩ := hg.children_eq
  obtain ⟨more, hmore, hnewer⟩ := hh.children_eq
  refine ⟨hh.wellFormed, Nat.le_trans hg.size_le hh.size_le, ?_, ?_, ?_, added ++ more, ?_, ?_⟩
  · intro m hm hne
    rw [hh.cell_eq m (hold hm) hne, hg.cell_eq m hm hne]
  · rw [hh.name_eq, hg.name_eq]
  · rw [hh.parent_eq, hg.parent_eq]
  · rw [hmore, hadded, List.append_assoc]
  · intro c hc hf
    rcases List.mem_append.mp hc with hc | hc
    · exact hnew c hc hf
    · exact hnewer c hc (hold hf)

end Forest

/-! ## The plot of a copy -/

namespace Plot

variable {f g : Forest}

/-- All that came after `f`. -/
def apart (wf : f.WellFormed) (wg : g.WellFormed) (hg : f.Grown g) : Plot :=
  ⟨fun n => ¬ f.Has n, g, fenced_apart wf wg hg⟩

theorem Tended.untouched {wf : f.WellFormed} {wg : g.WellFormed} {hg : f.Grown g} {k : Forest}
    (ht : (apart wf wg hg).Tended k) : f.Untouched k where
  wellFormed := ht.wellFormed
  size_le := Nat.le_trans hg.size_le ht.size_le
  cell_eq m hm := by
    rw [ht.outside m fun h => h hm]
    exact hg.cell_eq m hm

end Plot

/-! ## What is returned -/

open EventTree.Action Keyword

/-- The children of a new node come after those of an old one. The old one has no new node above it,
so no insertion is refused. -/
theorem appendChildren_outgrown {f : Forest} (wf : f.WellFormed) (hold : Hold) {w : World}
    {n r : NodeId} (ho : f.Outgrown n w.forest) (hn : f.Has n) (hr : ¬ f.Has r) :
    ∃ g, (forEach (w.forest.children r) fun c => insert n none c).result hold w =
      (.ok (), { w with forest := g }) ∧ f.Outgrown n g := by
  have wfw := ho.wellFormed
  have hnew : ∀ c ∈ w.forest.children r, ¬ f.Has c := fun c hc => ho.new_child wf hr hc
  have hne : r ≠ n := fun e => hr (e ▸ hn)
  obtain ⟨g, hrun, hl, hg⟩ := appendAll_lends hold wfw (ho.has hn) (wfw.nodup r)
    (fun c hc => ⟨wfw.has_child hc, fun e => hnew c hc (e ▸ hn),
      fun h => hnew c hc (ho.has_above wf hn h)⟩)
    (fun c hc h => hne (Option.some.inj (((wfw.linked r c).mp hc).symm.trans h)))
  obtain ⟨added, hadded, haddedNew⟩ := ho.children_eq
  refine ⟨g, hrun, hl.wellFormed, hl.size_eq ▸ ho.size_le, ?_, ?_, ?_,
    added ++ w.forest.children r, ?_, ?_⟩
  · intro m hm hmn
    rw [hl.cell_eq hmn (fun h => hnew m h hm), ho.cell_eq m hm hmn]
    intro c hc h
    rw [Forest.children, ho.cell_eq m hm hmn] at hc
    exact hnew c h (wf.has_child hc)
  · rw [hl.name_eq, ho.name_eq]
  · rw [hl.parent_eq, if_neg fun h => hnew n h hn, ho.parent_eq]
  · rw [hg, hadded, List.append_assoc]
  · intro c hc
    rcases List.mem_append.mp hc with hc | hc
    · exact haddedNew c hc
    · exact hnew c hc

theorem settleOn_outgrown {f : Forest} (wf : f.WellFormed) (hold : Hold) {w : World}
    (hu : f.Untouched w.forest) {n : NodeId} (hn : f.Has n) {flow : Flow}
    (hf : ∀ r, flow = .returning r → ¬ f.Has r) :
    (∃ g, (settleOn n flow).result hold w = (.ok (), { w with forest := g }) ∧ f.Outgrown n g) ∨
      ∃ e, (settleOn n flow).result hold w = (.error (.error e), w) := by
  cases flow with
  | normal => exact Or.inl ⟨w.forest, rfl, hu.outgrown hn⟩
  | breaking => exact Or.inr ⟨_, rfl⟩
  | continuing => exact Or.inr ⟨_, rfl⟩
  | returning r =>
    have hr := hf r rfl
    have ho := (hu.outgrown hn).setValue (Or.inr hr) (v := none) (by rintro m ⟨⟩)
    refine Or.inl ?_
    unfold settleOn
    rw [result_bind_ok (result_ask _), result_bind_ok (result_edit _)]
    -- Whether or not there is a value, the children of what was returned come last.
    have hlast : ∀ {g : Forest}, f.Outgrown n g → ∃ k,
        (do forEach (← ask (·.children r)) fun c => insert n none c : Action Unit).result hold
          { w with forest := g } = (.ok (), { w with forest := k }) ∧ f.Outgrown n k := fun hg => by
      rw [result_bind_ok (result_ask _)]
      exact appendChildren_outgrown wf hold (w := { w with forest := _ }) hg hn hr
    dsimp only
    cases hv : w.forest.value r with
    | none => exact hlast ho
    | some v =>
      have hov := ho.setValue (Or.inl rfl) (v := some v) fun k hk => ?_
      · rw [result_bind_ok (result_setValue _ _)]
        exact hlast hov
      · rw [Forest.has_setValue]
        exact hu.wellFormed.held r k (hv.trans hk)

/-! ## Running copies -/

/-- No listener is bound, and no declared event stands in for another. -/
structure World.Quiet (w : World) : Prop where
  bindings : w.session.bindings = []
  base : w.session.currentBase = none

/-- What one target of `eval` comes to. -/
def Isolated (w : World) (n : NodeId) : Except Stop Unit × World → Prop
  | (.ok _, w') => w.forest.Outgrown n w'.forest ∧ w'.Quiet
  | (.error (.error _), w') => w.forest.Untouched w'.forest
  | (.error .stalled, _) => True

section Copies

variable {engine : Engine} (he : engine.Keeping) (hold : Hold) {w : World} (hw : w.Quiet)
  (wf : w.forest.WellFormed) {n : NodeId} (hn : w.forest.Has n)

include he hw wf hn

theorem runCopy_isolated (target : NodeId) :
    Isolated w n ((do
      let body ← copy target
      let flow ← execute engine body 0
      settleOn n flow : Action Unit).result hold w) := by
  have hc := Forest.copied wf target
  let w₁ : World := { w with forest := (w.forest.copy target).2 }
  -- The copy is a plot of its own, and the program works on nothing else.
  let P := Plot.apart wf hc.wellFormed hc.grown
  have hready : P.Ready w₁ :=
    ⟨P.tended_start, hw.bindings, fun call hcall => by cases hw.base.symm.trans hcall⟩
  have hbody : P.Mine w₁.forest.size (w.forest.copy target).1 := ⟨hc.not_has, hc.has⟩
  have hexec := (Plot.Keeps.execute he 0 hbody).fine hold w₁ (List.nil_subset _) hready (Nat.le_refl _)
  have hrun : (copy target).result hold w = (.ok (w.forest.copy target).1, w₁) := rfl
  rw [result_bind_ok hrun, result_bind]
  revert hexec
  match (execute engine (w.forest.copy target).1 0).result hold w₁ with
  | (.ok flow, w₂) =>
    intro hexec
    obtain ⟨hafter, hnew⟩ := hexec
    have hquiet : w₂.Quiet := by
      refine ⟨hafter.bindings.trans hw.bindings, ?_⟩
      rw [Session.currentBase, hafter.bases]
      exact hw.base
    have hsettle := settleOn_outgrown wf hold hafter.tended.untouched hn fun r hr => (hnew r hr).mine.1
    change Isolated w n ((settleOn n flow).result hold w₂)
    rcases hsettle with ⟨g, hrun, hg⟩ | ⟨e, hrun⟩
    · rw [hrun]
      exact ⟨hg, hquiet.bindings, hquiet.base⟩
    · rw [hrun]
      exact hafter.tended.untouched
  | (.error (.error e), w₂) => exact fun hexec => hexec.tended.untouched
  | (.error .stalled, w₂) => exact fun _ => trivial

theorem evalEach_isolated (targets : List NodeId) {outcome : Except Stop Unit} {w' : World}
    (hrun : (evalEach engine n targets).result hold w = (outcome, w')) (hend : outcome ≠ .error .stalled) :
    w.forest.Outgrown n w'.forest ∧
      (targets.length = 1 → outcome ≠ .ok () → w.forest.Untouched w'.forest) := by
  induction targets generalizing w with
  | nil =>
    obtain ⟨rfl, rfl⟩ := Prod.mk.inj hrun
    have hu : w.forest.Untouched w.forest := ⟨wf, Nat.le_refl _, fun _ _ => rfl⟩
    exact ⟨hu.outgrown hn, fun h => by cases h⟩
  | cons target rest ih =>
    have hfirst := runCopy_isolated he (hold.adding (target :: rest)) hw wf hn target
    rw [evalEach, result_bind, result_holding] at hrun
    revert hrun hfirst
    match (do
      let body ← copy target
      let flow ← execute engine body 0
      settleOn n flow : Action Unit).result (hold.adding (target :: rest)) w with
    | (.ok (), w₁) =>
      intro hrun hfirst
      obtain ⟨hrest, -⟩ := ih hfirst.2 hfirst.1.wellFormed (hfirst.1.has hn) hrun
      refine ⟨hfirst.1.trans hrest, fun hlength hne => ?_⟩
      -- After a single target that did well there is nothing left to fail.
      obtain rfl : rest = [] := List.eq_nil_of_length_eq_zero (Nat.succ.inj hlength)
      exact absurd (Prod.mk.inj hrun).1.symm hne
    | (.error (.error e), w₁) =>
      intro hrun hfirst
      obtain ⟨rfl, rfl⟩ := Prod.mk.inj hrun
      exact ⟨hfirst.outgrown hn, fun _ _ => hfirst⟩
    | (.error .stalled, w₁) =>
      intro hrun _
      exact absurd (Prod.mk.inj hrun).1.symm hend

end Copies

/-- Whatever the program is, and however it ends, `eval` in a core context changes no node but its own,
and that one only by a value and by new nodes after its children. A single target that fails changes
nothing at all. All nodes are taken to stay alive, also those of a tree that only the replaced value owned. -/
theorem eval_isolated (m : Machine) (hm : m.IsCore) (patience : Nat) (hold : Hold) (call : Call)
    (w w' : World) (outcome : Except Stop Flow) (wf : w.forest.WellFormed)
    (hn : w.forest.Has call.node) (hw : w.Quiet)
    (hrun : (Keyword.eval (m.engine patience (m.perform patience)) call).result hold w = (outcome, w'))
    (hend : outcome ≠ .error .stalled) :
    w.forest.Outgrown call.node w'.forest ∧
      ((evalTargets (w.forest.seen hold) call.node).length = 1 → (∃ e, outcome = .error e) →
        w'.forest.cell call.node = w.forest.cell call.node) := by
  unfold Keyword.eval at hrun
  rw [result_bind_ok (result_observe _), result_bind] at hrun
  generalize hr : (evalEach _ _ _).result hold w = r at hrun
  obtain ⟨ended, w₁⟩ := r
  have hisolated := evalEach_isolated (hm.keeping patience) hold hw wf hn _ hr
  cases ended with
  | ok _ =>
    obtain ⟨rfl, rfl⟩ := Prod.mk.inj hrun
    refine ⟨(hisolated (by simp)).1, fun _ herr => ?_⟩
    obtain ⟨e, he⟩ := herr
    cases he
  | error stop =>
    obtain ⟨rfl, rfl⟩ := Prod.mk.inj hrun
    have hne : (.error stop : Except Stop Unit) ≠ .error .stalled := fun h => by
      cases h
      exact hend rfl
    obtain ⟨hgrown, hsingle⟩ := hisolated hne
    exact ⟨hgrown, fun hlength _ => (hsingle hlength (by simp)).cell_eq _ hn⟩

/-- A program that takes a box out of the root and gives its own node a name before it returns. -/
def escape : Tree Selector :=
  ⟨"root", none,
    [⟨"box", some (.int 1), []⟩,
      ⟨"eval", none,
        [⟨"set", some (.selector ⟨"/../box?node", [.root, .named "box"], .node⟩), []⟩,
          ⟨"set", some (.selector ⟨"/.?name", [.parent], .name⟩), [⟨"src", some (.string "x"), []⟩]⟩,
          ⟨"return", some (.int 7), [⟨"kept", none, []⟩]⟩]⟩]⟩

theorem eval_isolated_of_escape :
    let w : World := ⟨(Forest.plant escape .empty).2, default, default⟩
    let m : Machine := ⟨.default, coreTable⟩
    let result := (Keyword.eval (m.engine 8 (m.perform 8)) (.plain "eval" ⟨2⟩)).result ⟨[], []⟩ w
    result.1 = .ok .normal ∧ w.forest.Outgrown ⟨2⟩ result.2.forest := by
  intro w m result
  have hok : result.1 = .ok .normal := by decide +kernel
  have wf : w.forest.WellFormed := (Forest.planted escape .empty Forest.wellFormed_empty).wellFormed
  have hisolated := eval_isolated m (Machine.isCore_coreTable _) 8 ⟨[], []⟩ (.plain "eval" ⟨2⟩) w result.2
    result.1 wf (by decide) ⟨rfl, rfl⟩ (Prod.eta _).symm (by rw [hok]; simp)
  exact ⟨hok, hisolated.1⟩

end EventTree
