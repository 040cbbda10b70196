import EventTree.Proofs.Condition.Offset

/-!
# Equations as conditions

The condition of a node may be that its value is equal to a constant: an operator `=` with that constant,
and no other operator before the body. A test of such a condition succeeds, and its outcome is whether the
two values are equal.
-/

namespace EventTree

open EventTree.Action Keyword

/-! ## Constants -/

namespace Forest

variable {f g : Forest}

/-- The value of a node, with nested trees written out. -/
def shown (f : Forest) (n : NodeId) : Option (Value Snapshot String) := (f.value n).map f.snapshotValue

/-- A nested tree in the value of the node is finite and apart from `inside`. -/
def ValueApart (f : Forest) (inside : NodeId → Prop) (n : NodeId) : Prop :=
  ∀ k, f.value n = some (.node k) → f.Apart inside k

theorem shown_congr {n n' : NodeId} (hvalue : g.value n' = f.value n)
    (hnode : ∀ k, f.value n = some (.node k) → g.snapshot k = f.snapshot k) : g.shown n' = f.shown n := by
  rw [shown, hvalue, shown]
  exact map_snapshotValue_congr hnode

theorem not_node_of_nodes {n k : NodeId} (h : Value.nodes [f.value n] = []) : f.value n ≠ some (.node k) := by
  intro hk
  rw [hk] at h
  cases h

section ValueApart

variable {inside : NodeId → Prop} {n : NodeId} (h : f.ValueApart inside n) (wf : f.WellFormed)
  (hvalue : g.value n = f.value n) (hcells : ∀ k, f.Has k → ¬ inside k → g.cell k = f.cell k)

include h wf hvalue hcells

theorem ValueApart.shown_eq (hsize : f.size ≤ g.size) : g.shown n = f.shown n :=
  shown_congr hvalue fun k hk => (h k hk).snapshot_eq wf (wf.held n k hk) hcells hsize

theorem ValueApart.unchanged : g.ValueApart inside n := fun k hk =>
  (h k (hvalue ▸ hk)).unchanged wf (wf.held n k (hvalue ▸ hk)) hcells

end ValueApart

/-- Whether two nodes have equal values. -/
def equates (f : Forest) (n c : NodeId) : Bool := (f.compareValues (f.value n) (f.value c)).isEq

theorem equates_congr {n c n' c' : NodeId} (hn : g.shown n' = f.shown n) (hc : g.shown c' = f.shown c) :
    g.equates n' c' = f.equates n c := by
  have hcompare : g.compareValues (g.value n') (g.value c') = f.compareValues (f.value n) (f.value c) := by
    rw [compareValues_eq, compareValues_eq]
    exact congrArg₂ Tree.compareValues hn hc
  rw [equates, hcompare, equates]

end Forest

/-! ## Equations -/

namespace Forest

variable {f g : Forest} {inside : NodeId → Prop} {n x : NodeId}

/-- The condition of `n` is that its value is equal to that of `x`. -/
structure Equation (f : Forest) (inside : NodeId → Prop) (n x : NodeId) : Prop where
  left : f.Constant n
  conditions : (f.lead n).filter f.isStatement = [x]
  name : f.name x = "="
  right : f.Constant x
  unmarked : ∀ k ∈ f.children n, f.name k ≠ markerName
  left_apart : f.ValueApart inside n
  right_apart : f.ValueApart inside x

theorem Constant.hasValue {n : NodeId} (h : f.Constant n) : f.hasValue n = true := by
  obtain ⟨v, hv, -⟩ := h
  rw [Forest.hasValue, hv]
  rfl

namespace Equation

variable (h : f.Equation inside n x)

include h

theorem mem_children : x ∈ f.children n := by
  have hmem : x ∈ (f.lead n).filter f.isStatement := by simp [h.conditions]
  exact (List.takeWhile_sublist _).subset (List.mem_of_mem_filter hmem)

theorem conditionsOf_eq : f.conditionsOf operators n = .ok ([x], (f.lead n).length) := by
  rw [conditionsOf_of_hasValue h.left.hasValue, h.conditions]

theorem raisesOperators : f.RaisesOperators n := by
  have hoperator : "=" ∈ operators := by decide
  refine .mk (fun _ _ hconditions c hc => ?_) fun _ _ hconditions c hc hlogic => ?_
  · cases h.conditionsOf_eq.symm.trans hconditions
    rw [List.mem_singleton.mp hc, h.name]
    exact hoperator
  · cases h.conditionsOf_eq.symm.trans hconditions
    rw [List.mem_singleton.mp hc, h.name] at hlogic
    exact absurd hlogic (by decide)

variable (wf : f.WellFormed)

include wf

theorem parent_eq : f.parent x = some n := (wf.linked n x).mp h.mem_children

section Unchanged

variable (hsame : ∀ k, f.Within n k → g.cell k = f.cell k)
  (hcells : ∀ k, f.Has k → ¬ inside k → g.cell k = f.cell k)

include hsame

theorem values_same : g.value n = f.value n ∧ g.value x = f.value x :=
  ⟨congrArg Cell.value (hsame n (.inl rfl)),
    congrArg Cell.value (hsame x (.inr (above_of_parent (h.parent_eq wf))))⟩

omit h in
theorem names_same : ∀ c ∈ f.children n, g.name c = f.name c := fun c hc =>
  congrArg Cell.name (hsame c (.inr (above_of_parent ((wf.linked n c).mp hc))))

theorem lead_same : (g.lead n).filter g.isStatement = [x] ∧ (g.lead n).length = (f.lead n).length := by
  have hvalue : g.hasValue n = true := (h.left.congr (h.values_same wf hsame).1).hasValue
  have hconditions := conditionsOf_congr (hsame n (.inl rfl)) (names_same wf hsame) operators
  rw [conditionsOf_of_hasValue hvalue, h.conditionsOf_eq] at hconditions
  exact Prod.mk.inj (Except.ok.inj hconditions)

include hcells

theorem unchanged : g.Equation inside n x := by
  obtain ⟨hleft, hright⟩ := h.values_same wf hsame
  have hname := names_same wf hsame
  refine ⟨h.left.congr hleft, (h.lead_same wf hsame).1, ?_, h.right.congr hright, fun k hk => ?_,
    h.left_apart.unchanged wf hleft hcells, h.right_apart.unchanged wf hright hcells⟩
  · rw [hname x h.mem_children, h.name]
  · rw [children, hsame n (.inl rfl)] at hk
    rw [hname k hk]
    exact h.unmarked k hk

theorem equates_same (hsize : f.size ≤ g.size) : g.equates n x = f.equates n x := by
  obtain ⟨hleft, hright⟩ := h.values_same wf hsame
  exact equates_congr (h.left_apart.shown_eq wf hleft hcells hsize)
    (h.right_apart.shown_eq wf hright hcells hsize)

end Unchanged

end Equation

end Forest

namespace Forest.Equation

variable {f : Forest} {inside : NodeId → Prop} {n x : NodeId} (h : f.Equation inside n x)
  (wf : f.WellFormed) (hname : f.name n ≠ "") {m : Machine} (hm : m.IsCore) {w : World}
  (hw : PlainOperators w) (hdepth : w.session.depth < m.settings.maxDepth) (patience : Nat)

include h wf hname hm hw hdepth

theorem result_runCondition {hold : Hold} (hheld : n ∈ hold.held) :
    (runCondition (m.engine (patience + 1) (m.perform (patience + 1))) n x).result hold (w.on f) =
      (.ok (), w.on ((f.setValue x (some (.bool (f.equates n x)))).setValue n
        (some (.bool (f.equates n x))))) := by
  have hoperator : "=" ∈ operatorsEvent :: operators := by decide
  have hheld' : n ∈ (hold.adding [x]).held := List.mem_cons_of_mem _ hheld
  have hcompared := result_compared wf (h.parent_eq wf) hname h.left h.right hheld' w.deeper
    (m.engine patience (m.perform patience)) "=" (·.isEq)
  have hraise : ((m.engine (patience + 1) (m.perform (patience + 1))).raiseFlow "=" x).result hold (w.on f) =
      (.ok .normal, w.on (f.setValue x (some (.bool (f.equates n x))))) :=
    Machine.result_raiseKeyword hm rfl (by decide) (hw.on f _ hoperator) hdepth hcompared
      (hw.deeper.on _ _ hoperator)
  have hvalue : (f.setValue x (some (.bool (f.equates n x)))).value x = some (.bool (f.equates n x)) := by
    rw [value_setValue (has_of_parent (h.parent_eq wf)), if_pos rfl]
  rw [runCondition, result_bind_ok (result_ask _), World.forest_on, h.name,
    result_bind_ok (result_raise_normal hraise), result_bind_ok (result_ask _), World.forest_on, hvalue]
  rfl

theorem result_testNode {hold : Hold} (hheld : n ∈ hold.held) :
    ∃ g, (testNode (m.engine (patience + 1) (m.perform (patience + 1))) n).result hold (w.on f) =
        (.ok ⟨f.equates n x, (f.lead n).length⟩, w.on g) ∧ f.Underway n none g := by
  have hparent := h.parent_eq wf
  have hn := wf.has_parent hparent
  obtain ⟨g₀, hnames, hgrown, hwf⟩ := operatorNames_grows hm hw hdepth wf patience hold
  -- The names are asked for at a new node, so the equation is still the same.
  have hsame : ∀ k, f.Within n k → g₀.cell k = f.cell k := fun k hk => hgrown.cell_eq k (hk.has hn)
  have hcells : ∀ k, f.Has k → ¬ inside k → g₀.cell k = f.cell k := fun k hk _ => hgrown.cell_eq k hk
  have h₀ := h.unchanged wf hsame hcells
  have hconditions : (ask (·.conditionsOf operators n)).result hold (w.on g₀) =
      (.ok (.ok ([x], (f.lead n).length)), w.on g₀) := by
    rw [result_ask, World.forest_on, h₀.conditionsOf_eq, (h.lead_same wf hsame).2]
  have hrun := h₀.result_runCondition hwf (by rwa [hgrown.name_eq hn]) hm hw hdepth patience hheld
  rw [h.equates_same wf hsame hcells hgrown.size_le] at hrun
  -- Only the operator and the node have other values by now.
  have hu : f.Underway n none ((g₀.setValue x (some (.bool (f.equates n x)))).setValue n
      (some (.bool (f.equates n x)))) :=
    (((Underway.refl wf).grown hgrown hwf hn).setValue (.inl (.inr (above_of_parent hparent))) _).setValue
      (.inl (.inl rfl)) _
  have hvalue : ((g₀.setValue x (some (.bool (f.equates n x)))).setValue n
      (some (.bool (f.equates n x)))).value n = some (.bool (f.equates n x)) := by
    rw [value_setValue (by simpa [Has] using hgrown.has hn), if_pos rfl]
  generalize (g₀.setValue x (some (.bool (f.equates n x)))).setValue n
    (some (.bool (f.equates n x))) = g₁ at hrun hu hvalue
  have hloop : (forEach [x] (runCondition (m.engine (patience + 1) (m.perform (patience + 1))) n)).result
      hold (w.on g₀) = (.ok (), w.on g₁) := by
    rw [forEach, result_bind_ok hrun]
    rfl
  refine ⟨g₁.setValue n (some (.bool (f.equates n x))), ?_, hu.setValue (.inl (.inl rfl)) _⟩
  rw [testNode, result_bind_ok hnames, result_bind_ok hconditions, result_bind_ok (result_ofExcept_ok _)]
  dsimp only
  rw [result_bind_ok hloop, result_bind_ok (result_observe _), World.forest_on, List.isEmpty_cons,
    if_neg (by simp), (seen_pruned hu.wellFormed _).value_eq, hvalue]
  exact result_bind_ok (result_setValue_on _ _ _)

theorem result_evaluateCondition (hold : Hold) :
    ∃ g, (evaluateCondition (m.engine (patience + 1) (m.perform (patience + 1))) n).result hold (w.on f) =
      (.ok ⟨f.equates n x, (f.lead n).length⟩, w.on g) := by
  have hheld : n ∈ (hold.adding [n]).held := List.mem_cons_self
  obtain ⟨g, htest, hu⟩ := h.result_testNode wf hname hm hw hdepth patience hheld
  obtain ⟨g', hclear, -⟩ := clearMarkers_underway hu h.unmarked wf (hold.adding [n]) w hheld
  exact ⟨g', Keyword.result_evaluateCondition htest hclear⟩

end Forest.Equation

end EventTree
