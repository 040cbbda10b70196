import EventTree.Proofs.Condition.Evaluation

/-!
# Precedence

Main statement: testing a conditional expression gives what the expression means, where `and` binds
tighter than `or` and `not` negates all that stands before it. Operands that cannot change the outcome
are passed over: nothing below them is touched. No marker is left anywhere.
-/

namespace EventTree

open EventTree.Action Keyword

namespace Forest

/-- The conditional nodes of an expression: itself, and those of its operands. -/
def conditionals (f : Forest) : Nat → NodeId → List NodeId
  | 0, _ => []
  | height + 1, n => n :: ((f.statements n).filter fun c => f.name c = "and" ∨ f.name c = "or").flatMap
      (conditionals f height)

theorem Conditional.unmarked {f : Forest} {height : Nat} {n : NodeId} (h : f.Conditional height n) :
    ∀ k ∈ f.conditionals height n, f.Has k ∧ ∀ c ∈ f.children k, f.name c ≠ markerName := by
  induction height generalizing n with
  | zero => exact h.elim
  | succ height ih =>
    intro k hk
    rcases List.mem_cons.mp hk with rfl | hk
    · obtain ⟨v, hv, -⟩ := h.1
      exact ⟨has_of_value hv, h.2.1⟩
    · obtain ⟨c, hc, hk⟩ := List.mem_flatMap.mp hk
      obtain ⟨hstatement, hname⟩ := List.mem_filter.mp hc
      obtain ⟨hchild, hstatement⟩ := List.mem_filter.mp hstatement
      obtain ⟨l, rest, hs⟩ := List.append_of_mem hchild
      have hname : f.name c = "and" ∨ f.name c = "or" := of_decide_eq_true hname
      have hothers : ∀ a ∈ comparisons.map (·.1), a ≠ "and" ∧ a ≠ "or" := by decide
      rcases h.statement hs hstatement with ⟨hcompared, -⟩ | ⟨hnot, -⟩ | ⟨-, hoperand⟩
      · exact absurd hname (not_or.mpr (hothers _ hcompared))
      · simp [hnot] at hname
      · exact ih hoperand k hk

end Forest

/-- Testing a conditional expression gives its meaning. -/
theorem condition_has_meaning {m : Machine} (hm : m.IsCore) {patience height : Nat} {hold : Hold}
    {w : World} {n : NodeId} (wf : w.forest.WellFormed)
    (hname : w.forest.statements n ≠ [] → w.forest.name n ≠ "")
    (hc : w.forest.Conditional height n) (hnested : w.forest.NestedApart (w.forest.Within n) n)
    (hw : PlainOperators w) (hpatience : height ≤ patience)
    (hdepth : w.session.depth + height ≤ m.settings.maxDepth) :
    ∃ g, (evaluateCondition (m.engine patience (m.perform patience)) n).result hold w =
        (.ok ⟨w.forest.meaning height n, (w.forest.children n).length⟩, w.on g) ∧
      g.value n = some (.bool (w.forest.meaning height n)) ∧
      w.forest.Spares (w.forest.passed height n) g ∧
      (∀ k ∈ w.forest.conditionals height n, g.find? k markerName = none) ∧
      ∀ k, w.forest.Has k → g.name k = w.forest.name k ∧ g.parent k = w.forest.parent k ∧
        g.children k = w.forest.children k ∧ (¬ w.forest.Within n k → g.value k = w.forest.value k) := by
  obtain ⟨g, hresult, htested⟩ := tests_of_height hm (w.forest.Within n) height hpatience hdepth hw
    w.forest n hold ⟨wf, hname, hc, fun _ hk => hk, hnested⟩
  have hu := htested.underway
  have hchildren : ∀ k, w.forest.Has k → g.children k = w.forest.children k := by
    intro k hk
    by_cases hkn : k = n
    · rw [hkn, hu.children_eq]
      rfl
    · exact hu.children_ne k hk hkn
  refine ⟨g, hresult, htested.value_eq, htested.spares, fun k hk => ?_, fun k hk =>
    ⟨hu.name_eq k hk, hu.parent_eq k hk, hchildren k hk, hu.value_eq k hk⟩⟩
  obtain ⟨hhas, hunmarked⟩ := hc.unmarked k hk
  rw [Forest.find?, hchildren k hhas, List.find?_eq_none]
  intro c hcmem
  rw [Forest.hasName, hu.name_eq c (wf.has_child hcmem)]
  simpa using hunmarked c hcmem

/-! ## An expression with all operators -/

/-- Two trees are equal, or this and that, not; or one more operand. -/
def debate : Tree Selector :=
  ⟨"if", some (.node ⟨"t", none, []⟩),
    [⟨"=", some (.node ⟨"t", none, []⟩), []⟩, ⟨"_note", none, []⟩,
      ⟨"or", some (.bool false), [⟨"and", some (.bool true), []⟩]⟩, ⟨"and", some (.bool false), []⟩,
      ⟨"not", none, []⟩,
      ⟨"or", some (.string "x"), [⟨"and", some (.bool false), []⟩, ⟨"or", some (.int 1), []⟩]⟩]⟩

namespace Debate

def world : World := ⟨(Forest.plant debate .empty).2, default, default⟩

def machine : Machine := ⟨.default, coreTable⟩

theorem apart {k : NodeId} (hk : k = ⟨1⟩ ∨ k = ⟨3⟩) :
    world.forest.Apart (world.forest.Within ⟨0⟩) k := by
  have hleaf : ∀ k ∈ [(⟨1⟩ : NodeId), ⟨3⟩], k ≠ ⟨0⟩ ∧ world.forest.parent k = none ∧
      world.forest.children k = [] ∧ world.forest.value k = none := by decide +kernel
  obtain ⟨hne, hparent, hchildren, hvalue⟩ := hleaf k (by simpa using hk)
  refine .mk ?_ ?_
  · rintro (h | h)
    · exact hne h
    · obtain ⟨p, hp, -⟩ := Forest.above_iff.mp h
      rw [hparent] at hp
      cases hp
  · rintro c (hc | hc)
    · rw [hchildren] at hc
      cases hc
    · rw [hvalue] at hc
      cases hc

theorem nested : world.forest.NestedApart (world.forest.Within ⟨0⟩) ⟨0⟩ := by
  have hall : ∀ i : Fin 12, ∀ k ∈ (world.forest.value ⟨i⟩).bind Value.asNode?, k = ⟨1⟩ ∨ k = ⟨3⟩ := by
    decide +kernel
  intro m k _ hv
  have hm : m.index < 12 := Forest.has_of_value hv
  refine apart (hall ⟨m.index, hm⟩ k ?_)
  rw [hv]
  rfl

end Debate

theorem condition_has_meaning_of_debate :
    Debate.world.forest.Conditional 3 ⟨0⟩ ∧
      ∃ g, (evaluateCondition (Debate.machine.engine 3 (Debate.machine.perform 3)) ⟨0⟩).result
          (.ofCall ⟨0⟩ ⟨0⟩) Debate.world = (.ok ⟨true, 6⟩, Debate.world.on g) ∧
        g.value ⟨0⟩ = some (.bool true) ∧ g.value ⟨5⟩ = some (.bool true) ∧
        g.value ⟨6⟩ = some (.bool true) ∧ g.value ⟨7⟩ = some (.bool true) ∧
        (∀ k ∈ [(⟨0⟩ : NodeId), ⟨5⟩, ⟨6⟩, ⟨7⟩, ⟨9⟩, ⟨10⟩, ⟨11⟩], g.find? k markerName = none) ∧
        g.children ⟨0⟩ = [⟨2⟩, ⟨4⟩, ⟨5⟩, ⟨7⟩, ⟨8⟩, ⟨9⟩] := by
  refine ⟨by decide +kernel, ?_⟩
  obtain ⟨g, hresult, hvalue, hspares, hfind, hkept⟩ :=
    condition_has_meaning (m := Debate.machine) (Machine.isCore_coreTable _) (Forest.planted debate .empty
      Forest.wellFormed_empty).wellFormed (fun _ => by decide +kernel) (by decide +kernel) Debate.nested
      (fun event _ => World.plain_start _ event) (Nat.le_refl 3) (by decide +kernel)
  have hmeaning : Debate.world.forest.meaning 3 ⟨0⟩ = true := by decide +kernel
  have hpassed : Debate.world.forest.passed 3 ⟨0⟩ = [(⟨5⟩, true), (⟨7⟩, true)] := by decide +kernel
  have hconditionals : Debate.world.forest.conditionals 3 ⟨0⟩ =
      [⟨0⟩, ⟨5⟩, ⟨6⟩, ⟨7⟩, ⟨9⟩, ⟨10⟩, ⟨11⟩] := by decide +kernel
  have hchildren : Debate.world.forest.children ⟨0⟩ = [⟨2⟩, ⟨4⟩, ⟨5⟩, ⟨7⟩, ⟨8⟩, ⟨9⟩] := by decide +kernel
  have hsix : Debate.world.forest.parent ⟨6⟩ = some ⟨5⟩ ∧
      Debate.world.forest.value ⟨6⟩ = some (.bool true) := by decide +kernel
  rw [hmeaning, hchildren] at hresult
  rw [hmeaning] at hvalue
  rw [hpassed] at hspares
  rw [hconditionals] at hfind
  obtain ⟨hfive, hbelow⟩ := hspares _ List.mem_cons_self
  obtain ⟨hseven, -⟩ := hspares _ (List.mem_cons_of_mem _ List.mem_cons_self)
  refine ⟨g, hresult, hvalue, hfive, ?_, hseven, hfind, ?_⟩
  · rw [hbelow ⟨6⟩ (Forest.above_of_parent hsix.1), hsix.2]
  · rw [(hkept ⟨0⟩ (Forest.has_of_mem_children (c := ⟨2⟩) (by simp [hchildren]))).2.2.1, hchildren]

/-! ## Where a test does not give the meaning -/

/-- A constant or another. -/
def either (name : String) (left right : Bool) : Forest :=
  (Forest.plant ⟨name, some (.bool left), [⟨"or", some (.bool right), []⟩]⟩ .empty).2

/-- A node without a name cannot be tested with operators; an operand that is passed over does not keep
its own value; and an `or` that is overridden by `and` is one. -/
theorem either_without_meaning :
    let m : Machine := ⟨.default, coreTable⟩
    let test := fun f overrides =>
      (evaluateCondition (m.engine 8 (m.perform 8)) ⟨0⟩).result (.ofCall ⟨0⟩ ⟨0⟩)
        ⟨f, default, .start overrides⟩
    (either "" false true).meaning 2 ⟨0⟩ = true ∧
      (test (either "" false true) .empty).1 =
        .error (.error ((Error.ofCause (.noConditional "or")).crossing "or")) ∧
      (either "if" true false).passed 2 ⟨0⟩ = [(⟨1⟩, true)] ∧
      (either "if" true false).value ⟨1⟩ = some (.bool false) ∧
      (test (either "if" true false) .empty).2.forest.value ⟨1⟩ = some (.bool true) ∧
      (either "if" false true).meaning 2 ⟨0⟩ = true ∧
      (test (either "if" false true) (OverrideGraph.empty.push "or" "and")).1 = .ok ⟨false, 1⟩ := by
  decide +kernel

end EventTree
