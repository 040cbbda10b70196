import EventTree.Proofs.Balance
import EventTree.Proofs.Forest.Siblings
import EventTree.Proofs.Raising

/-!
# Sequences that lose children

A sequence visits the children of its scope one after the other, and raises those that are statements.
Main statement: while statements take children away, the others are visited in order and once, except
after a statement that took away itself and children before it. The sequence goes on at the position that
the statement had, and some that stood behind it have moved before that position.
-/

namespace EventTree

open EventTree.Action Keyword

/-! ## Visits -/

/-- A child that a sequence came to, its position then, and the worlds before and after. -/
structure Visit where
  node : NodeId
  position : Nat
  start : World
  left : World

namespace Visit

/-- A child that was a statement was raised. -/
def isRaise (v : Visit) : Bool := v.start.forest.isStatement v.node

variable (scope : NodeId) (v : Visit)

/-- The children before it. -/
def before : List NodeId := (v.start.forest.children scope).take v.position

/-- The children behind it. -/
def behind : List NodeId := (v.start.forest.children scope).drop (v.position + 1)

/-- The children that are not visited because of this visit. If the child is gone, then as many as were
taken away before it are passed over, of those behind it that are left. -/
def passedOver : List NodeId :=
  if v.node ∈ v.left.forest.children scope then []
  else
    ((v.behind scope).filter (· ∈ v.left.forest.children scope)).take
      ((v.before scope).countP (· ∉ v.left.forest.children scope))

/-- All that was done to the children of the scope is that some were taken away. -/
structure Removes : Prop where
  wellFormed : v.left.forest.WellFormed
  sublist : (v.left.forest.children scope).Sublist (v.start.forest.children scope)

end Visit

/-- The nodes that were raised. -/
def raisedNodes (visits : List Visit) : List NodeId := (visits.filter (·.isRaise)).map (·.node)

/-- The visits from a position on until there is no further child. Every statement ended normally. -/
inductive Visited (engine : Engine) (hold : Hold) (scope : NodeId) :
    Nat → World → List Visit → World → Prop
  | done {position : Nat} {w : World} :
      w.forest.child? scope position = none → Visited engine hold scope position w [] w
  | data {position : Nat} {w w' : World} {n : NodeId} {visits : List Visit} :
      w.forest.child? scope position = some n → w.forest.isStatement n = false →
      Visited engine hold scope (w.forest.positionAfter scope n position) w visits w' →
      Visited engine hold scope position w (⟨n, position, w, w⟩ :: visits) w'
  | raised {position : Nat} {w w₁ w' : World} {n : NodeId} {visits : List Visit} :
      w.forest.child? scope position = some n → w.forest.isStatement n = true →
      (engine.raiseFlow (w.forest.name n) n).result hold w = (.ok .normal, w₁) →
      Visited engine hold scope (w₁.forest.positionAfter scope n position) w₁ visits w' →
      Visited engine hold scope position w (⟨n, position, w, w₁⟩ :: visits) w'

namespace Keyword

/-! ## Execution -/

section Execution

variable {engine : Engine} {hold : Hold} {scope : NodeId}

theorem executeFrom_of_no_child {w : World} {position : Nat} (fuel : Nat)
    (h : w.forest.child? scope position = none) :
    (executeFrom engine scope (fuel + 1) position).result hold w = (.ok .normal, w) := by
  rw [executeFrom, result_bind_ok (result_ask _), h]
  rfl

theorem executeFrom_of_child {w : World} {position : Nat} {n : NodeId} (fuel : Nat)
    (h : w.forest.child? scope position = some n) :
    (executeFrom engine scope (fuel + 1) position).result hold w =
      (andThen (runStatement engine n) do
        let next ← ask (·.positionAfter scope n position)
        executeFrom engine scope fuel next).result hold w := by
  rw [executeFrom, result_bind_ok (result_ask _), h]

theorem executeFrom_of_run {w w₁ : World} {position : Nat} {n : NodeId} (fuel : Nat)
    (h : w.forest.child? scope position = some n)
    (hrun : (runStatement engine n).result hold w = (.ok .normal, w₁)) :
    (executeFrom engine scope (fuel + 1) position).result hold w =
      (executeFrom engine scope fuel (w₁.forest.positionAfter scope n position)).result hold w₁ := by
  rw [executeFrom_of_child fuel h, result_andThen_normal hrun, result_bind_ok (result_ask _)]

theorem result_runStatement_data {w : World} {n : NodeId} (h : w.forest.isStatement n = false) :
    (runStatement engine n).result hold w = (.ok .normal, w) := by
  have hdata : isDataName (w.forest.name n) = true := by simpa [Forest.isStatement] using h
  rw [runStatement, result_bind_ok (result_ask _), hdata]
  rfl

theorem result_runStatement_statement {w : World} {n : NodeId} (h : w.forest.isStatement n = true) :
    (runStatement engine n).result hold w = (engine.raiseFlow (w.forest.name n) n).result hold w :=
  result_runStatement rfl (by simpa [Forest.isStatement] using h)

theorem visited_of_child {w w' : World} {position : Nat} {n : NodeId} {visits : List Visit}
    (h : w.forest.child? scope position = some n) :
    Visited engine hold scope position w visits w' ↔
      ∃ w₁ rest, visits = ⟨n, position, w, w₁⟩ :: rest ∧
        (runStatement engine n).result hold w = (.ok .normal, w₁) ∧
        Visited engine hold scope (w₁.forest.positionAfter scope n position) w₁ rest w' := by
  constructor
  · intro hvisited
    cases hvisited with
    | done hnone =>
      rw [h] at hnone
      cases hnone
    | data hchild hdata hrest =>
      cases h.symm.trans hchild
      exact ⟨w, _, rfl, result_runStatement_data hdata, hrest⟩
    | raised hchild hstatement hraise hrest =>
      cases h.symm.trans hchild
      exact ⟨_, _, rfl, (result_runStatement_statement hstatement).trans hraise, hrest⟩
  · rintro ⟨w₁, rest, rfl, hrun, hrest⟩
    cases hstatement : w.forest.isStatement n with
    | true =>
      rw [result_runStatement_statement hstatement] at hrun
      exact .raised h hstatement hrun hrest
    | false =>
      rw [result_runStatement_data hstatement] at hrun
      cases hrun
      exact .data h hstatement hrest

/-- A sequence ends normally exactly if its visits do, and there is patience for them all. -/
theorem executeFrom_normal_iff {fuel position : Nat} {w w' : World} :
    (executeFrom engine scope fuel position).result hold w = (.ok .normal, w') ↔
      ∃ visits, Visited engine hold scope position w visits w' ∧ visits.length < fuel := by
  induction fuel generalizing position w with
  | zero =>
    constructor
    · intro h
      cases h
    · rintro ⟨visits, -, hlength⟩
      cases hlength
  | succ fuel ih =>
    cases hchild : w.forest.child? scope position with
    | none =>
      rw [executeFrom_of_no_child fuel hchild]
      constructor
      · intro h
        cases h
        exact ⟨[], .done hchild, Nat.succ_pos fuel⟩
      · rintro ⟨visits, hvisited, -⟩
        cases hvisited with
        | done => rfl
        | data h | raised h => rw [hchild] at h; cases h
    | some n =>
      constructor
      · intro h
        by_cases hnormal : ((runStatement engine n).result hold w).1 = .ok .normal
        · have hrun : (runStatement engine n).result hold w =
              (.ok .normal, ((runStatement engine n).result hold w).2) := Prod.ext hnormal rfl
          rw [executeFrom_of_run fuel hchild hrun] at h
          obtain ⟨rest, hrest, hlength⟩ := ih.mp h
          exact ⟨_, (visited_of_child hchild).mpr ⟨_, rest, rfl, hrun, hrest⟩, Nat.succ_lt_succ hlength⟩
        · rw [executeFrom_of_child fuel hchild, result_andThen_of_not_normal hnormal] at h
          rw [h] at hnormal
          exact absurd rfl hnormal
      · rintro ⟨visits, hvisited, hlength⟩
        obtain ⟨w₁, rest, rfl, hrun, hrest⟩ := (visited_of_child hchild).mp hvisited
        rw [executeFrom_of_run fuel hchild hrun]
        exact ih.mpr ⟨rest, hrest, Nat.lt_of_succ_lt_succ hlength⟩

end Execution

end Keyword

/-! ## One visit -/

theorem filter_mem_of_sublist {α : Type} [DecidableEq α] {l left : List α} (h : left.Sublist l)
    (hnodup : l.Nodup) : l.filter (· ∈ left) = left := by
  induction h with
  | slnil => rfl
  | cons a h ih =>
    obtain ⟨ha, hnodup⟩ := List.nodup_cons.mp hnodup
    rw [List.filter_cons_of_neg (by simpa using fun hm => ha (h.subset hm)), ih hnodup]
  | cons_cons a h ih =>
    rename_i left l
    obtain ⟨ha, hnodup⟩ := List.nodup_cons.mp hnodup
    have hsame : l.filter (· ∈ a :: left) = l.filter (· ∈ left) := by
      refine List.filter_congr fun x hx => ?_
      have hne : x ≠ a := fun hxa => ha (hxa ▸ hx)
      simp [hne]
    rw [List.filter_cons_of_pos (by simp), hsame, ih hnodup]

namespace Visit

variable {scope : NodeId} {v : Visit} (hchild : v.start.forest.child? scope v.position = some v.node)

include hchild

theorem drop_position : (v.start.forest.children scope).drop v.position = v.node :: v.behind scope := by
  obtain ⟨hlt, hnode⟩ := List.getElem?_eq_some_iff.mp hchild
  rw [behind, ← hnode, ← List.drop_eq_getElem_cons hlt]

theorem children_start :
    v.start.forest.children scope = v.before scope ++ v.node :: v.behind scope := by
  rw [before, ← drop_position hchild, List.take_append_drop]

theorem length_before : (v.before scope).length = v.position := by
  obtain ⟨hlt, -⟩ := List.getElem?_eq_some_iff.mp hchild
  exact List.length_take_of_le (Nat.le_of_lt hlt)

variable (wf : v.start.forest.WellFormed) (h : v.Removes scope)

include wf h

theorem passedOver_append_drop :
    v.passedOver scope ++ (v.left.forest.children scope).drop
        (v.left.forest.positionAfter scope v.node v.position) =
      (v.behind scope).filter (· ∈ v.left.forest.children scope) := by
  have hleft := filter_mem_of_sublist h.sublist (wf.nodup scope)
  rw [children_start hchild, List.filter_append, List.filter_cons] at hleft
  -- Those before it are left or gone.
  have hcount : v.position = ((v.before scope).filter (· ∈ v.left.forest.children scope)).length +
      (v.before scope).countP (· ∉ v.left.forest.children scope) := by
    have hall := List.length_eq_countP_add_countP (l := v.before scope) (· ∈ v.left.forest.children scope)
    rw [length_before hchild, List.countP_eq_length_filter] at hall
    simpa using hall
  unfold passedOver
  generalize (v.before scope).filter (· ∈ v.left.forest.children scope) = early at hleft hcount
  generalize (v.behind scope).filter (· ∈ v.left.forest.children scope) = late at hleft ⊢
  by_cases hnode : v.node ∈ v.left.forest.children scope
  · rw [if_pos (decide_eq_true hnode)] at hleft
    rw [if_pos hnode, h.wellFormed.positionAfter_of_split hleft.symm, ← hleft]
    simp
  · -- The child is gone, so its position is kept, where a later one may stand now.
    have hposition : v.left.forest.positionAfter scope v.node v.position = v.position := by
      rw [Forest.positionAfter, if_neg fun hp => hnode ((h.wellFormed.linked scope v.node).mpr hp)]
    rw [if_neg (by simpa using hnode)] at hleft
    rw [if_neg hnode, hposition, hcount]
    generalize (v.before scope).countP (· ∉ v.left.forest.children scope) = gone
    rw [← hleft, List.drop_append, List.drop_eq_nil_of_le (Nat.le_add_right _ _), List.nil_append,
      Nat.add_sub_cancel_left, List.take_append_drop]

end Visit

/-! ## All visits -/

/-- The children from a position on, and what becomes of them. -/
structure Accounted (scope : NodeId) (rest : List NodeId) (visits : List Visit) (w' : World) : Prop where
  order : (visits.map (·.node)).Sublist rest
  passed : ∀ v ∈ visits, v.passedOver scope ⊆ rest
  reached : ∀ c ∈ rest, c ∈ w'.forest.children scope →
    c ∈ visits.map (·.node) ∨ ∃ v ∈ visits, c ∈ v.passedOver scope
  skipped : ∀ v ∈ visits, ∀ c ∈ v.passedOver scope, c ∉ visits.map (·.node)

theorem Accounted.cons {scope : NodeId} {v : Visit} {visits : List Visit} {w' : World}
    (hchild : v.start.forest.child? scope v.position = some v.node) (wf : v.start.forest.WellFormed)
    (h : v.Removes scope) (hleft : w'.forest.children scope ⊆ v.left.forest.children scope)
    (ha : Accounted scope ((v.left.forest.children scope).drop
      (v.left.forest.positionAfter scope v.node v.position)) visits w') :
    Accounted scope ((v.start.forest.children scope).drop v.position) (v :: visits) w' := by
  have hsplit := v.passedOver_append_drop hchild wf h
  have hbehind : ((v.behind scope).filter (· ∈ v.left.forest.children scope)).Sublist (v.behind scope) :=
    List.filter_sublist
  rw [← hsplit] at hbehind
  have hpassed := (List.sublist_append_left _ _).trans hbehind
  have hrest := (List.sublist_append_right _ _).trans hbehind
  have hnodup := wf.nodup scope
  rw [v.children_start hchild, List.nodup_append] at hnodup
  obtain ⟨hnode, hdistinct⟩ := List.nodup_cons.mp hnodup.2.1
  -- Who is passed over is not among those still to come, since no child stands twice.
  have hapart := List.nodup_append.mp (hdistinct.sublist hbehind)
  rw [v.drop_position hchild]
  constructor
  case order => exact (ha.order.trans hrest).cons_cons _
  case passed =>
    intro u hu c hc
    rcases List.mem_cons.mp hu with rfl | hu
    · exact List.mem_cons_of_mem _ (hpassed.subset hc)
    · exact List.mem_cons_of_mem _ (hrest.subset (ha.passed u hu hc))
  case reached =>
    intro c hc hfinal
    rcases List.mem_cons.mp hc with rfl | hc
    · exact .inl List.mem_cons_self
    · have hkept : c ∈ (v.behind scope).filter (· ∈ v.left.forest.children scope) :=
        List.mem_filter.mpr ⟨hc, decide_eq_true (hleft hfinal)⟩
      rw [← hsplit, List.mem_append] at hkept
      rcases hkept with hkept | hkept
      · exact .inr ⟨v, List.mem_cons_self, hkept⟩
      · rcases ha.reached c hkept hfinal with hvisited | ⟨u, hu, hover⟩
        · exact .inl (List.mem_cons_of_mem _ hvisited)
        · exact .inr ⟨u, List.mem_cons_of_mem _ hu, hover⟩
  case skipped =>
    intro u hu c hc hvisited
    rcases List.mem_cons.mp hu with rfl | hu
    · rcases List.mem_cons.mp hvisited with rfl | hvisited
      · exact hnode (hpassed.subset hc)
      · exact hapart.2.2 c hc c (ha.order.subset hvisited) rfl
    · rcases List.mem_cons.mp hvisited with rfl | hvisited
      · exact hnode (hrest.subset (ha.passed u hu hc))
      · exact ha.skipped u hu c hc hvisited

theorem Visited.accounted {engine : Engine} {hold : Hold} {scope : NodeId} {position : Nat}
    {w w' : World} {visits : List Visit} (h : Visited engine hold scope position w visits w')
    (wf : w.forest.WellFormed) (hremoves : ∀ v ∈ visits, v.Removes scope) :
    (w'.forest.children scope).Sublist (w.forest.children scope) ∧
      Accounted scope ((w.forest.children scope).drop position) visits w' := by
  induction h with
  | done hnone =>
    rw [List.drop_eq_nil_of_le (List.getElem?_eq_none_iff.mp hnone)]
    exact ⟨List.Sublist.refl _, ⟨List.Sublist.refl _, by simp, by simp, by simp⟩⟩
  | data hchild hdata hrest ih =>
    obtain ⟨hv, hremoves⟩ := List.forall_mem_cons.mp hremoves
    obtain ⟨hsublist, haccounted⟩ := ih hv.wellFormed hremoves
    exact ⟨hsublist.trans hv.sublist, .cons hchild wf hv hsublist.subset haccounted⟩
  | raised hchild hstatement hraise hrest ih =>
    obtain ⟨hv, hremoves⟩ := List.forall_mem_cons.mp hremoves
    obtain ⟨hsublist, haccounted⟩ := ih hv.wellFormed hremoves
    exact ⟨hsublist.trans hv.sublist, .cons hchild wf hv hsublist.subset haccounted⟩

theorem raisedNodes_sublist (visits : List Visit) :
    (raisedNodes visits).Sublist (visits.map (·.node)) := List.filter_sublist.map _

/-- Nothing is passed over unless a statement took away itself and a child before it. -/
theorem Visit.removed_of_passedOver {scope : NodeId} {v : Visit} (h : v.passedOver scope ≠ []) :
    v.node ∉ v.left.forest.children scope ∧
      ∃ c ∈ v.before scope, c ∉ v.left.forest.children scope := by
  unfold passedOver at h
  split at h
  · exact absurd rfl h
  · rename_i hnode
    have hcount : (v.before scope).countP (· ∉ v.left.forest.children scope) ≠ 0 := by
      intro hzero
      rw [hzero] at h
      exact h rfl
    obtain ⟨c, hc, hgone⟩ := List.countP_pos_iff.mp (Nat.pos_of_ne_zero hcount)
    exact ⟨hnode, c, hc, of_decide_eq_true hgone⟩

/-- The visits of a sequence whose statements take children away: no child is raised twice, the order is
that of the children, and who is left was visited or passed over. -/
theorem sequence_raises_statements (engine : Engine) (hold : Hold) (scope : NodeId) (w w' : World) :
    ((execute engine scope 0).result hold w = (.ok .normal, w') ↔
      ∃ visits, Visited engine (hold.adding [scope]) scope 0 w visits w' ∧
        visits.length < engine.patience) ∧
    ∀ visits, Visited engine (hold.adding [scope]) scope 0 w visits w' → w.forest.WellFormed →
      (∀ v ∈ visits, v.Removes scope) →
      visits.length ≤ (w.forest.children scope).length ∧
      (raisedNodes visits).Sublist (w.forest.children scope) ∧
      (∀ c ∈ w'.forest.children scope, (∀ v ∈ visits, c ∉ v.passedOver scope) →
        ∃ v ∈ visits, v.node = c ∧ (v.start.forest.isStatement c → (raisedNodes visits).count c = 1)) ∧
      (∀ v ∈ visits, ∀ c ∈ v.passedOver scope, c ∉ raisedNodes visits) ∧
      ∀ v ∈ visits, v.passedOver scope ≠ [] → v.node ∉ v.left.forest.children scope ∧
        ∃ c ∈ v.before scope, c ∉ v.left.forest.children scope := by
  refine ⟨?_, fun visits hvisited wf hremoves => ?_⟩
  · rw [execute, result_holding]
    exact executeFrom_normal_iff
  · obtain ⟨hsublist, haccounted⟩ := hvisited.accounted wf hremoves
    rw [List.drop_zero] at haccounted
    have hlength := haccounted.order.length_le
    rw [List.length_map] at hlength
    have horder := (raisedNodes_sublist visits).trans haccounted.order
    refine ⟨hlength, horder, fun c hc hkept => ?_, fun v hv c hc hraised => ?_,
      fun v _ => v.removed_of_passedOver⟩
    · obtain hvisited | ⟨v, hv, hover⟩ := haccounted.reached c (hsublist.subset hc) hc
      · obtain ⟨v, hv, rfl⟩ := List.mem_map.mp hvisited
        refine ⟨v, hv, rfl, fun hstatement => ?_⟩
        have hraised : v.node ∈ raisedNodes visits :=
          List.mem_map.mpr ⟨v, List.mem_filter.mpr ⟨hv, hstatement⟩, rfl⟩
        exact List.count_eq_one_of_mem ((wf.nodup scope).sublist horder) hraised
      · exact absurd hover (hkept v hv)
    · exact haccounted.skipped v hv c hc ((raisedNodes_sublist visits).subset hraised)

/-- A statement that takes away itself and the next, and a statement after them. -/
def pruning : Tree Selector :=
  ⟨"root", none,
    [⟨"_out", some (.int 0), []⟩,
      ⟨"set", some (.selector ⟨"/./*/[1,3]", [.parent, .children, .range 1 3], .node⟩), []⟩,
      ⟨"throw", none, []⟩,
      ⟨"set", some (.selector ⟨"/../_out?value", [.root, .named "_out"], .value⟩),
        [⟨"src", some (.int 1), []⟩]⟩]⟩

namespace Pruning

def engine : Engine :=
  let m : Machine := ⟨.default, coreTable⟩
  m.engine 8 (m.perform 8)

def hold : Hold := .ofCall ⟨0⟩ ⟨0⟩

def start : World := ⟨(Forest.plant pruning .empty).2, default, default⟩

def pruned : World := ((engine.raiseFlow "set" ⟨2⟩).result (hold.adding [⟨0⟩]) start).2

def last : World := ((engine.raiseFlow "set" ⟨4⟩).result (hold.adding [⟨0⟩]) pruned).2

def visits : List Visit :=
  [⟨⟨1⟩, 0, start, start⟩, ⟨⟨2⟩, 1, start, pruned⟩, ⟨⟨4⟩, 1, pruned, last⟩]

-- All that is read off the runs is decided at once, so that each of them is evaluated once.
theorem runs :
    (((engine.raiseFlow "set" ⟨2⟩).result (hold.adding [⟨0⟩]) start).1 = .ok .normal ∧
      ((engine.raiseFlow "set" ⟨4⟩).result (hold.adding [⟨0⟩]) pruned).1 = .ok .normal) ∧
    (start.forest.child? ⟨0⟩ 0 = some ⟨1⟩ ∧ start.forest.isStatement ⟨1⟩ = false ∧
      start.forest.positionAfter ⟨0⟩ ⟨1⟩ 0 = 1) ∧
    (start.forest.child? ⟨0⟩ 1 = some ⟨2⟩ ∧ start.forest.isStatement ⟨2⟩ = true ∧
      start.forest.name ⟨2⟩ = "set" ∧ pruned.forest.positionAfter ⟨0⟩ ⟨2⟩ 1 = 1) ∧
    (pruned.forest.child? ⟨0⟩ 1 = some ⟨4⟩ ∧ pruned.forest.isStatement ⟨4⟩ = true ∧
      pruned.forest.name ⟨4⟩ = "set" ∧ last.forest.positionAfter ⟨0⟩ ⟨4⟩ 1 = 2) ∧
    last.forest.child? ⟨0⟩ 2 = none ∧
    (pruned.session.currentBase = none ∧ pruned.session.bindings = [] ∧ pruned.forest.Has ⟨4⟩) ∧
    (pruned.forest.children ⟨0⟩).Sublist (start.forest.children ⟨0⟩) ∧
    (last.forest.children ⟨0⟩).Sublist (pruned.forest.children ⟨0⟩) := by
  decide +kernel

theorem raise_pruned :
    (engine.raiseFlow "set" ⟨2⟩).result (hold.adding [⟨0⟩]) start = (.ok .normal, pruned) := by
  rw [← runs.1.1, pruned]

theorem raise_last :
    (engine.raiseFlow "set" ⟨4⟩).result (hold.adding [⟨0⟩]) pruned = (.ok .normal, last) := by
  rw [← runs.1.2, last]

theorem visited : Visited engine (hold.adding [⟨0⟩]) ⟨0⟩ 0 start visits last := by
  obtain ⟨-, ⟨hchild₁, hdata, hnext₁⟩, ⟨hchild₂, hstatement₂, hname₂, hnext₂⟩,
    ⟨hchild₃, hstatement₃, hname₃, hnext₃⟩, hend, -⟩ := runs
  refine .data hchild₁ hdata ?_
  rw [hnext₁]
  refine .raised hchild₂ hstatement₂ (by rw [hname₂, raise_pruned]) ?_
  rw [hnext₂]
  refine .raised hchild₃ hstatement₃ (by rw [hname₃, raise_last]) ?_
  rw [hnext₃]
  exact .done hend

theorem wellFormed_start : start.forest.WellFormed :=
  (Forest.planted pruning .empty Forest.wellFormed_empty).wellFormed

theorem wellFormed_left {n : NodeId} {w w' : World} (wf : w.forest.WellFormed)
    (hbase : w.session.currentBase = none) (hbindings : w.session.bindings = []) (hn : w.forest.Has n)
    (h : (engine.raiseFlow "set" n).result (hold.adding [⟨0⟩]) w = (.ok .normal, w')) :
    w'.forest.WellFormed := by
  refine Request.result_wellFormed ((Machine.isCore_coreTable _).keeping 8) (.raiseFlow "set" n)
    ⟨wf, fun call hc => ?_⟩ hbindings hn h (by simp)
  rw [hbase] at hc
  cases hc

theorem removes : ∀ v ∈ visits, v.Removes ⟨0⟩ := by
  obtain ⟨-, -, -, -, -, ⟨hbase, hbindings, hhas⟩, hsublist⟩ := runs
  have wf₁ : pruned.forest.WellFormed :=
    wellFormed_left wellFormed_start rfl rfl (by decide) raise_pruned
  have wf₂ : last.forest.WellFormed := wellFormed_left wf₁ hbase hbindings hhas raise_last
  intro v hv
  simp only [visits, List.mem_cons, List.not_mem_nil, or_false] at hv
  rcases hv with rfl | rfl | rfl
  · exact ⟨wellFormed_start, List.Sublist.refl _⟩
  · exact ⟨wf₁, hsublist.1⟩
  · exact ⟨wf₂, hsublist.2⟩

end Pruning

theorem sequence_raises_statements_of_pruning :
    (execute Pruning.engine ⟨0⟩ 0).result Pruning.hold Pruning.start = (.ok .normal, Pruning.last) ∧
      raisedNodes Pruning.visits = [⟨2⟩, ⟨4⟩] ∧ Pruning.last.forest.children ⟨0⟩ = [⟨1⟩, ⟨4⟩] ∧
      ∃ v ∈ Pruning.visits, v.node = ⟨4⟩ ∧
        (v.start.forest.isStatement ⟨4⟩ → (raisedNodes Pruning.visits).count ⟨4⟩ = 1) := by
  obtain ⟨hexecute, hvisits⟩ :=
    sequence_raises_statements Pruning.engine Pruning.hold ⟨0⟩ Pruning.start Pruning.last
  obtain ⟨-, -, hleft, -⟩ :=
    hvisits Pruning.visits Pruning.visited Pruning.wellFormed_start Pruning.removes
  have hchildren : Pruning.last.forest.children ⟨0⟩ = [⟨1⟩, ⟨4⟩] := by decide +kernel
  refine ⟨hexecute.mpr ⟨_, Pruning.visited, by decide⟩, by decide +kernel, hchildren,
    hleft ⟨4⟩ (by rw [hchildren]; decide) ?_⟩
  decide +kernel

/-! ## A child that is passed over -/

/-- A statement that takes away itself and the data before it, and a statement after them. -/
def uprooting : Tree Selector :=
  ⟨"root", none,
    [⟨"_a", none, []⟩, ⟨"set", some (.selector ⟨"/./*/[0,2]", [.parent, .children, .range 0 2], .node⟩), []⟩,
      ⟨"set", some (.selector ⟨"/../_out?value", [.root, .named "_out"], .value⟩),
        [⟨"src", some (.int 1), []⟩]⟩,
      ⟨"_out", some (.int 0), []⟩]⟩

/-- The last statement is still there and has not been raised. -/
theorem uprooting_passes_over_statement :
    let f := (Forest.plant uprooting .empty).2
    let result := (execute Pruning.engine ⟨0⟩ 0).result Pruning.hold ⟨f, default, default⟩
    f.children ⟨0⟩ = [⟨1⟩, ⟨2⟩, ⟨3⟩, ⟨5⟩] ∧ f.isStatement ⟨3⟩ = true ∧
      result.1 = .ok .normal ∧ result.2.forest.children ⟨0⟩ = [⟨3⟩, ⟨5⟩] ∧
      result.2.forest.name ⟨3⟩ = "set" ∧ result.2.forest.value ⟨5⟩ = some (.int 0) := by
  decide +kernel

end EventTree
