import EventTree.Proofs.Condition.Operators
import EventTree.Proofs.Forest.Snapshots
import EventTree.Proofs.Tree.Order

/-!
# Comparing live trees

Main statements: comparing the other way round gives the reverse, of trees, of values and of whole sides,
and so for the operators; a copy compares as the original does. The order, and with it equality, is
transitive unless two different integers and a double that both are rounded to meet.
-/

namespace EventTree

namespace Forest

/-! ## Live trees -/

theorem compare_swap (f : Forest) (a b : NodeId) : f.compare b a = (f.compare a b).swap := by
  rw [compare_eq_snapshot, compare_eq_snapshot, Tree.compare_swap]

theorem compareValues_swap (f : Forest) (v u : Option LiveValue) :
    f.compareValues u v = (f.compareValues v u).swap := by
  rw [compareValues_eq, compareValues_eq, Tree.compareValues_swap]

/-! ## Sides -/

theorem firstDifference_swap (f : Forest) (left right : List (Option LiveValue)) :
    firstDifference (List.zipWith f.compareValues right left) =
      (firstDifference (List.zipWith f.compareValues left right)).swap := by
  induction left generalizing right with
  | nil => rw [List.zipWith_nil_right]; rfl
  | cons v left ih =>
    cases right with
    | nil => rfl
    | cons u right =>
      rw [List.zipWith_cons_cons, List.zipWith_cons_cons, firstDifference_cons, firstDifference_cons,
        f.compareValues_swap v u, ih, Ordering.swap_then]

theorem compareSides_swap (f : Forest) (left right : List (Option LiveValue)) :
    f.compareSides right left = (f.compareSides left right).swap := by
  rw [compareSides, compareSides, Bool.and_comm]
  split
  · rfl
  · rw [Ordering.swap_then, ← firstDifference_swap, ← Std.OrientedOrd.eq_swap]

/-! ## Copies -/

section Copies

variable {f g : Forest} {n : NodeId} (wf : f.WellFormed) (hn : f.Has n) (hfinite : f.IsFinite n)
  (hg : (f.copy n).2.Grown g)

include wf hn hfinite hg

theorem snapshot_copy : g.snapshot (f.copy n).1 = g.snapshot n := by
  have hcopied := copied wf n
  have hview : g.view (f.copy n).1 = f.view n :=
    view_copy wf (fun k _ hk => .of_cell (hg.cell_eq k hk)) hg.size_le
  rw [snapshot, snapshot, hview, hfinite.view_eq wf hn (hcopied.grown.trans hg)]

theorem compare_copy (k : NodeId) : g.compare (f.copy n).1 k = g.compare n k := by
  rw [compare_eq_snapshot, snapshot_copy wf hn hfinite hg, compare_eq_snapshot]

end Copies

/-! ## Operators -/

/-- `c` is below the conditional node `n`, both have constants, and `n` is there as long as `hold`. -/
structure ComparesConstants (f : Forest) (hold : Hold) (n c : NodeId) : Prop where
  wellFormed : f.WellFormed
  parent : f.parent c = some n
  name : f.name n ≠ ""
  left : f.Constant n
  right : f.Constant c
  held : n ∈ hold.held

end Forest

namespace Keyword

/-- Operators by order, each with the one that says the same of swapped operands. -/
def mirrored : List (String × String) := [("<", ">"), (">", "<"), ("<=", ">="), (">=", "<=")]

theorem comparisonHolds_mirrored {f g : Forest} {v u v' u' : Option LiveValue}
    (hv : v'.map g.snapshotValue = v.map f.snapshotValue)
    (hu : u'.map g.snapshotValue = u.map f.snapshotValue) {pair : String × String}
    (h : pair ∈ mirrored) : g.comparisonHolds pair.2 u' v' = f.comparisonHolds pair.1 v u := by
  have hswap : g.compareValues u' v' = (f.compareValues v u).swap := by
    rw [Forest.compareValues_eq, hv, hu, Tree.compareValues_swap, Forest.compareValues_eq]
  simp only [mirrored, List.mem_cons, List.not_mem_nil, or_false] at h
  rcases h with rfl | rfl | rfl | rfl
  all_goals
    simp only [Forest.comparisonHolds, hswap]
    cases f.compareValues v u <;> rfl

end Keyword

open Keyword

/-- Comparing the other way round gives the reverse, and copies compare as their originals do. -/
theorem comparison_reverses :
    (∀ s t : Snapshot, t.compare s = (s.compare t).swap) ∧
    (∀ v u, Tree.compareValues u v = (Tree.compareValues v u).swap) ∧
    ∀ f : Forest,
      (∀ a b, f.compare b a = (f.compare a b).swap ∧
        f.compare a b = (f.snapshot a).compare (f.snapshot b)) ∧
      (∀ v u, f.compareValues u v = (f.compareValues v u).swap) ∧
      (∀ left right, f.compareSides right left = (f.compareSides left right).swap) ∧
      (∀ n g, f.WellFormed → f.Has n → f.IsFinite n → (f.copy n).2.Grown g →
        g.compare n (f.copy n).1 = .eq ∧ ∀ k, g.compare (f.copy n).1 k = g.compare n k) ∧
      ∀ (g : Forest) (hold hold' : Hold) (n c n' c' : NodeId), f.ComparesConstants hold n c →
        g.ComparesConstants hold' n' c' →
        (g.value c').map g.snapshotValue = (f.value n).map f.snapshotValue →
        (g.value n').map g.snapshotValue = (f.value c).map f.snapshotValue →
        ∀ pair ∈ mirrored, ∀ handler handler', (pair.1, handler) ∈ comparisons →
          (pair.2, handler') ∈ comparisons →
          ∀ (w w' : World) (engine engine' : Engine) (event event' : String), ∃ b : Bool,
            (handler engine (.plain event c)).result hold (w.on f) =
              (.ok .normal, w.on (f.setValue c (some (.bool b)))) ∧
            (handler' engine' (.plain event' c')).result hold' (w'.on g) =
              (.ok .normal, w'.on (g.setValue c' (some (.bool b)))) := by
  refine ⟨Tree.compare_swap, Tree.compareValues_swap, fun f => ⟨fun a b => ⟨f.compare_swap a b,
    f.compare_eq_snapshot a b⟩, f.compareValues_swap, f.compareSides_swap,
    fun n g wf hn hfinite hg => ⟨?_, Forest.compare_copy wf hn hfinite hg⟩, ?_⟩⟩
  · rw [Forest.compare_eq_snapshot, Forest.snapshot_copy wf hn hfinite hg, Tree.compare_self]
  · intro g hold hold' n c n' c' h h' hleft hright pair hpair handler handler' hhandler hhandler'
      w w' engine engine' event event'
    refine ⟨f.comparisonHolds pair.1 (f.value n) (f.value c), ?_, ?_⟩
    · exact result_comparison h.wellFormed h.parent h.name h.left h.right h.held w engine event hhandler
    · rw [← comparisonHolds_mirrored hleft hright hpair]
      exact result_comparison h'.wellFormed h'.parent h'.name h'.left h'.right h'.held w' engine' event'
        hhandler'

/-- A tree is compared with a double that is no number, and the double with such a tree. -/
def rivals : Tree Selector :=
  ⟨"root", none,
    [⟨"if", some (.node ⟨"t", some (.bool true), []⟩), [⟨"<", some (.float ⟨0x7ff8000000000000⟩), []⟩]⟩,
      ⟨"while", some (.float ⟨0x7ff8000000000000⟩), [⟨">", some (.node ⟨"t", some (.bool true), []⟩), []⟩]⟩]⟩

namespace Rivals

def forest : Forest := (Forest.plant rivals .empty).2

theorem wellFormed : forest.WellFormed := (Forest.planted rivals .empty Forest.wellFormed_empty).wellFormed

theorem compares {n c : NodeId} (h : (n = ⟨1⟩ ∧ c = ⟨3⟩) ∨ (n = ⟨4⟩ ∧ c = ⟨5⟩)) :
    forest.ComparesConstants (.ofCall ⟨0⟩ n) n c := by
  have hconstant : ∀ i : Fin 7, ∀ v ∈ forest.value ⟨i⟩, v.asSelector? = none := by decide
  have hall : ∀ {k : NodeId}, (forest.value k).isSome → forest.Constant k := by
    intro k hk
    obtain ⟨v, hv⟩ := Option.isSome_iff_exists.mp hk
    refine ⟨v, hv, fun s hs => ?_⟩
    have hnone := hconstant ⟨k.index, Forest.has_of_value hv⟩ v hv
    rw [hs] at hnone
    cases hnone
  rcases h with ⟨rfl, rfl⟩ | ⟨rfl, rfl⟩
  · exact ⟨wellFormed, by decide, by decide, hall (by decide),
      hall (by decide), by decide⟩
  · exact ⟨wellFormed, by decide, by decide, hall (by decide),
      hall (by decide), by decide⟩

end Rivals

theorem comparison_reverses_of_rivals :
    let w : World := ⟨Rivals.forest, default, default⟩
    let m : Machine := ⟨.default, coreTable⟩
    Rivals.forest.value ⟨1⟩ ≠ Rivals.forest.value ⟨5⟩ ∧
    (∃ b : Bool,
      (compared (·.isLT) (m.engine 1 (m.perform 1)) (.plain "<" ⟨3⟩)).result (.ofCall ⟨0⟩ ⟨1⟩) w =
        (.ok .normal, w.on (Rivals.forest.setValue ⟨3⟩ (some (.bool b)))) ∧
      (compared (·.isGT) (m.engine 1 (m.perform 1)) (.plain ">" ⟨5⟩)).result (.ofCall ⟨0⟩ ⟨4⟩) w =
        (.ok .normal, w.on (Rivals.forest.setValue ⟨5⟩ (some (.bool b))))) ∧
    (Rivals.forest.copy ⟨0⟩).2.compare ⟨0⟩ (Rivals.forest.copy ⟨0⟩).1 = .eq := by
  intro w m
  obtain ⟨-, -, -, hcopies, hoperators⟩ := comparison_reverses.2.2 Rivals.forest
  refine ⟨by decide +kernel, ?_, ?_⟩
  · exact hoperators Rivals.forest _ _ ⟨1⟩ ⟨3⟩ ⟨4⟩ ⟨5⟩ (Rivals.compares (.inl ⟨rfl, rfl⟩))
      (Rivals.compares (.inr ⟨rfl, rfl⟩)) rfl rfl ("<", ">") (by simp [mirrored]) _ _
      (by simp [comparisons]) (by simp [comparisons]) w w _ _ "<" ">"
  · exact (hcopies ⟨0⟩ _ Rivals.wellFormed (by decide)
      (Forest.revived_plant Forest.wellFormed_empty rivals).finite (Forest.Grown.refl _)).1

/-! ## Transitivity -/

/-- The order is transitive at trees, and at values, whose numbers can be told apart. Integers that are
rounded to one double are what breaks it. -/
theorem comparison_transitive (f : Forest) :
    (∀ a b c : Snapshot, ¬ Tree.Ambiguous (a.values ++ b.values ++ c.values) →
      TransitiveAt Tree.compare a b c) ∧
    (∀ a b c, ¬ Tree.Ambiguous (Tree.valuesOf a ++ Tree.valuesOf b ++ Tree.valuesOf c) →
      TransitiveAt Tree.compareValues a b c) ∧
    (∀ a b c : NodeId,
      ¬ Tree.Ambiguous ((f.snapshot a).values ++ (f.snapshot b).values ++ (f.snapshot c).values) →
      TransitiveAt f.compare a b c) ∧
    (∀ a b c : Option LiveValue,
      ¬ Tree.Ambiguous (Tree.valuesOf (a.map f.snapshotValue) ++ Tree.valuesOf (b.map f.snapshotValue) ++
        Tree.valuesOf (c.map f.snapshotValue)) → TransitiveAt f.compareValues a b c) ∧
    ∀ (i j : Int64) (x : Double), j.toInt < i.toInt → Double.ofInt i.toInt = x →
      Double.ofInt j.toInt = x →
      Tree.compareValues (some (.int i)) (some (.float x)) = .eq ∧
        Tree.compareValues (some (.float x)) (some (.int j)) = .eq ∧
        Tree.compareValues (some (.int i)) (some (.int j)) = .gt := by
  refine ⟨fun a b c h => Tree.compare_transitiveAt h, fun a b c h => Tree.compareValues_transitiveAt h,
    fun a b c h => ?_, fun a b c h => ?_,
    fun i j x hij hi hj => Tree.compareValues_of_ofInt_eq hij hi hj⟩
  · rw [TransitiveAt, f.compare_eq_snapshot, f.compare_eq_snapshot, f.compare_eq_snapshot]
    exact Tree.compare_transitiveAt h
  · rw [TransitiveAt, f.compareValues_eq, f.compareValues_eq, f.compareValues_eq]
    exact Tree.compareValues_transitiveAt h

/-- A tree that is a number. -/
def numbered (v : Value Snapshot String) : Snapshot := ⟨"n", some v, []⟩

namespace Limit

/-- Beyond it not every integer is a double. -/
def double : Snapshot := numbered (.float ⟨0x4340000000000000⟩)

def below : Snapshot := numbered (.int 9007199254740991)

def reached : Snapshot := numbered (.int 9007199254740992)

def above : Snapshot := numbered (.int 9007199254740993)

theorem unambiguous : ¬ Tree.Ambiguous (below.values ++ double.values ++ reached.values) := by
  have hbelow : below.values = [.int 9007199254740991] := rfl
  have hdouble : double.values = [.float ⟨0x4340000000000000⟩] := rfl
  have hreached : reached.values = [.int 9007199254740992] := rfl
  rw [hbelow, hdouble, hreached]
  rintro ⟨i, j, x, hi, hj, -, hne, hix, hjx⟩
  simp only [List.cons_append, List.nil_append, List.mem_cons, List.not_mem_nil, Value.int.injEq,
    reduceCtorEq, false_or, or_false] at hi hj
  have hrounded : Double.ofInt (9007199254740991 : Int64).toInt ≠
      Double.ofInt (9007199254740992 : Int64).toInt := by decide +kernel
  rcases hi with rfl | rfl <;> rcases hj with rfl | rfl
  · exact hne rfl
  · exact hrounded (hix.trans hjx.symm)
  · exact hrounded (hjx.trans hix.symm)
  · exact hne rfl

end Limit

theorem comparison_transitive_below_limit :
    ¬ Tree.Ambiguous (Limit.below.values ++ Limit.double.values ++ Limit.reached.values) ∧
      Limit.below.compare Limit.double ≠ .gt ∧ Limit.double.compare Limit.reached ≠ .gt ∧
      Limit.below.compare Limit.reached ≠ .gt := by
  have hbelow : Limit.below.compare Limit.double ≠ .gt := by decide +kernel
  have hreached : Limit.double.compare Limit.reached ≠ .gt := by decide +kernel
  exact ⟨Limit.unambiguous, hbelow, hreached,
    ((comparison_transitive .empty).1 _ _ _ Limit.unambiguous).1 hbelow hreached⟩

/-- Two integers are equal to one double, and one of them is greater. -/
theorem comparison_not_transitive :
    Limit.above.compare Limit.double = .eq ∧ Limit.double.compare Limit.reached = .eq ∧
      Limit.above.compare Limit.reached = .gt := by
  decide +kernel

end EventTree
