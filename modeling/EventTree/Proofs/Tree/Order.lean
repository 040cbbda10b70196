import EventTree.Proofs.Number.Rounding
import EventTree.Proofs.Tree

/-!
# The order of trees

Comparing the other way round gives the reverse. The order is transitive on trees whose numbers can be
told apart: where two different integers are rounded to a double that is there too, the double is equal
to both.
-/

namespace EventTree

/-! ## Comparing by one key after the other -/

/-- What transitivity says of the orders of `a` and `b`, of `b` and `c` and of `a` and `c`. Which of the
two steps is strict is part of it: only then do later keys count at the right places. -/
def Chained (ab bc ac : Ordering) : Prop := ab ≠ .gt → bc ≠ .gt → ac = ab.then bc

theorem Chained.then {x y z x' y' z' : Ordering} (h : Chained x y z)
    (h' : x = .eq → y = .eq → Chained x' y' z') :
    Chained (x.then x') (y.then y') (z.then z') := by
  intro hx hy
  cases x with
  | gt => exact absurd rfl hx
  | lt =>
    cases y with
    | gt => exact absurd rfl hy
    | lt | eq =>
      rw [h (by decide) (by decide)]
      rfl
  | eq =>
    cases y with
    | gt => exact absurd rfl hy
    | lt =>
      rw [h (by decide) (by decide)]
      cases x' with
      | gt => exact absurd rfl hx
      | lt | eq => rfl
    | eq =>
      rw [h (by decide) (by decide)]
      exact h' rfl rfl hx hy

/-- The order is transitive at three things, and so is equality. -/
def TransitiveAt {α : Type} (compare : α → α → Ordering) (a b c : α) : Prop :=
  (compare a b ≠ .gt → compare b c ≠ .gt → compare a c ≠ .gt) ∧
    (compare a b = .eq → compare b c = .eq → compare a c = .eq)

theorem Chained.transitiveAt {α : Type} {compare : α → α → Ordering} {a b c : α}
    (h : Chained (compare a b) (compare b c) (compare a c)) : TransitiveAt compare a b c := by
  constructor
  · intro hab hbc
    rw [h hab hbc]
    cases hcase : compare a b with
    | gt => exact absurd hcase hab
    | lt => exact Ordering.noConfusion
    | eq => exact hbc
  · intro hab hbc
    rw [hab, hbc] at h
    exact h (by decide) (by decide)

theorem chained_compare {α : Type} [Ord α] [Std.TransOrd α] (a b c : α) :
    Chained (compare a b) (compare b c) (compare a c) := by
  intro hab hbc
  cases h : compare a b with
  | gt => exact absurd h hab
  | eq =>
    rw [Std.TransCmp.congr_left h]
    rfl
  | lt =>
    cases h' : compare b c with
    | gt => exact absurd h' hbc
    | eq => exact Std.TransCmp.lt_of_lt_of_eq h h'
    | lt => exact Std.TransCmp.lt_trans h h'

theorem chained_integers {p q r s t u : Int}
    (h : p ≤ q → r ≤ s → t ≤ u ∧ (t = u ↔ p = q ∧ r = s)) :
    Chained (compare p q) (compare r s) (compare t u) := by
  intro hpq hrs
  have hpq : p ≤ q := Int.isLE_compare.mp (Ordering.isLE_iff_ne_gt.mpr hpq)
  have hrs : r ≤ s := Int.isLE_compare.mp (Ordering.isLE_iff_ne_gt.mpr hrs)
  obtain ⟨htu, heq⟩ := h hpq hrs
  rcases Int.lt_or_eq_of_le hpq with hlt | rfl
  · rw [Int.compare_eq_lt.mpr hlt, Int.compare_eq_lt.mpr (by omega)]
    rfl
  · rcases Int.lt_or_eq_of_le hrs with hlt | rfl
    · rw [Std.compare_self, Int.compare_eq_lt.mpr hlt, Int.compare_eq_lt.mpr (by omega)]
      rfl
    · rw [Std.compare_self, Std.compare_self, Int.compare_eq_eq.mpr (heq.mpr ⟨rfl, rfl⟩)]
      rfl

namespace Tree

/-! ## Reversal -/

mutual

theorem compare_swap (s t : Snapshot) : compare t s = (compare s t).swap := by
  match s, t with
  | ⟨name, value, children⟩, ⟨name', value', children'⟩ =>
    rw [compare, compare, Ordering.swap_then, Ordering.swap_then, Ordering.swap_then,
      ← compareValues_swap, ← compareAll_swap, ← Std.OrientedOrd.eq_swap, ← Std.OrientedOrd.eq_swap]

theorem compareValues_swap (v u : Option (Value Snapshot String)) :
    compareValues u v = (compareValues v u).swap := by
  rcases v with _ | _ | _ | _ | _ | v | _ <;> rcases u with _ | _ | _ | _ | _ | u | _ <;>
    simp only [compareValues, Double.compare, Ordering.swap_lt, Ordering.swap_gt, Ordering.swap_eq]
  case some.node.some.node => exact compare_swap v u
  all_goals exact Std.OrientedOrd.eq_swap

theorem compareAll_swap (ss ts : List Snapshot) : compareAll ts ss = (compareAll ss ts).swap := by
  match ss, ts with
  | [], [] | [], _ :: _ | _ :: _, [] => rfl
  | s :: ss, t :: ts =>
    rw [compareAll, compareAll, Ordering.swap_then, ← compare_swap, ← compareAll_swap]

end

/-! ## Values of different types -/

/-- The place of a type among the others. Integers and doubles have one place: no name of another type
lies between theirs. -/
def rank : Option (Value Snapshot String) → Nat
  | none => 0
  | some (.bool _) => 1
  | some (.int _) | some (.float _) => 2
  | some (.node _) => 3
  | some (.selector _) => 4
  | some (.string _) => 5

theorem compareValues_eq_then (v u : Option (Value Snapshot String)) :
    compareValues v u = (Ord.compare (rank v) (rank u)).then (compareValues v u) := by
  rcases v with _ | _ | _ | _ | _ | _ | _ <;> rcases u with _ | _ | _ | _ | _ | _ | _ <;>
    simp only [compareValues, Value.typeName, rank, Std.compare_self, Ordering.eq_then] <;> decide

/-! ## Numbers -/

/-- Two different integers are rounded to one double, and all three are among the values. -/
def Ambiguous (vs : List (Value Snapshot String)) : Prop :=
  ∃ (i j : Int64) (x : Double), .int i ∈ vs ∧ .int j ∈ vs ∧ .float x ∈ vs ∧
    i ≠ j ∧ Double.ofInt i.toInt = x ∧ Double.ofInt j.toInt = x

theorem orderKey_ofInt_of_not_ambiguous {vs : List (Value Snapshot String)} (h : ¬ Ambiguous vs)
    {i j : Int64} {x : Double} (hi : .int i ∈ vs) (hj : .int j ∈ vs) (hx : .float x ∈ vs) :
    (i.toInt ≤ j.toInt → (Double.ofInt i.toInt).orderKey ≤ (Double.ofInt j.toInt).orderKey) ∧
      (j.toInt ≤ i.toInt → (Double.ofInt j.toInt).orderKey ≤ (Double.ofInt i.toInt).orderKey) ∧
      ((Double.ofInt i.toInt).orderKey = x.orderKey → (Double.ofInt j.toInt).orderKey = x.orderKey →
        i.toInt = j.toInt) := by
  refine ⟨Double.orderKey_ofInt_mono, Double.orderKey_ofInt_mono, fun hix hjx => ?_⟩
  refine Decidable.byContradiction fun hne => h ⟨i, j, x, hi, hj, hx, ?_, Double.orderKey_inj hix,
    Double.orderKey_inj hjx⟩
  exact fun hij => hne (congrArg Int64.toInt hij)

/-! ## Transitivity -/

section Chains

variable {vs : List (Value Snapshot String)}

mutual

theorem compare_chained (h : ¬ Ambiguous vs) (a b c : Snapshot) (ha : a.values ⊆ vs)
    (hb : b.values ⊆ vs) (hc : c.values ⊆ vs) :
    Chained (compare a b) (compare b c) (compare a c) := by
  match a, b, c with
  | ⟨name, value, children⟩, ⟨name', value', children'⟩, ⟨name'', value'', children''⟩ =>
    rw [values, List.append_subset] at ha hb hc
    rw [compare, compare, compare]
    refine (chained_compare _ _ _).then fun _ _ => ?_
    refine (compareValues_chained h value value' value'' ha.1 hb.1 hc.1).then fun _ _ => ?_
    -- Children are compared one by one only if there are as many of them.
    refine (chained_compare _ _ _).then fun hl hl' => ?_
    exact compareAll_chained h children children' children'' (Nat.compare_eq_eq.mp hl)
      (Nat.compare_eq_eq.mp hl') ha.2 hb.2 hc.2
termination_by structural a

theorem compareValues_chained (h : ¬ Ambiguous vs) (a b c : Option (Value Snapshot String))
    (ha : valuesOf a ⊆ vs) (hb : valuesOf b ⊆ vs) (hc : valuesOf c ⊆ vs) :
    Chained (compareValues a b) (compareValues b c) (compareValues a c) := by
  rw [compareValues_eq_then a b, compareValues_eq_then b c, compareValues_eq_then a c]
  refine (chained_compare _ _ _).then fun hrank hrank' => ?_
  have hab : rank a = rank b := Nat.compare_eq_eq.mp hrank
  have hbc : rank b = rank c := Nat.compare_eq_eq.mp hrank'
  clear hrank hrank'
  -- of equal rank are values of one type, and numbers
  rcases a with _ | _ | i | x | _ | a | _ <;> rcases b with _ | _ | i' | x' | _ | b | _ <;>
    simp only [rank, Nat.reduceEqDiff, reduceCtorEq] at hab
  all_goals
    rcases c with _ | _ | i'' | x'' | _ | c | _ <;>
      simp only [rank, Nat.reduceEqDiff, reduceCtorEq] at hbc
  all_goals
    simp only [valuesOf, List.cons_subset, List.nil_subset, and_true] at ha hb hc
    simp only [compareValues, Double.compare]
  case none.none.none => exact fun _ _ => rfl
  case some.node.some.node.some.node => exact compare_chained h a b c ha.2 hb.2 hc.2
  case some.int.some.int.some.float =>
    have hnumbers := orderKey_ofInt_of_not_ambiguous h ha hb hc
    exact chained_integers fun _ _ => by omega
  case some.int.some.float.some.int =>
    have hnumbers := orderKey_ofInt_of_not_ambiguous h ha hc hb
    exact chained_integers fun _ _ => by omega
  case some.float.some.int.some.int =>
    have hnumbers := orderKey_ofInt_of_not_ambiguous h hb hc ha
    exact chained_integers fun _ _ => by omega
  all_goals exact chained_compare _ _ _
termination_by structural a

theorem compareAll_chained (h : ¬ Ambiguous vs) (as bs cs : List Snapshot) (hab : as.length = bs.length)
    (hbc : bs.length = cs.length)
    (ha : valuesAll as ⊆ vs) (hb : valuesAll bs ⊆ vs) (hc : valuesAll cs ⊆ vs) :
    Chained (compareAll as bs) (compareAll bs cs) (compareAll as cs) := by
  match as, bs, cs with
  | [], [], [] => exact fun _ _ => rfl
  | a :: as, b :: bs, c :: cs =>
    rw [valuesAll, List.append_subset] at ha hb hc
    rw [compareAll, compareAll, compareAll]
    refine (compare_chained h a b c ha.1 hb.1 hc.1).then fun _ _ => ?_
    exact compareAll_chained h as bs cs (Nat.succ.inj hab) (Nat.succ.inj hbc) ha.2 hb.2 hc.2
termination_by structural as

end

end Chains

theorem compare_transitiveAt {a b c : Snapshot} (h : ¬ Ambiguous (a.values ++ b.values ++ c.values)) :
    TransitiveAt compare a b c :=
  (compare_chained h a b c (by simp) (by simp) (by simp)).transitiveAt

theorem compareValues_transitiveAt {a b c : Option (Value Snapshot String)}
    (h : ¬ Ambiguous (valuesOf a ++ valuesOf b ++ valuesOf c)) : TransitiveAt compareValues a b c :=
  (compareValues_chained h a b c (by simp) (by simp) (by simp)).transitiveAt

theorem compareValues_of_ofInt_eq {i j : Int64} {x : Double} (hij : j.toInt < i.toInt)
    (hi : Double.ofInt i.toInt = x) (hj : Double.ofInt j.toInt = x) :
    compareValues (some (.int i)) (some (.float x)) = .eq ∧
      compareValues (some (.float x)) (some (.int j)) = .eq ∧
      compareValues (some (.int i)) (some (.int j)) = .gt := by
  simp only [compareValues, Double.compare, hi, hj, Std.compare_self, Int.compare_eq_gt, hij, and_self]

end Tree

end EventTree
