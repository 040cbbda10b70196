import EventTree.Keyword.Logic
import EventTree.Proofs.Forest.Comparison
import EventTree.Proofs.Forest.Views

/-!
# Readings of conditions

What a condition means, said without markers and without running anything. A condition is read from left
to right as a disjunction of conjunctions. An `and` adds to the latest conjunction, an `or` begins a new
one, and a `not` makes one constant of all that stands before it.
-/

namespace EventTree

/-! ## Readings -/

/-- What an operator adds to a condition. -/
inductive Clause where
  | compare (outcome : Bool)
  | and (operand : Bool)
  | or (operand : Bool)
  | not
  deriving DecidableEq, Repr

/-- A disjunction of conjunctions, the latest first. -/
abbrev Reading := List (List Bool)

namespace Reading

def value (r : Reading) : Bool := r.any (·.all id)

def next (r : Reading) : Clause → Reading
  | .compare b => [[b]]
  | .and b => (b :: r.headD []) :: r.tail
  | .or b => [b] :: r
  | .not => [[!r.value]]

/-- Whether an operand is passed over: an earlier conjunction is true, or the one that an `and` adds to
is false. -/
def passesOver (r : Reading) : Clause → Bool
  | .and _ => value r.tail || !(r.headD []).all id
  | .or _ => r.value
  | _ => false

@[simp]
theorem value_nil : value [] = false := rfl

@[simp]
theorem value_cons (g : List Bool) (r : Reading) : value (g :: r) = (g.all id || value r) := rfl

theorem next_ne_nil (r : Reading) (k : Clause) : r.next k ≠ [] := by
  cases k <;> simp [next]

theorem value_next_and {g : List Bool} {r : Reading} {b : Bool}
    (h : passesOver (g :: r) (.and b) = true) : value (next (g :: r) (.and b)) = value r := by
  cases hr : value r with
  | true => simp [next, hr]
  | false =>
    have hg : g.all id = false := by simpa [passesOver, hr] using h
    simp [next, hr, hg]

end Reading

namespace Forest

/-! ## Conditional expressions -/

/-- The children of a node that are no data. -/
def statements (f : Forest) (n : NodeId) : List NodeId := (f.children n).filter f.isStatement

/-- A node has a value that is not a selector. -/
def Constant (f : Forest) (n : NodeId) : Prop :=
  ∃ v, f.value n = some v ∧ ∀ s, v ≠ .selector s

/-- What a comparison of two values comes to. -/
def comparisonHolds (f : Forest) (name : String) (left right : Option LiveValue) : Bool :=
  match name with
  | "=" => (f.compareValues left right).isEq
  | "!=" => (f.compareValues left right).isNe
  | "<" => (f.compareValues left right).isLT
  | ">" => (f.compareValues left right).isGT
  | "<=" => (f.compareValues left right).isLE
  | ">=" => (f.compareValues left right).isGE
  | "~" => Text.contains (f.textOf left) (f.textOf right)
  | "!~" => !Text.contains (f.textOf left) (f.textOf right)
  | _ => false

/-- The clause that a statement of `n` stands for, given what operands mean. -/
def clause (f : Forest) (meaning : NodeId → Bool) (n c : NodeId) : Clause :=
  if f.name c = "and" then .and (meaning c)
  else if f.name c = "or" then .or (meaning c)
  else if f.name c = "not" then .not
  else .compare (f.comparisonHolds (f.name c) (f.value n) (f.value c))

/-- The reading that statements of `n` lead to. -/
def reading (f : Forest) (meaning : NodeId → Bool) (n : NodeId) (r : Reading) (cs : List NodeId) :
    Reading :=
  cs.foldl (fun r c => r.next (f.clause meaning n c)) r

/-- What a conditional expression means, whose operands are nested to at most `height` levels. -/
def meaning (f : Forest) : Nat → NodeId → Bool
  | 0, _ => false
  | height + 1, n =>
    (f.reading (meaning f height) n [[Value.isTruthy (f.value n)]] (f.statements n)).value

/-- The operands at a statement of `n` that are passed over, each with what is left on it: the statement
itself, or those within it. -/
def passedAt (f : Forest) (meaning : NodeId → Bool) (passed : NodeId → List (NodeId × Bool))
    (n : NodeId) (r : Reading) (c : NodeId) : List (NodeId × Bool) :=
  let k := f.clause meaning n c
  match k with
  | .and _ | .or _ => if r.passesOver k then [(c, (r.next k).value)] else passed c
  | _ => []

/-- The operands among statements of `n` that are passed over. -/
def passedAmong (f : Forest) (meaning : NodeId → Bool) (passed : NodeId → List (NodeId × Bool))
    (n : NodeId) : Reading → List NodeId → List (NodeId × Bool)
  | _, [] => []
  | r, c :: cs => f.passedAt meaning passed n r c ++
      passedAmong f meaning passed n (r.next (f.clause meaning n c)) cs

/-- The operands of a conditional expression that are passed over. -/
def passed (f : Forest) : Nat → NodeId → List (NodeId × Bool)
  | 0, _ => []
  | height + 1, n =>
    f.passedAmong (f.meaning height) (passed f height) n [[Value.isTruthy (f.value n)]] (f.statements n)

/-- A conditional expression: a constant, at most one comparison with a constant, and then operators. -/
def Conditional (f : Forest) : Nat → NodeId → Prop
  | 0, _ => False
  | height + 1, n =>
    f.Constant n ∧ (∀ c ∈ f.children n, f.name c ≠ Keyword.markerName) ∧
    ∃ compared operators, f.statements n = compared ++ operators ∧ compared.length ≤ 1 ∧
      (∀ c ∈ compared, f.name c ∈ Keyword.comparisons.map (·.1) ∧ f.Constant c) ∧
      ∀ c ∈ operators, (f.name c = "not" ∧ f.children c = [] ∧ f.value c = none) ∨
        (f.name c = "and" ∨ f.name c = "or") ∧ Conditional f height c

theorem Constant.congr {f g : Forest} {n : NodeId} (h : f.Constant n) (hv : g.value n = f.value n) :
    g.Constant n := by
  rwa [Constant, hv]

instance (f : Forest) (n : NodeId) : Decidable (f.Constant n) :=
  match h : f.value n with
  | none => isFalse fun ⟨_, hv, _⟩ => by cases h.symm.trans hv
  | some (.selector s) => isFalse fun ⟨_, hv, hs⟩ => hs s (Option.some.inj (hv.symm.trans h))
  | some (.bool b) => isTrue ⟨.bool b, h, fun _ hs => by cases hs⟩
  | some (.int i) => isTrue ⟨.int i, h, fun _ hs => by cases hs⟩
  | some (.float x) => isTrue ⟨.float x, h, fun _ hs => by cases hs⟩
  | some (.string t) => isTrue ⟨.string t, h, fun _ hs => by cases hs⟩
  | some (.node k) => isTrue ⟨.node k, h, fun _ hs => by cases hs⟩

theorem conditional_succ {f : Forest} {height : Nat} {n : NodeId} :
    f.Conditional (height + 1) n ↔
      f.Constant n ∧ (∀ c ∈ f.children n, f.name c ≠ Keyword.markerName) ∧ ∃ k ∈ [0, 1],
        (∀ c ∈ (f.statements n).take k, f.name c ∈ Keyword.comparisons.map (·.1) ∧ f.Constant c) ∧
        ∀ c ∈ (f.statements n).drop k, (f.name c = "not" ∧ f.children c = [] ∧ f.value c = none) ∨
          (f.name c = "and" ∨ f.name c = "or") ∧ f.Conditional height c := by
  refine and_congr_right fun _ => and_congr_right fun _ => ⟨?_, ?_⟩
  · rintro ⟨compared, operators, hstatements, hlength, hcompared, hoperators⟩
    refine ⟨compared.length, ?_, ?_⟩
    · simp only [List.mem_cons, List.not_mem_nil, or_false]
      omega
    · rw [hstatements, List.take_left, List.drop_left]
      exact ⟨hcompared, hoperators⟩
  · rintro ⟨k, hk, hcompared, hoperators⟩
    refine ⟨_, _, (List.take_append_drop k _).symm, ?_, hcompared, hoperators⟩
    simp only [List.mem_cons, List.not_mem_nil, or_false] at hk
    rw [List.length_take]
    omega

instance decidableConditional (f : Forest) :
    (height : Nat) → (n : NodeId) → Decidable (f.Conditional height n)
  | 0, _ => isFalse id
  | height + 1, _ =>
    have := decidableConditional f height
    decidable_of_iff' _ conditional_succ

theorem Conditional.statement {f : Forest} {height : Nat} {n c : NodeId}
    (h : f.Conditional (height + 1) n) {l r : List NodeId} (hs : f.children n = l ++ c :: r)
    (hc : f.isStatement c) :
    (f.name c ∈ Keyword.comparisons.map (·.1) ∧ f.Constant c ∧ l.filter f.isStatement = []) ∨
      (f.name c = "not" ∧ f.children c = [] ∧ f.value c = none) ∨
      (f.name c = "and" ∨ f.name c = "or") ∧ f.Conditional height c := by
  obtain ⟨-, -, compared, operators, hstatements, hlength, hcompared, hoperators⟩ := h
  rw [statements, hs, List.filter_append, List.filter_cons_of_pos hc] at hstatements
  -- With a comparison in front, the statement is that comparison or comes after it.
  match compared, hlength with
  | [], _ =>
    refine Or.inr (hoperators c ?_)
    rw [List.nil_append] at hstatements
    exact hstatements ▸ List.mem_append_right _ List.mem_cons_self
  | [x], _ =>
    cases hl : l.filter f.isStatement with
    | nil =>
      rw [hl] at hstatements
      obtain rfl := (List.cons.inj hstatements).1
      have hfirst := hcompared c (List.mem_singleton_self c)
      exact Or.inl ⟨hfirst.1, hfirst.2, rfl⟩
    | cons y ys =>
      rw [hl] at hstatements
      have hrest : ys ++ c :: r.filter f.isStatement = operators := (List.cons.inj hstatements).2
      exact Or.inr (hoperators c (hrest ▸ List.mem_append_right _ List.mem_cons_self))

theorem clause_of_comparison {f : Forest} {c : NodeId}
    (h : f.name c ∈ Keyword.comparisons.map (·.1)) (meaning : NodeId → Bool) (n : NodeId) :
    f.clause meaning n c = .compare (f.comparisonHolds (f.name c) (f.value n) (f.value c)) := by
  have hothers : ∀ a ∈ Keyword.comparisons.map (·.1), a ≠ "and" ∧ a ≠ "or" ∧ a ≠ "not" := by decide
  obtain ⟨hand, hor, hnot⟩ := hothers _ h
  rw [clause, if_neg hand, if_neg hor, if_neg hnot]

/-! ## The same expression in another forest -/

/-- `m` is `n` or below it. -/
def Within (f : Forest) (n m : NodeId) : Prop := m = n ∨ f.Above n m

theorem Within.of_child {f : Forest} {n c m : NodeId} (hc : f.parent c = some n)
    (h : f.Within c m) : f.Within n m := by
  rcases h with rfl | h
  · exact Or.inr (above_of_parent hc)
  · exact Or.inr ((above_of_parent hc).trans h)

theorem within_of_mem_passedAt {f : Forest} {meaning : NodeId → Bool}
    {passed : NodeId → List (NodeId × Bool)} {n c : NodeId} {r : Reading}
    (hbelow : ∀ p ∈ passed c, f.Above c p.1) :
    ∀ p ∈ f.passedAt meaning passed n r c, f.Within c p.1 := by
  intro p hp
  rw [passedAt] at hp
  have hhere : p ∈ (if r.passesOver (f.clause meaning n c) then
      [(c, (r.next (f.clause meaning n c)).value)] else passed c) → f.Within c p.1 := by
    intro hp
    split at hp
    · exact Or.inl (congrArg Prod.fst (List.mem_singleton.mp hp))
    · exact Or.inr (hbelow p hp)
  cases hk : f.clause meaning n c with
  | and b =>
    rw [hk] at hp hhere
    exact hhere hp
  | or b =>
    rw [hk] at hp hhere
    exact hhere hp
  | compare b =>
    rw [hk] at hp
    cases hp
  | not =>
    rw [hk] at hp
    cases hp

theorem WellFormed.above_of_mem_passed {f : Forest} (wf : f.WellFormed) (height : Nat) {n : NodeId} :
    ∀ p ∈ f.passed height n, f.Above n p.1 := by
  induction height generalizing n with
  | zero => exact fun p hp => by cases hp
  | succ height ih =>
    -- The reading goes on from statement to statement, so this is for any reading.
    have hamong : ∀ cs r, (∀ c ∈ cs, f.parent c = some n) →
        ∀ p ∈ f.passedAmong (f.meaning height) (f.passed height) n r cs, f.Above n p.1 := by
      intro cs
      induction cs with
      | nil => exact fun _ _ p hp => by cases hp
      | cons c cs ihc =>
        intro r hcs p hp
        rw [passedAmong, List.mem_append] at hp
        rcases hp with hp | hp
        · have hc := above_of_parent (hcs c List.mem_cons_self)
          rcases within_of_mem_passedAt ih p hp with h | h
          · rwa [h]
          · exact hc.trans h
        · exact ihc _ (fun d hd => hcs d (List.mem_cons_of_mem _ hd)) p hp
    exact hamong _ _ fun c hc => (wf.linked n c).mp (List.mem_filter.mp hc).1

theorem comparisonHolds_congr {f g : Forest} (name : String) {a b : Option LiveValue}
    (ha : a.map g.snapshotValue = a.map f.snapshotValue) (hta : g.textOf a = f.textOf a)
    (hb : b.map g.snapshotValue = b.map f.snapshotValue) (htb : g.textOf b = f.textOf b) :
    g.comparisonHolds name a b = f.comparisonHolds name a b := by
  have horder : g.compareValues a b = f.compareValues a b := by
    rw [compareValues_eq, ha, hb, compareValues_eq]
  simp only [comparisonHolds, horder, hta, htb]

/-- All that is within `n` is the same in both forests, and so are its nested trees. -/
structure Alike (f g : Forest) (n : NodeId) : Prop where
  cell_eq : ∀ m, f.Within n m → g.cell m = f.cell m
  snapshot_eq : ∀ m, f.Within n m → (f.value m).map g.snapshotValue = (f.value m).map f.snapshotValue
  text_eq : ∀ m, f.Within n m → g.textOf (f.value m) = f.textOf (f.value m)

namespace Alike

variable {f g : Forest} {n : NodeId}

theorem child (h : f.Alike g n) {c : NodeId} (hc : f.parent c = some n) : f.Alike g c where
  cell_eq m hm := h.cell_eq m (hm.of_child hc)
  snapshot_eq m hm := h.snapshot_eq m (hm.of_child hc)
  text_eq m hm := h.text_eq m (hm.of_child hc)

variable (h : f.Alike g n)

include h

theorem name_eq {m : NodeId} (hm : f.Within n m) : g.name m = f.name m :=
  congrArg Cell.name (h.cell_eq m hm)

theorem value_eq {m : NodeId} (hm : f.Within n m) : g.value m = f.value m :=
  congrArg Cell.value (h.cell_eq m hm)

theorem children_eq {m : NodeId} (hm : f.Within n m) : g.children m = f.children m :=
  congrArg Cell.children (h.cell_eq m hm)

theorem comparisonHolds_eq (name : String) {a b : NodeId} (ha : f.Within n a) (hb : f.Within n b) :
    g.comparisonHolds name (g.value a) (g.value b) =
      f.comparisonHolds name (f.value a) (f.value b) := by
  rw [h.value_eq ha, h.value_eq hb]
  exact comparisonHolds_congr name (h.snapshot_eq a ha) (h.text_eq a ha) (h.snapshot_eq b hb)
    (h.text_eq b hb)

variable (wf : f.WellFormed)

include wf

theorem statements_eq : g.statements n = f.statements n := by
  rw [statements, h.children_eq (Or.inl rfl), statements]
  refine List.filter_congr fun c hc => ?_
  rw [isStatement, h.name_eq (Or.inr (above_of_parent ((wf.linked n c).mp hc))), isStatement]

end Alike

section Congr

variable {f g : Forest} (wf : f.WellFormed)

include wf

theorem parent_of_statement {n c : NodeId} (hc : c ∈ f.statements n) : f.parent c = some n :=
  (wf.linked n c).mp (List.mem_filter.mp hc).1

theorem clause_congr {n c : NodeId} (h : f.Alike g n) (hc : c ∈ f.statements n)
    {meaning meaning' : NodeId → Bool} (hm : meaning' c = meaning c) :
    g.clause meaning' n c = f.clause meaning n c := by
  have hwithin : f.Within n c := Or.inr (above_of_parent (parent_of_statement wf hc))
  rw [clause, h.name_eq hwithin, hm, h.comparisonHolds_eq _ (Or.inl rfl) hwithin, clause]

theorem meaning_congr (height : Nat) {n : NodeId} (h : f.Alike g n) :
    g.meaning height n = f.meaning height n := by
  induction height generalizing n with
  | zero => rfl
  | succ height ih =>
    rw [meaning, meaning, h.statements_eq wf, h.value_eq (Or.inl rfl), reading, reading]
    congr 1
    refine List.foldl_ext _ _ _ fun r c hc => ?_
    rw [clause_congr wf h hc (ih (h.child (parent_of_statement wf hc)))]

theorem passed_congr (height : Nat) {n : NodeId} (h : f.Alike g n) :
    g.passed height n = f.passed height n := by
  induction height generalizing n with
  | zero => rfl
  | succ height ih =>
    have key : ∀ cs r, (∀ c ∈ cs, c ∈ f.statements n) →
        g.passedAmong (g.meaning height) (g.passed height) n r cs =
          f.passedAmong (f.meaning height) (f.passed height) n r cs := by
      intro cs
      induction cs with
      | nil => exact fun _ _ => rfl
      | cons c cs ihc =>
        intro r hcs
        have hc := h.child (parent_of_statement wf (hcs c List.mem_cons_self))
        rw [passedAmong, passedAmong, passedAt, passedAt,
          clause_congr wf h (hcs c List.mem_cons_self) (meaning_congr wf height hc), ih hc,
          ihc _ fun d hd => hcs d (List.mem_cons_of_mem _ hd)]
    rw [passed, passed, h.statements_eq wf, h.value_eq (Or.inl rfl)]
    exact key _ _ fun c hc => hc

theorem Conditional.congr {height : Nat} {n : NodeId} (hc : f.Conditional height n)
    (h : f.Alike g n) : g.Conditional height n := by
  induction height generalizing n with
  | zero => exact hc
  | succ height ih =>
    obtain ⟨hconstant, hunmarked, compared, operators, hstatements, hlength, hcompared, hoperators⟩ := hc
    have hchildren : g.children n = f.children n := h.children_eq (Or.inl rfl)
    have hparent : ∀ c ∈ compared ++ operators, f.parent c = some n := fun c hc =>
      parent_of_statement wf (hstatements ▸ hc)
    have hwithin : ∀ c, f.parent c = some n → f.Within n c := fun c hp => Or.inr (above_of_parent hp)
    refine ⟨hconstant.congr (h.value_eq (Or.inl rfl)), ?_, compared, operators,
      (h.statements_eq wf).trans hstatements, hlength, ?_, ?_⟩
    · intro c hc
      rw [hchildren] at hc
      rw [h.name_eq (hwithin c ((wf.linked n c).mp hc))]
      exact hunmarked c hc
    · intro c hc
      have hc' := hwithin c (hparent c (List.mem_append_left _ hc))
      rw [h.name_eq hc']
      exact ⟨(hcompared c hc).1, (hcompared c hc).2.congr (h.value_eq hc')⟩
    · intro c hc
      have hp := hparent c (List.mem_append_right _ hc)
      rw [h.name_eq (hwithin c hp), h.children_eq (hwithin c hp), h.value_eq (hwithin c hp)]
      exact (hoperators c hc).imp id fun ho => ⟨ho.1, ih ho.2 (h.child hp)⟩

end Congr

end Forest

end EventTree
