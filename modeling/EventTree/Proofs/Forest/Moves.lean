import EventTree.Proofs.Forest.Histories
import EventTree.Proofs.Results

/-!
# What moves do

When `insert`, `untie` and `replace` fail, and all links of the forest once they have succeeded. What
a move fails on is seen in the forest as it is, before anything is taken out, so a move that fails
leaves all as it was.
-/

namespace EventTree

namespace Forest

/-- The children of a node without one of them. -/
def childrenBut (f : Forest) (c p : NodeId) : List NodeId := (f.children p).filter (· ≠ c)

/-- The same nodes with the same names and values, and with these parents and children. -/
structure Relinked (f : Forest) (parent : NodeId → Option NodeId)
    (children : NodeId → List NodeId) (g : Forest) : Prop where
  wellFormed : g.WellFormed
  size_eq : g.size = f.size
  name_eq : ∀ m, g.name m = f.name m
  value_eq : ∀ m, g.value m = f.value m
  parent_eq : ∀ m, g.parent m = parent m
  children_eq : ∀ q, g.children q = children q

theorem untie_fails_iff {f : Forest} {x : NodeId} :
    (∃ cause, f.untie x = .error cause) ↔ f.parent x = none := by
  unfold untie untieFault?
  by_cases h : f.parent x = none <;> simp [h]

theorem replace_self {f : Forest} {x p : NodeId} (h : f.parent x = some p) :
    f.replace x x = .ok f := by
  simp [replace, replaceFault?, exchange, h]

namespace WellFormed

variable {f : Forest} (wf : f.WellFormed)

include wf

theorem childrenBut_eq (c q : NodeId) :
    f.childrenBut c q = if f.parent c = some q then f.childrenBut c q else f.children q := by
  split
  · rfl
  · exact wf.filter_children ‹_›

theorem length_childrenBut (c p : NodeId) : (f.childrenBut c p).length = f.available p c := by
  rw [← wf.length_children_detach, wf.children_detach, childrenBut]

/-! ## Inserting -/

theorem insert_last (p c : NodeId) :
    f.insert p none c = f.insert p (some (f.childrenBut c p).length) c := by
  unfold Forest.insert insertFault? Forest.moveTo
  simp only [wf.length_childrenBut, Option.getD_none, Option.getD_some]

theorem insert_fails_iff {p c : NodeId} {i : Nat} :
    (∃ cause, f.insert p (some i) c = .error cause) ↔
      c = p ∨ f.Above c p ∨ (f.childrenBut c p).length < i := by
  rw [← or_assoc, ← wf.isAncestor_iff, wf.length_childrenBut]
  unfold Forest.insert insertFault?
  by_cases hc : c = p ∨ f.isAncestor c p
  · simp [hc]
  · by_cases hi : f.available p c < i <;> simp [hc, hi]

theorem insert_relinks {p c : NodeId} {i : Nat} (hp : f.Has p) (hc : f.Has c) {g : Forest}
    (h : f.insert p (some i) c = .ok g) :
    f.Relinked (fun m => if m = c then some p else f.parent m)
      (fun q =>
        if q = p then (f.childrenBut c p).insertIdx i c
        else if f.parent c = some q then f.childrenBut c q
        else f.children q) g := by
  obtain ⟨hfault, rfl⟩ := insert_eq_ok h
  obtain ⟨hparent, hchildren⟩ := wf.links_moveTo hp hc hfault
  refine ⟨wf.moveTo hp hc hfault, size_moveTo, fun _ => name_moveTo, fun _ => value_moveTo, hparent,
    fun q => ?_⟩
  rw [hchildren, ← wf.childrenBut_eq]
  rfl

/-! ## Taking out -/

theorem untie_relinks {x : NodeId} {g : Forest} (h : f.untie x = .ok g) :
    f.Relinked (fun m => if m = x then none else f.parent m)
      (fun q => if f.parent x = some q then f.childrenBut x q else f.children q) g := by
  obtain rfl := untie_eq_ok h
  refine ⟨wf.detach x, size_detach, fun _ => name_detach, fun _ => value_detach,
    fun _ => parent_detach, fun q => ?_⟩
  rw [wf.children_detach, ← wf.childrenBut_eq, childrenBut]

/-! ## Replacing -/

theorem replace_eq_error_iff {x y : NodeId} {cause : Cause} :
    f.replace x y = .error cause ↔
      f.parent x = none ∧ cause = .replaceRoot (f.name x) ∨
        f.parent x ≠ none ∧ f.Above y x ∧ cause = .replaceByAncestor (f.name x) (f.name y) := by
  unfold Forest.replace
  cases hp : f.parent x with
  | none => simp [replaceFault?, hp, eq_comm]
  | some p =>
    by_cases hne : y = x
    · have hna : ¬ f.Above x x := wf.acyclic x
      simp [replaceFault?, hp, hne, hna]
    · rw [wf.replaceFault?_eq hp hne, ← wf.isAncestor_iff]
      by_cases ha : f.isAncestor y x <;> simp [ha, eq_comm]

/-- The place of `x` is looked for when `y` has been taken out, which may stand before it in the same
list. -/
theorem replace_relinks {x y p : NodeId} (hy : f.Has y) (hne : y ≠ x) (hp : f.parent x = some p)
    {g : Forest} (h : f.replace x y = .ok g) :
    ∃ before after, f.childrenBut y p = before ++ x :: after ∧
      f.Relinked (fun m => if m = y then some p else if m = x then none else f.parent m)
        (fun q =>
          if q = p then before ++ y :: after
          else if f.parent y = some q then f.childrenBut y q
          else f.children q) g := by
  have wg := wf.replace hy h
  have wf₁ := wf.detach y
  obtain ⟨hself, -⟩ | ⟨-, -, -, hna, rfl⟩ := wf.replace_eq_ok h
  · exact absurd hself hne
  have hpx : (f.detach y).parent x = some p := by rw [parent_detach, if_neg (Ne.symm hne), hp]
  obtain ⟨i, -, hi⟩ := wf₁.index_of_child hpx
  rw [wf.exchange_eq hp hne hy hna hi] at wg ⊢
  have ha := wf.attachable_exchange hp hne hy hna
  obtain ⟨hlt, hx, -⟩ := List.idxOf?_eq_some_iff.mp hi
  refine ⟨((f.detach y).children p).take i, ((f.detach y).children p).drop (i + 1), ?_,
    wg, by simp, fun m => by simp [link], fun m => by simp [link], fun m => ?_, fun q => ?_⟩
  · rw [childrenBut, ← wf.children_detach]
    conv_lhs => rw [← List.take_append_drop i ((f.detach y).children p)]
    rw [List.drop_eq_getElem_cons hlt, hx]
  · rw [link, ha.parent_attach, parent_detach, parent_detach]
    grind
  · rw [link, ha.children_attach, wf₁.children_detach]
    by_cases hq : q = p
    · rw [if_pos hq, if_pos hq, insertIdx_filter_eq_set (wf₁.nodup p) hi,
        List.set_eq_take_append_cons_drop, if_pos hlt]
    · have hxq : (f.detach y).parent x ≠ some q := by
        rw [hpx]
        exact fun e => hq (Option.some.inj e).symm
      rw [if_neg hq, if_neg hq, wf₁.children_detach, wf₁.filter_children hxq, wf.children_detach,
        ← wf.childrenBut_eq, childrenBut]

end WellFormed

end Forest

/-! ## The main statement -/

theorem Action.unchanged_of_error {fault : Option Cause} {test : Action (Option Cause)}
    {change : Forest → Forest} {hold : Hold} {w w' : World} {stop : Stop}
    (htest : test.result hold w = (.ok fault, w))
    (h : (test >>= fun fault => failIf fault >>= fun _ => edit change).result hold w =
      (.error stop, w')) : w' = w := by
  rw [result_bind_ok htest] at h
  cases fault with
  | none => rw [result_bind_ok result_failIf_none, result_edit] at h; cases h
  | some cause => rw [result_bind_error (result_failIf_some cause)] at h; cases h; rfl

/-- When a move fails, and what it does to every node when it does not. Both faults of a replacement
are seen before anything is moved. -/
theorem Forest.moves_exact {f : Forest} (wf : f.WellFormed) {p c x y : NodeId} (hp : f.Has p)
    (hc : f.Has c) (hy : f.Has y) (i : Nat) :
    (((∃ cause, f.insert p (some i) c = .error cause) ↔
        c = p ∨ f.Above c p ∨ (f.childrenBut c p).length < i) ∧
      (∀ g, f.insert p (some i) c = .ok g →
        f.Relinked (fun m => if m = c then some p else f.parent m)
          (fun q =>
            if q = p then (f.childrenBut c p).insertIdx i c
            else if f.parent c = some q then f.childrenBut c q
            else f.children q) g) ∧
      f.insert p none c = f.insert p (some (f.childrenBut c p).length) c) ∧
    (((∃ cause, f.untie x = .error cause) ↔ f.parent x = none) ∧
      ∀ g, f.untie x = .ok g →
        f.Relinked (fun m => if m = x then none else f.parent m)
          (fun q => if f.parent x = some q then f.childrenBut x q else f.children q) g) ∧
    (((∃ cause, f.replace x y = .error cause) ↔ f.parent x = none ∨ f.Above y x) ∧
      (∀ cause, f.replace x y = .error cause →
        cause = .replaceRoot (f.name x) ∨ cause = .replaceByAncestor (f.name x) (f.name y)) ∧
      ∀ g q, f.replace x y = .ok g → f.parent x = some q →
        (y = x → g = f) ∧
        (y ≠ x → ∃ before after, f.childrenBut y q = before ++ x :: after ∧
          f.Relinked (fun m => if m = y then some q else if m = x then none else f.parent m)
            (fun k =>
              if k = q then before ++ y :: after
              else if f.parent y = some k then f.childrenBut y k
              else f.children k) g)) ∧
    ∀ act ∈ [Action.insert p (some i) c, Action.insert p none c, Action.untie x,
        Action.replace x y], ∀ hold w stop w',
      act.result hold w = (.error stop, w') → w' = w := by
  refine ⟨⟨wf.insert_fails_iff, fun g => wf.insert_relinks hp hc, wf.insert_last p c⟩,
    ⟨untie_fails_iff, fun g => wf.untie_relinks⟩, ⟨?_, ?_, ?_⟩, ?_⟩
  · constructor
    · rintro ⟨cause, h⟩
      rcases wf.replace_eq_error_iff.mp h with ⟨hroot, -⟩ | ⟨-, ha, -⟩
      · exact Or.inl hroot
      · exact Or.inr ha
    · rintro (hroot | ha)
      · exact ⟨_, wf.replace_eq_error_iff.mpr (Or.inl ⟨hroot, rfl⟩)⟩
      · obtain ⟨q, hq, -⟩ := above_iff.mp ha
        exact ⟨_, wf.replace_eq_error_iff.mpr (Or.inr ⟨by simp [hq], ha, rfl⟩)⟩
  · intro cause h
    rcases wf.replace_eq_error_iff.mp h with ⟨-, h⟩ | ⟨-, -, h⟩
    · exact Or.inl h
    · exact Or.inr h
  · intro g q h hq
    refine ⟨?_, fun hne => wf.replace_relinks hy hne hq h⟩
    rintro rfl
    rw [replace_self hq] at h
    exact (Except.ok.inj h).symm
  · intro act hact hold w stop w' h
    simp only [List.mem_cons, List.not_mem_nil, or_false] at hact
    rcases hact with rfl | rfl | rfl | rfl
    · exact Action.unchanged_of_error (Action.result_ask _) h
    · exact Action.unchanged_of_error (Action.result_ask _) h
    · exact Action.unchanged_of_error (Action.result_observe _) h
    · exact Action.unchanged_of_error (Action.result_observe _) h

/-- A move to the end of the same list, and a replacement by an earlier sibling. -/
theorem Forest.moves_exact_of_siblings :
    let f := Forest.empty.perform [.new "r", .addChild ⟨0⟩ "a", .addChild ⟨0⟩ "b",
      .addChild ⟨0⟩ "c", .addChild ⟨3⟩ "d"]
    let g := (f.insert ⟨0⟩ (some 2) ⟨1⟩).toOption.getD f
    let h := (f.replace ⟨2⟩ ⟨1⟩).toOption.getD f
    f.WellFormed ∧ f.Has ⟨0⟩ ∧ f.Has ⟨1⟩ ∧
      g.children ⟨0⟩ = [⟨2⟩, ⟨3⟩, ⟨1⟩] ∧ g.children ⟨3⟩ = [⟨4⟩] ∧
      h.parent ⟨2⟩ = none ∧ ∃ before after, f.childrenBut ⟨1⟩ ⟨0⟩ = before ++ ⟨2⟩ :: after ∧
        h.children ⟨0⟩ = before ++ ⟨1⟩ :: after := by
  intro f g h
  have wf : f.WellFormed := wellFormed_empty.perform (by decide)
  have hp : f.Has ⟨0⟩ := by decide
  have hc : f.Has ⟨1⟩ := by decide
  obtain ⟨⟨-, hinsert, -⟩, -, ⟨-, -, hreplace⟩, -⟩ :=
    Forest.moves_exact (x := ⟨2⟩) wf hp hc hc 2
  have hg := hinsert g (by decide)
  obtain ⟨before, after, hsplit, hh⟩ := (hreplace h ⟨0⟩ (by decide) (by decide)).2 (by decide)
  refine ⟨wf, hp, hc, ?_, ?_, ?_, before, after, hsplit, ?_⟩
  · rw [hg.children_eq]
    decide
  · rw [hg.children_eq]
    decide
  · rw [hh.parent_eq]
    decide
  · rw [hh.children_eq, if_pos rfl]

end EventTree
