import EventTree.Keyword.Trap
import EventTree.Proofs.Forest.Holds
import EventTree.Proofs.Results

/-!
# Lent children

Nodes are lent to a parent by inserting them one after the other. A `catch` gets the details of an error
as its first children and gives them back; what a program returns comes after the children of a node and
stays there. Where nothing that is lent lies above the parent, both succeed, and they touch no links but
those of the nodes that are lent.
-/

namespace EventTree.Keyword

open EventTree.Action

/-- `g` is `f` with the nodes `ds` below `p`, wherever they were before. -/
structure Lent (p : NodeId) (ds : List NodeId) (f g : Forest) : Prop where
  wellFormed : g.WellFormed
  size_eq : g.size = f.size
  name_eq : ∀ m, g.name m = f.name m
  value_eq : ∀ m, g.value m = f.value m
  parent_eq : ∀ m, g.parent m = if m ∈ ds then some p else f.parent m
  children_ne : ∀ q, q ≠ p → g.children q = (f.children q).filter (· ∉ ds)

structure Lendable (f : Forest) (p d : NodeId) : Prop where
  has : f.Has d
  ne : d ≠ p
  not_above : ¬ f.Above d p

section Lists

variable (d : NodeId) (ds before after : List NodeId)

theorem filter_not_mem_cons :
    (after.filter (· ≠ d)).filter (· ∉ ds) = after.filter (· ∉ d :: ds) := by
  rw [List.filter_filter]
  apply List.filter_congr
  intro x _
  by_cases h : x = d <;> simp [h]

theorem insertIdx_append_length :
    (before ++ after).insertIdx before.length d = before ++ d :: after := by
  induction before with
  | nil => rfl
  | cons x before ih => simp [ih]

end Lists

namespace Lent

variable {f g h : Forest} {p d x : NodeId} {ds : List NodeId}

theorem refl (wf : f.WellFormed) : Lent p [] f f :=
  ⟨wf, rfl, fun _ => rfl, fun _ => rfl, fun _ => by simp, fun _ _ => by simp⟩

theorem cons (hg : Lent p [d] f g) (hh : Lent p ds g h) : Lent p (d :: ds) f h where
  wellFormed := hh.wellFormed
  size_eq := by rw [hh.size_eq, hg.size_eq]
  name_eq m := by rw [hh.name_eq, hg.name_eq]
  value_eq m := by rw [hh.value_eq, hg.value_eq]
  parent_eq m := by
    rw [hh.parent_eq, hg.parent_eq]
    by_cases hm : m = d <;> simp [hm]
  children_ne q hq := by
    rw [hh.children_ne q hq, hg.children_ne q hq]
    simp only [List.mem_singleton]
    exact filter_not_mem_cons d ds _

/-- A new link leads down from `p`, so it is on no way up from `p`. -/
theorem lendable (hg : Lent p [d] f g) (hd : Lendable f p d) (hx : Lendable f p x) :
    Lendable g p x := by
  refine ⟨by simpa [Forest.Has, hg.size_eq] using hx.has, hx.ne, fun h => ?_⟩
  have hparent : ∀ m, g.parent m = if m = d then some p else f.parent m := by
    simpa using hg.parent_eq
  rcases Forest.above_attach hparent h with h | ⟨h | h, -⟩
  · exact hx.not_above h
  · exact hd.ne h.symm
  · exact hd.not_above h

theorem cell_eq (hg : Lent p ds f g) (hp : x ≠ p) (hx : x ∉ ds) (hc : ∀ c ∈ f.children x, c ∉ ds) :
    g.cell x = f.cell x := by
  apply Forest.cell_ext
  · exact hg.name_eq x
  · exact hg.value_eq x
  · change g.parent x = f.parent x
    rw [hg.parent_eq, if_neg hx]
  · change g.children x = f.children x
    rw [hg.children_ne x hp, List.filter_eq_self]
    exact fun c hcx => decide_eq_true (hc c hcx)

end Lent

/-! ## Inserting -/

section Inserting

variable {p : NodeId} {ds : List NodeId} {w : World} (hold : Hold) (wf : w.forest.WellFormed)
  (hp : w.forest.Has p)

include wf hp

theorem insert_lends {d : NodeId} {position : Option Nat} {before after : List NodeId}
    (hc : w.forest.children p = before ++ after) (hd : Lendable w.forest p d) (hdb : d ∉ before)
    (hpos : position.getD (w.forest.available p d) = before.length) :
    ∃ g, (insert p position d).result hold w = (.ok (), { w with forest := g }) ∧
      Lent p [d] w.forest g ∧ g.children p = before ++ d :: after.filter (· ≠ d) := by
  have hfilter : (w.forest.children p).filter (· ≠ d) = before ++ after.filter (· ≠ d) := by
    rw [hc, List.filter_append, List.filter_eq_self.mpr]
    intro x hx
    exact decide_eq_true fun e => hdb (e ▸ hx)
  -- Positions are counted without `d`, wherever it is now.
  have havail : before.length ≤ w.forest.available p d := by
    rw [← wf.length_children_detach, wf.children_detach, hfilter, List.length_append]
    omega
  have hfault : w.forest.insertFault? p position d = none :=
    Forest.insertFault?_eq_none wf hd.ne hd.not_above (by rwa [hpos])
  obtain ⟨hparent, hchildren⟩ := wf.links_moveTo hp hd.has hfault
  refine ⟨_, result_insert_of_none hfault, ⟨wf.moveTo hp hd.has hfault, by simp, by simp, by simp,
    by simpa using hparent, fun q hq => ?_⟩, ?_⟩
  · rw [hchildren, if_neg hq]
    simp
  · rw [hchildren, if_pos rfl, hfilter, hpos, insertIdx_append_length]

omit hp in
theorem insertFirst_lends {d : NodeId} (ha : w.forest.Attachable p d) :
    ∃ g, (insert p (some 0) d).result hold w = (.ok (), { w with forest := g }) ∧
      Lent p [d] w.forest g ∧ g.children p = d :: w.forest.children p := by
  have hpos : (some 0).getD (w.forest.available p d) = ([] : List NodeId).length := rfl
  obtain ⟨g, hrun, hl, hg⟩ := insert_lends hold wf ha.has_parent (List.nil_append _).symm
    ⟨ha.has_child, ha.ne, ha.not_above⟩ List.not_mem_nil hpos
  refine ⟨g, hrun, hl, ?_⟩
  rw [hg, List.nil_append, List.filter_eq_self.mpr]
  intro c hc
  refine decide_eq_true ?_
  rintro rfl
  cases ha.root.symm.trans ((wf.linked p c).mp hc)

theorem insertAll_lends (before after : List NodeId) (hc : w.forest.children p = before ++ after)
    (hnodup : ds.Nodup) (hlend : ∀ d ∈ ds, Lendable w.forest p d) (hbefore : ∀ d ∈ ds, d ∉ before) :
    ∃ g, (insertAll p before.length ds).result hold w = (.ok (), { w with forest := g }) ∧
      Lent p ds w.forest g ∧ g.children p = before ++ ds ++ after.filter (· ∉ ds) := by
  induction ds generalizing w before after with
  | nil => exact ⟨w.forest, rfl, .refl wf, by simp [hc]⟩
  | cons d ds ih =>
    have hd := hlend d List.mem_cons_self
    have hnd := List.nodup_cons.mp hnodup
    have hpos : (some before.length).getD (w.forest.available p d) = before.length := rfl
    obtain ⟨g₁, hrun₁, hl₁, hc₁⟩ := insert_lends hold wf hp hc hd (hbefore d List.mem_cons_self) hpos
    have hbefore₁ : ∀ x ∈ ds, x ∉ before ++ [d] := by
      intro x hx hm
      rcases List.mem_append.mp hm with hm | hm
      · exact hbefore x (List.mem_cons_of_mem _ hx) hm
      · exact hnd.1 (List.mem_singleton.mp hm ▸ hx)
    obtain ⟨g, hrun, hl, hg⟩ := ih (w := { w with forest := g₁ }) hl₁.wellFormed
      (by simpa [Forest.Has, hl₁.size_eq] using hp) (before ++ [d]) (after.filter (· ≠ d))
      (by simpa using hc₁) hnd.2
      (fun x hx => hl₁.lendable hd (hlend x (List.mem_cons_of_mem _ hx))) hbefore₁
    refine ⟨g, ?_, hl₁.cons hl, ?_⟩
    · rw [insertAll, result_bind_ok hrun₁]
      simpa using hrun
    · rw [hg, filter_not_mem_cons]
      simp

theorem appendAll_lends (hnodup : ds.Nodup) (hlend : ∀ d ∈ ds, Lendable w.forest p d)
    (helse : ∀ d ∈ ds, w.forest.parent d ≠ some p) :
    ∃ g, (forEach ds fun d => insert p none d).result hold w = (.ok (), { w with forest := g }) ∧
      Lent p ds w.forest g ∧ g.children p = w.forest.children p ++ ds := by
  induction ds generalizing w with
  | nil => exact ⟨w.forest, rfl, .refl wf, by simp⟩
  | cons d ds ih =>
    have hd := hlend d List.mem_cons_self
    have hnd := List.nodup_cons.mp hnodup
    have hdc : d ∉ w.forest.children p := fun h =>
      helse d List.mem_cons_self ((wf.linked p d).mp h)
    have hpos : (none : Option Nat).getD (w.forest.available p d) = (w.forest.children p).length := by
      simp [Forest.available, helse d List.mem_cons_self]
    obtain ⟨g₁, hrun₁, hl₁, hc₁⟩ := insert_lends hold wf hp (List.append_nil _).symm hd hdc hpos
    have helse₁ : ∀ x ∈ ds, g₁.parent x ≠ some p := by
      intro x hx
      have hne : x ≠ d := fun e => hnd.1 (e ▸ hx)
      simpa [hl₁.parent_eq, hne] using helse x (List.mem_cons_of_mem _ hx)
    obtain ⟨g, hrun, hl, hg⟩ := ih (w := { w with forest := g₁ }) hl₁.wellFormed
      (by simpa [Forest.Has, hl₁.size_eq] using hp) hnd.2
      (fun x hx => hl₁.lendable hd (hlend x (List.mem_cons_of_mem _ hx))) helse₁
    refine ⟨g, ?_, hl₁.cons hl, ?_⟩
    · rw [forEach, result_bind_ok hrun₁, hrun]
    · rw [hg, hc₁]
      simp

end Inserting

/-! ## Giving back -/

/-- `g` is `f` without those links from `p` to the nodes `ds` that were left. -/
structure GivenBack (p : NodeId) (ds : List NodeId) (f g : Forest) : Prop where
  wellFormed : g.WellFormed
  size_eq : g.size = f.size
  name_eq : ∀ m, g.name m = f.name m
  value_eq : ∀ m, g.value m = f.value m
  parent_eq : ∀ m, g.parent m = if m ∈ ds ∧ f.parent m = some p then none else f.parent m
  children_eq : ∀ q, g.children q = if q = p then (f.children p).filter (· ∉ ds) else f.children q

namespace GivenBack

variable {f g : Forest} {p d : NodeId} {ds : List NodeId}

theorem nil (wf : f.WellFormed) : GivenBack p [] f f := by
  refine ⟨wf, rfl, fun _ => rfl, fun _ => rfl, fun _ => by simp, fun q => ?_⟩
  by_cases hq : q = p <;> simp [hq]

theorem cons_of_child (wf : f.WellFormed) (hd : f.parent d = some p)
    (hg : GivenBack p ds (f.detach d) g) : GivenBack p (d :: ds) f g where
  wellFormed := hg.wellFormed
  size_eq := by rw [hg.size_eq, Forest.size_detach]
  name_eq m := by rw [hg.name_eq, Forest.name_detach]
  value_eq m := by rw [hg.value_eq, Forest.value_detach]
  parent_eq m := by
    rw [hg.parent_eq, Forest.parent_detach]
    by_cases hm : m = d <;> simp [hm, hd]
  children_eq q := by
    rw [hg.children_eq, wf.children_detach, wf.children_detach, filter_not_mem_cons]
    by_cases hq : q = p
    · rw [if_pos hq, if_pos hq]
    · rw [if_neg hq, if_neg hq, List.filter_eq_self]
      intro x hx
      refine decide_eq_true ?_
      rintro rfl
      rw [wf.linked, hd] at hx
      exact hq (Option.some.inj hx).symm

theorem cons_of_other (wf : f.WellFormed) (hd : f.parent d ≠ some p) (hg : GivenBack p ds f g) :
    GivenBack p (d :: ds) f g where
  wellFormed := hg.wellFormed
  size_eq := hg.size_eq
  name_eq := hg.name_eq
  value_eq := hg.value_eq
  parent_eq m := by
    rw [hg.parent_eq]
    by_cases hm : m = d
    · subst hm
      simp [hd]
    · simp [hm]
  children_eq q := by
    have hmem : d ∉ f.children p := fun h => hd ((wf.linked p d).mp h)
    have hfilter : (f.children p).filter (· ∉ ds) = (f.children p).filter (· ∉ d :: ds) := by
      apply List.filter_congr
      intro x hx
      have hxd : x ≠ d := fun e => hmem (e ▸ hx)
      simp [hxd]
    rw [hg.children_eq, hfilter]

end GivenBack

theorem untieFrom_givesBack {hold : Hold} {p : NodeId} (hheld : p ∈ hold.held) (ds : List NodeId)
    {w : World} (wf : w.forest.WellFormed) :
    ∃ g, (untieFrom p ds).result hold w = (.ok (), { w with forest := g }) ∧
      GivenBack p ds w.forest g := by
  unfold untieFrom
  induction ds generalizing w with
  | nil => exact ⟨w.forest, rfl, .nil wf⟩
  | cons d ds ih =>
    rw [forEach]
    -- A node that was moved elsewhere in the meantime stays there.
    by_cases hd : w.forest.parent d = some p
    · have hstep : (do if (← ask (·.parent d)) = some p then untie d : Action Unit).result hold w =
          (.ok (), { w with forest := w.forest.detach d }) := by
        rw [result_bind_ok (result_ask _), if_pos hd]
        exact result_untie (wf.parent_seen hheld hd)
      obtain ⟨g, hrun, hg⟩ := ih (w := { w with forest := w.forest.detach d }) (wf.detach d)
      refine ⟨g, ?_, .cons_of_child wf hd hg⟩
      rw [result_bind_ok hstep]
      exact hrun
    · have hstep : (do if (← ask (·.parent d)) = some p then untie d : Action Unit).result hold w =
          (.ok (), w) := by
        rw [result_bind_ok (result_ask _), if_neg hd]
        rfl
      obtain ⟨g, hrun, hg⟩ := ih wf
      refine ⟨g, ?_, .cons_of_other wf hd hg⟩
      rw [result_bind_ok hstep]
      exact hrun

end EventTree.Keyword
