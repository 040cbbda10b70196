import EventTree.Proofs.Forest.Planting
import EventTree.Proofs.Forest.Views

/-!
# Faithful copies

A planted tree is viewed as the tree that was planted, for as long as its nodes keep their names, values
and children. A copy is the view of a node planted again, so it shows what the node showed.
-/

namespace EventTree.Forest

/-- A node has the same name, value and children in both forests. -/
structure SameNode (f g : Forest) (n : NodeId) : Prop where
  name : g.name n = f.name n
  value : g.value n = f.value n
  children : g.children n = f.children n

/-- A value with the trees that are in it. -/
def viewValue (f : Forest) (v : Option LiveValue) : Option (Value (Tree Selector) Selector) :=
  v.map (Value.map f.view id)

namespace SameNode

variable {f g h : Forest} {n : NodeId}

theorem of_cell (hcell : g.cell n = f.cell n) : f.SameNode g n :=
  ⟨congrArg Cell.name hcell, congrArg Cell.value hcell, congrArg Cell.children hcell⟩

theorem trans (hg : f.SameNode g n) (hh : g.SameNode h n) : f.SameNode h n :=
  ⟨hh.name.trans hg.name, hh.value.trans hg.value, hh.children.trans hg.children⟩

theorem append {p c : NodeId} (hne : n ≠ p) : f.SameNode (f.append p c) n := by
  refine ⟨by simp [Forest.append], by simp [Forest.append], ?_⟩
  rw [Forest.append, Forest.children, setChildren, cell_update_ne hne]
  exact children_setParent

end SameNode

/-! ## What planting below a node leaves -/

section Below

variable {f : Forest} (wf : f.WellFormed) {n : NodeId} (hn : f.Has n) (ts : List (Tree Selector))

include wf hn

theorem size_le_plantBelow : f.size ≤ (plantBelow n ts f).size := by
  induction ts generalizing f with
  | nil => rw [plantBelow]
  | cons t ts ih =>
    have h := planted t f wf
    have ha := h.attachable wf hn
    rw [plantBelow_cons]
    refine Nat.le_trans h.grown.size_le (Nat.le_trans (by simp)
      (ih (ha.wellFormed_append h.wellFormed) ?_))
    simpa [Has] using ha.has_parent

theorem sameNode_plantBelow {m : NodeId} (hm : f.Has m) (hne : m ≠ n) :
    f.SameNode (plantBelow n ts f) m := by
  induction ts generalizing f with
  | nil => rw [plantBelow]; exact .of_cell rfl
  | cons t ts ih =>
    have h := planted t f wf
    have ha := h.attachable wf hn
    rw [plantBelow_cons]
    refine ((SameNode.of_cell (h.grown.cell_eq m hm)).trans (.append hne)).trans
      (ih (ha.wellFormed_append h.wellFormed) ?_ ?_)
    · simpa [Has] using ha.has_parent
    · simpa [Has] using h.grown.has hm

theorem value_plantBelow : (plantBelow n ts f).value n = f.value n := by
  induction ts generalizing f with
  | nil => rw [plantBelow]
  | cons t ts ih =>
    have h := planted t f wf
    have ha := h.attachable wf hn
    rw [plantBelow_cons, ih (ha.wellFormed_append h.wellFormed), Forest.append, value_setChildren,
      value_setParent, h.grown.value_eq hn]
    simpa [Has] using ha.has_parent

end Below

/-! ## Views of what was planted -/

mutual

/-- Every level of the tree was planted after its root, so there are levels enough. -/
theorem viewTo_plant (t : Tree Selector) (f : Forest) (wf : f.WellFormed) {h : Forest} {fuel : Nat}
    (hsame : ∀ k, ¬ f.Has k → (plant t f).2.Has k → (plant t f).2.SameNode h k)
    (hfuel : (plant t f).2.size ≤ fuel + f.size) : h.viewTo fuel (plant t f).1 = t := by
  match t with
  | ⟨name, v, ts⟩ =>
    have hplanted := planted ⟨name, v, ts⟩ f wf
    have hroot := hsame _ hplanted.not_has hplanted.has
    have hname := name_plant wf ⟨name, v, ts⟩
    rw [plant_eq] at hsame hfuel hroot hname ⊢
    dsimp only at hsame hfuel hroot hname ⊢
    have hv := plantedValue v (f.create name).2 (wf.create name)
    have hhas := hv.grown.has (has_create_self (f := f) (a := name))
    have hwf := hv.wellFormed.setValue ⟨f.size⟩ fun m hm => (hv.node m hm).2
    have hn : ((plantValue v (f.create name).2).2.setValue ⟨f.size⟩
        (plantValue v (f.create name).2).1).Has ⟨f.size⟩ := has_setValue.mpr hhas
    have hsize := size_le_plantBelow hwf hn ts
    have hvsize := hv.grown.size_le
    rw [size_setValue] at hsize
    rw [size_create] at hvsize
    obtain ⟨k, rfl⟩ : ∃ k, fuel = k + 1 := ⟨fuel - 1, by omega⟩
    have hnew : ¬ f.Has ⟨f.size⟩ := Nat.lt_irrefl _
    have hold : ∀ {m : NodeId}, ¬ (f.create name).2.Has m → ¬ f.Has m := fun hm h =>
      hm (((Grown.refl f).create name).has h)
    -- The root was made first, then its value, then what is below it.
    have hvalue : (plantValue v (f.create name).2).1.map (Value.map (h.viewTo k) id) = v := by
      refine viewTo_plantValue v (f.create name).2 (wf.create name) (fun m hm hg => ?_) (by
        rw [size_create]; omega)
      have hne : m ≠ ⟨f.size⟩ := fun e => hm (e ▸ has_create_self)
      have hcell : (plantValue v (f.create name).2).2.SameNode
          ((plantValue v (f.create name).2).2.setValue ⟨f.size⟩
            (plantValue v (f.create name).2).1) m := .of_cell (cell_update_ne hne)
      have hbelow := sameNode_plantBelow hwf hn ts (has_setValue.mpr hg) hne
      exact (hcell.trans hbelow).trans (hsame m (hold hm)
        (Nat.lt_of_lt_of_le (has_setValue.mpr hg) (size_le_plantBelow hwf hn ts)))
    obtain ⟨cs, hcs, hviews⟩ := viewTo_plantBelow ts _ hwf hn (h := h) k
      (fun m hm hg => hsame m (fun hf => hm (has_setValue.mpr (hv.grown.has
        (((Grown.refl f).create name).has hf)))) hg)
      (by rw [size_setValue]; omega)
    have hnone : f.children ⟨f.size⟩ = [] := children_of_not_has hnew
    rw [children_setValue, hv.grown.children_eq has_create_self, children_create, hnone,
      List.nil_append] at hcs
    rw [viewTo, hroot.name, hroot.value, hroot.children, hname, hcs, hviews,
      value_plantBelow hwf hn, value_setValue hhas, if_pos rfl, hvalue]

theorem viewTo_plantValue (v : Option (Value (Tree Selector) Selector)) (f : Forest)
    (wf : f.WellFormed) {h : Forest} {fuel : Nat}
    (hsame : ∀ k, ¬ f.Has k → (plantValue v f).2.Has k → (plantValue v f).2.SameNode h k)
    (hfuel : (plantValue v f).2.size ≤ fuel + f.size) :
    (plantValue v f).1.map (Value.map (h.viewTo fuel) id) = v := by
  match v with
  | some (.node t) =>
    rw [plantValue] at hsame hfuel ⊢
    simp [Value.map, viewTo_plant t f wf hsame hfuel]
  | none | some (.bool _) | some (.int _) | some (.float _) | some (.string _)
  | some (.selector _) => rw [plantValue]; rfl

theorem viewTo_plantBelow (ts : List (Tree Selector)) (f : Forest) (wf : f.WellFormed) {n : NodeId}
    (hn : f.Has n) {h : Forest} (fuel : Nat)
    (hsame : ∀ k, ¬ f.Has k → (plantBelow n ts f).Has k → (plantBelow n ts f).SameNode h k)
    (hfuel : (plantBelow n ts f).size ≤ fuel + f.size) :
    ∃ cs, (plantBelow n ts f).children n = f.children n ++ cs ∧ cs.map (h.viewTo fuel) = ts := by
  match ts with
  | [] => exact ⟨[], by simp [plantBelow]⟩
  | t :: ts =>
    have hp := planted t f wf
    have ha := hp.attachable wf hn
    have hwf := ha.wellFormed_append hp.wellFormed
    have hn' : ((plant t f).2.append n (plant t f).1).Has n := by simpa [Has] using ha.has_parent
    rw [plantBelow_cons] at hsame hfuel ⊢
    have hsize := size_le_plantBelow hwf hn' ts
    have hpsize := hp.grown.size_le
    rw [size_append] at hsize
    -- The first tree stays as it was planted while the others are planted beside it.
    have hfirst : h.viewTo fuel (plant t f).1 = t := by
      refine viewTo_plant t f wf (fun k hk hg => ?_) (by omega)
      have hne : k ≠ n := fun e => hk (e ▸ hn)
      have hk' : ((plant t f).2.append n (plant t f).1).Has k := by simpa [Has] using hg
      exact ((SameNode.append hne).trans (sameNode_plantBelow hwf hn' ts hk' hne)).trans
        (hsame k hk (Nat.lt_of_lt_of_le hk' (size_le_plantBelow hwf hn' ts)))
    obtain ⟨cs, hcs, hviews⟩ := viewTo_plantBelow ts _ hwf hn' (h := h) fuel
      (fun k hk hg => hsame k (fun hf => hk (by simpa [Has] using hp.grown.has hf)) hg)
      (by rw [size_append]; omega)
    refine ⟨(plant t f).1 :: cs, ?_, by simp [hfirst, hviews]⟩
    rw [hcs, Forest.append, ha.children_attach, if_pos rfl, hp.grown.children_eq hn]
    simp

end

/-! ## Views of copies -/

theorem IsFinite.view_eq {f g : Forest} {n : NodeId} (h : f.IsFinite n) (wf : f.WellFormed)
    (hn : f.Has n) (hg : f.Grown g) : g.view n = f.view n :=
  Apart.view_unchanged h wf hn (fun m hm _ => hg.cell_eq m hm) hg.size_le

section Copies

variable {f h : Forest} (wf : f.WellFormed)

include wf

theorem view_copy {n : NodeId}
    (hsame : ∀ k, ¬ f.Has k → (f.copy n).2.Has k → (f.copy n).2.SameNode h k)
    (hsize : (f.copy n).2.size ≤ h.size) : h.view (f.copy n).1 = f.view n :=
  viewTo_plant (f.view n) f wf hsame (Nat.le_trans hsize (Nat.le_add_right _ _))

theorem viewValue_copyValue {v : Option LiveValue}
    (hsame : ∀ k, ¬ f.Has k → (f.copyValue v).2.Has k → (f.copyValue v).2.SameNode h k)
    (hsize : (f.copyValue v).2.size ≤ h.size) : h.viewValue (f.copyValue v).1 = f.viewValue v := by
  match v with
  | some (.node n) =>
    have hview : h.view (f.copy n).1 = f.view n := view_copy wf hsame hsize
    simp [copyValue, viewValue, Value.map, hview]
  | none | some (.bool _) | some (.int _) | some (.float _) | some (.string _)
  | some (.selector _) => rfl

end Copies

end EventTree.Forest
