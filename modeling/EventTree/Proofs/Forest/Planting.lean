import EventTree.Forest.Plant
import EventTree.Proofs.Forest.Editing

/-!
# Planting apart

A planted tree, and so a copy, stands apart: its nodes are new, the nodes that were there are as they
were, and no new node holds an old one in its value.
-/

namespace EventTree.Forest

/-- `g` has all that `f` has, and its other nodes stand apart. -/
structure Grown (f g : Forest) : Prop where
  size_le : f.size ≤ g.size
  cell_eq : ∀ n, f.Has n → g.cell n = f.cell n
  new_value : ∀ n m, ¬ f.Has n → g.value n = some (.node m) → ¬ f.Has m

namespace Grown

variable {f g h : Forest}

theorem refl (f : Forest) : Grown f f where
  size_le := Nat.le_refl _
  cell_eq _ _ := rfl
  new_value _ _ hn hv := absurd (has_of_value hv) hn

theorem has (hg : Grown f g) {n : NodeId} (hn : f.Has n) : g.Has n :=
  Nat.lt_of_lt_of_le hn hg.size_le

theorem name_eq (hg : Grown f g) {n : NodeId} (hn : f.Has n) : g.name n = f.name n := by
  rw [name, hg.cell_eq n hn, name]

theorem value_eq (hg : Grown f g) {n : NodeId} (hn : f.Has n) : g.value n = f.value n := by
  rw [value, hg.cell_eq n hn, value]

theorem parent_eq (hg : Grown f g) {n : NodeId} (hn : f.Has n) : g.parent n = f.parent n := by
  rw [parent, hg.cell_eq n hn, parent]

theorem children_eq (hg : Grown f g) {n : NodeId} (hn : f.Has n) :
    g.children n = f.children n := by
  rw [children, hg.cell_eq n hn, children]

theorem trans (hg : Grown f g) (hh : Grown g h) : Grown f h where
  size_le := Nat.le_trans hg.size_le hh.size_le
  cell_eq n hn := by rw [hh.cell_eq n (hg.has hn), hg.cell_eq n hn]
  new_value n m hn hv := by
    by_cases hgn : g.Has n
    · rw [hh.value_eq hgn] at hv
      exact hg.new_value n m hn hv
    · exact fun hm => hh.new_value n m hgn hv (hg.has hm)

theorem above (hg : Grown f g) (wf : f.WellFormed) {a n : NodeId} (ha : g.Above a n)
    (hn : f.Has n) : f.Above a n := by
  induction ha with
  | single hp =>
    unfold IsParent at hp
    rw [hg.parent_eq hn] at hp
    exact above_of_parent hp
  | tail _ hp ih =>
    unfold IsParent at hp
    rw [hg.parent_eq hn] at hp
    exact (ih (wf.has_parent hp)).trans (above_of_parent hp)

theorem create (hg : Grown f g) (a : String) : Grown f (g.create a).2 where
  size_le := by
    rw [size_create]
    exact Nat.le_trans hg.size_le (Nat.le_succ _)
  cell_eq n hn := by rw [cell_create_ne (ne_of_has (hg.has hn)), hg.cell_eq n hn]
  new_value n m hn hv := by
    rw [value_create] at hv
    exact hg.new_value n m hn hv

theorem update (hg : Grown f g) {n : NodeId} (hn : ¬ f.Has n) {change : Cell → Cell}
    (hv : ∀ m, (g.update n change).value n = some (.node m) → ¬ f.Has m) :
    Grown f (g.update n change) where
  size_le := by rw [size_update]; exact hg.size_le
  cell_eq m hm := by
    have hne : m ≠ n := fun e => hn (e ▸ hm)
    rw [cell_update_ne hne, hg.cell_eq m hm]
  new_value k m hk hkv := by
    by_cases hkn : k = n
    · subst hkn; exact hv m hkv
    · rw [value, cell_update_ne hkn] at hkv
      exact hg.new_value k m hk hkv

theorem setValue (hg : Grown f g) {n : NodeId} (hn : ¬ f.Has n) {v : Option LiveValue}
    (hv : ∀ m, v = some (.node m) → ¬ f.Has m) : Grown f (g.setValue n v) := by
  by_cases hgn : g.Has n
  · apply hg.update hn
    intro m hm
    change (g.setValue n v).value n = _ at hm
    rw [value_setValue hgn, if_pos rfl] at hm
    exact hv m hm
  · rw [Forest.setValue, update_of_not_has hgn]
    exact hg

theorem append (hg : Grown f g) {n c : NodeId} (hn : ¬ f.Has n) (hc : ¬ f.Has c) :
    Grown f (g.append n c) := by
  have h₁ : Grown f (g.setParent c (some n)) := by
    apply hg.update hc
    intro m hm
    change (g.setParent c (some n)).value c = _ at hm
    rw [value_setParent] at hm
    exact hg.new_value c m hc hm
  apply h₁.update hn
  intro m hm
  change ((g.setParent c (some n)).setChildren n (· ++ [c])).value n = _ at hm
  rw [value_setChildren] at hm
  exact h₁.new_value n m hn hm

end Grown

/-! ## Planted trees -/

theorem plant_eq (name : String) (v : Option (Value (Tree Selector) Selector))
    (ts : List (Tree Selector)) (f : Forest) :
    plant ⟨name, v, ts⟩ f =
      (⟨f.size⟩, plantBelow ⟨f.size⟩ ts
        ((plantValue v (f.create name).2).2.setValue ⟨f.size⟩
          (plantValue v (f.create name).2).1)) := by
  rw [plant]; rfl

theorem plantBelow_cons (n : NodeId) (t : Tree Selector) (ts : List (Tree Selector)) (f : Forest) :
    plantBelow n (t :: ts) f = plantBelow n ts ((plant t f).2.append n (plant t f).1) := by
  rw [plantBelow]

/-- What planting a tree gives. -/
structure Planted (f : Forest) (n : NodeId) (g : Forest) : Prop where
  wellFormed : g.WellFormed
  grown : Grown f g
  first : n = ⟨f.size⟩
  has : g.Has n
  root : g.parent n = none

theorem Planted.not_has {f : Forest} {n : NodeId} {g : Forest} (h : Planted f n g) : ¬ f.Has n := by
  rw [h.first]
  exact Nat.lt_irrefl _

theorem Planted.attachable {f : Forest} {c : NodeId} {g : Forest} (h : Planted f c g)
    (wf : f.WellFormed) {n : NodeId} (hn : f.Has n) : g.Attachable n c where
  has_parent := h.grown.has hn
  has_child := h.has
  root := h.root
  ne := by
    rintro rfl
    exact h.not_has hn
  not_above ha := h.not_has (wf.has_above (h.grown.above wf ha hn))

/-- What planting a value gives. -/
structure PlantedValue (f : Forest) (v : Option LiveValue) (g : Forest) : Prop where
  wellFormed : g.WellFormed
  grown : Grown f g
  node : ∀ m, v = some (.node m) → ¬ f.Has m ∧ g.Has m

/-- What planting trees below a node gives. -/
structure PlantedBelow (n : NodeId) (f g : Forest) : Prop where
  wellFormed : g.WellFormed
  has : g.Has n
  parent : g.parent n = f.parent n
  /-- What was apart from some forest before is apart from it still, if `n` is. -/
  grown : ∀ e : Forest, ¬ e.Has n → Grown e f → Grown e g

mutual

theorem planted (t : Tree Selector) (f : Forest) (wf : f.WellFormed) :
    Planted f (plant t f).1 (plant t f).2 := by
  match t with
  | ⟨name, v, ts⟩ =>
    rw [plant_eq]
    have hv := plantedValue v (f.create name).2 (wf.create name)
    have hnew : ¬ f.Has ⟨f.size⟩ := Nat.lt_irrefl _
    -- The value is planted before the children, so the new node has to last through it.
    have hhas := hv.grown.has (has_create_self (f := f) (a := name))
    have hwf := hv.wellFormed.setValue ⟨f.size⟩ fun m hm => (hv.node m hm).2
    have hb := plantedBelow ⟨f.size⟩ ts _ hwf (has_setValue.mpr hhas)
    have hgrown : Grown f (plantValue v (f.create name).2).2 :=
      ((Grown.refl f).create name).trans hv.grown
    refine ⟨hb.wellFormed, hb.grown f hnew (hgrown.setValue hnew fun m hm => ?_), rfl, hb.has, ?_⟩
    · exact fun h => (hv.node m hm).1 (((Grown.refl f).create name).has h)
    · rw [hb.parent, parent_setValue, hv.grown.parent_eq has_create_self, parent_create,
        parent_of_not_has hnew]

theorem plantedValue (v : Option (Value (Tree Selector) Selector)) (f : Forest)
    (wf : f.WellFormed) : PlantedValue f (plantValue v f).1 (plantValue v f).2 := by
  match v with
  | some (.node t) =>
    have h := planted t f wf
    rw [plantValue]
    refine ⟨h.wellFormed, h.grown, fun m hm => ?_⟩
    cases hm
    exact ⟨h.not_has, h.has⟩
  | none | some (.bool _) | some (.int _) | some (.float _) | some (.string _)
  | some (.selector _) =>
    rw [plantValue]
    exact ⟨wf, Grown.refl f, fun m hm => by cases hm⟩

theorem plantedBelow (n : NodeId) (ts : List (Tree Selector)) (f : Forest) (wf : f.WellFormed)
    (hn : f.Has n) : PlantedBelow n f (plantBelow n ts f) := by
  match ts with
  | [] =>
    rw [plantBelow]
    exact ⟨wf, hn, rfl, fun _ _ h => h⟩
  | t :: ts =>
    have h := planted t f wf
    have ha := h.attachable wf hn
    rw [plantBelow_cons]
    have hb := plantedBelow n ts ((plant t f).2.append n (plant t f).1)
      (ha.wellFormed_append h.wellFormed) (by simpa [Has] using ha.has_parent)
    -- Both ends of the new link are outside `e`.
    refine ⟨hb.wellFormed, hb.has, ?_, fun e he hf => hb.grown e he ?_⟩
    · rw [hb.parent, append, ha.parent_attach, if_neg (Ne.symm ha.ne), h.grown.parent_eq hn]
    · exact (hf.trans h.grown).append he fun hc => h.not_has (hf.has hc)

end

theorem copied {f : Forest} (wf : f.WellFormed) (n : NodeId) :
    Planted f (f.copy n).1 (f.copy n).2 := planted _ f wf

theorem copiedValue {f : Forest} (wf : f.WellFormed) (v : Option LiveValue) :
    PlantedValue f (f.copyValue v).1 (f.copyValue v).2 := by
  match v with
  | some (.node n) =>
    have h := copied wf n
    refine ⟨h.wellFormed, h.grown, fun m hm => ?_⟩
    cases hm
    exact ⟨h.not_has, h.has⟩
  | none | some (.bool _) | some (.int _) | some (.float _) | some (.string _)
  | some (.selector _) => exact ⟨wf, Grown.refl f, fun m hm => by cases hm⟩

/-! ## Names of planted trees -/

section Names

variable {f : Forest} (wf : f.WellFormed)

include wf

theorem name_plantBelow {n m : NodeId} (ts : List (Tree Selector)) (hn : f.Has n) (hm : f.Has m) :
    (plantBelow n ts f).name m = f.name m := by
  induction ts generalizing f with
  | nil => rw [plantBelow]
  | cons t ts ih =>
    have h := planted t f wf
    have ha := h.attachable wf hn
    rw [plantBelow_cons, ih (ha.wellFormed_append h.wellFormed), append, name_setChildren,
      name_setParent, h.grown.name_eq hm]
    · simpa [Has] using ha.has_parent
    · simpa [Has] using h.grown.has hm

theorem name_plant (t : Tree Selector) : (plant t f).2.name (plant t f).1 = t.name := by
  match t with
  | ⟨name, v, ts⟩ =>
    have hv := plantedValue v (f.create name).2 (wf.create name)
    have hhas := hv.grown.has (has_create_self (f := f) (a := name))
    have hwf := hv.wellFormed.setValue ⟨f.size⟩ fun m hm => (hv.node m hm).2
    rw [plant_eq, name_plantBelow hwf ts (has_setValue.mpr hhas) (has_setValue.mpr hhas),
      name_setValue, hv.grown.name_eq has_create_self, Forest.name, cell_create_self]
    rfl

theorem names_plantBelow {n : NodeId} (ts : List (Tree Selector)) (hn : f.Has n) :
    ((plantBelow n ts f).children n).map (plantBelow n ts f).name =
      (f.children n).map f.name ++ ts.map (·.name) := by
  induction ts generalizing f with
  | nil => simp [plantBelow]
  | cons t ts ih =>
    have h := planted t f wf
    have ha := h.attachable wf hn
    rw [plantBelow_cons, ih (ha.wellFormed_append h.wellFormed), append, ha.children_attach,
      if_pos rfl]
    · have hname : ∀ m, ((((plant t f).2.setParent (plant t f).1 (some n)).setChildren n
          (· ++ [(plant t f).1])).name m = (plant t f).2.name m) := by simp
      have hold : ∀ m ∈ f.children n, (plant t f).2.name m = f.name m := fun m hm =>
        h.grown.name_eq (wf.has_child hm)
      simpa [hname, h.grown.children_eq hn, name_plant wf] using hold
    · simpa [Has] using ha.has_parent

theorem names_plant (t : Tree Selector) :
    ((plant t f).2.children (plant t f).1).map (plant t f).2.name = t.children.map (·.name) := by
  match t with
  | ⟨name, v, ts⟩ =>
    have hv := plantedValue v (f.create name).2 (wf.create name)
    have hhas := hv.grown.has (has_create_self (f := f) (a := name))
    have hwf := hv.wellFormed.setValue ⟨f.size⟩ fun m hm => (hv.node m hm).2
    have hnew : ¬ f.Has ⟨f.size⟩ := Nat.lt_irrefl _
    have hnone : f.children ⟨f.size⟩ = [] := children_of_not_has hnew
    rw [plant_eq, names_plantBelow hwf ts (has_setValue.mpr hhas), children_setValue,
      hv.grown.children_eq has_create_self, children_create, hnone]
    rfl

end Names

/-! ## New children -/

section NewChild

variable {f : Forest} (wf : f.WellFormed) {v : Option LiveValue}

include wf

theorem WellFormed.createWith (name : String) (hv : ∀ m, v = some (.node m) → f.Has m) :
    ((f.create name).2.setValue (f.create name).1 v).WellFormed :=
  (wf.create name).setValue _ fun m hm => ((Grown.refl f).create name).has (hv m hm)

theorem WellFormed.attachable_created {n : NodeId} (hn : f.Has n) (name : String) :
    ((f.create name).2.setValue ⟨f.size⟩ v).Attachable n ⟨f.size⟩ := by
  have hg := (Grown.refl f).create name
  have hnew : ¬ f.Has ⟨f.size⟩ := Nat.lt_irrefl _
  refine ⟨has_setValue.mpr (hg.has hn), has_setValue.mpr has_create_self, ?_, (ne_of_has hn).symm,
    fun h => hnew ?_⟩
  · rw [parent_setValue, parent_create, parent_of_not_has hnew]
  · refine wf.has_above (hg.above wf (h.mono fun c p hp => ?_) hn)
    rwa [parent_setValue] at hp

theorem WellFormed.addChild {n : NodeId} (hn : f.Has n) (name : String)
    (hv : ∀ m, v = some (.node m) → f.Has m) : (f.addChild n name v).2.WellFormed :=
  (wf.attachable_created hn name).wellFormed_append (wf.createWith name hv)

end NewChild

end EventTree.Forest
