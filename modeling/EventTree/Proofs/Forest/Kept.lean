import EventTree.Proofs.Forest.Snapshots

/-!
# Trees that are kept

A tree whose nodes keep their names, values and children is the same tree, whatever becomes of other nodes
and of the links upwards. A copy stands apart from all that was there when it was made, so it is kept as
long as only such nodes are changed.
-/

namespace EventTree

/-- The levels of a tree down to `fuel`. -/
def Tree.cut {σ : Type} : Nat → Tree σ → Tree σ
  | 0, t => ⟨t.name, none, []⟩
  | fuel + 1, t => ⟨t.name, t.value.map (Value.map (Tree.cut fuel) id), t.children.map (Tree.cut fuel)⟩

namespace Forest

/-! ## Views of finite trees -/

theorem map_value_congr {v : Option LiveValue} {φ ψ : NodeId → Tree Selector}
    (h : ∀ c, v = some (.node c) → φ c = ψ c) : v.map (Value.map φ id) = v.map (Value.map ψ id) := by
  match v with
  | some (.node c) => rw [Option.map_some, Value.map, h c rfl]; rfl
  | none | some (.bool _) | some (.int _) | some (.float _) | some (.string _)
  | some (.selector _) => rfl

theorem cut_viewTo (f : Forest) (fuel more : Nat) (n : NodeId) :
    (f.viewTo (fuel + more) n).cut fuel = f.viewTo fuel n := by
  induction fuel generalizing n with
  | zero => cases more <;> rfl
  | succ fuel ih =>
    have hsame : ∀ c, (f.viewTo (fuel + more) c).cut fuel = f.viewTo fuel c := ih
    have hvalue : ((f.value n).map (Value.map (f.viewTo (fuel + more)) id)).map
        (Value.map (Tree.cut fuel) id) = (f.value n).map (Value.map (f.viewTo fuel) id) := by
      match f.value n with
      | some (.node c) => simp [Value.map, hsame]
      | none | some (.bool _) | some (.int _) | some (.float _) | some (.string _)
      | some (.selector _) => rfl
    have hchildren : ((f.children n).map (f.viewTo (fuel + more))).map (Tree.cut fuel) =
        (f.children n).map (f.viewTo fuel) := by
      rw [List.map_map]
      exact List.map_congr_left fun c _ => hsame c
    rw [Nat.add_right_comm, viewTo, Tree.cut, hvalue, hchildren, viewTo]

namespace IsFinite

variable {f : Forest} {n : NodeId} (h : f.IsFinite n) (wf : f.WellFormed) (hn : f.Has n)

include h

theorem shown {c : NodeId} (hc : f.Shows n c) : f.IsFinite c := by
  cases h with
  | mk _ hshown => exact hshown c hc

include wf hn

theorem viewTo_eq_cut (fuel : Nat) : f.viewTo fuel n = (f.view n).cut fuel := by
  by_cases hle : fuel ≤ f.size
  · obtain ⟨more, hmore⟩ := Nat.exists_eq_add_of_le hle
    rw [view, hmore, cut_viewTo]
  · have hwhole : f.viewTo fuel n = f.view n := Apart.viewTo_eq h wf hn (by omega)
    rw [← hwhole]
    exact (f.cut_viewTo fuel 0 n).symm

theorem view_eq_mk : f.view n = ⟨f.name n, f.viewValue (f.value n), (f.children n).map f.view⟩ := by
  rw [← Apart.viewTo_eq h wf hn (Nat.le_succ f.size), viewTo]
  rfl

end IsFinite

/-! ## The same tree -/

theorem SameNode.shows {f g : Forest} {n c : NodeId} (h : f.SameNode g n) :
    g.Shows n c ↔ f.Shows n c := by rw [Shows, h.children, h.value, Shows]

section Same

variable {f g : Forest} {n : NodeId} (h : ∀ m, f.InTree n m → f.SameNode g m)

include h

theorem inTree_iff_of_same {m : NodeId} : g.InTree n m ↔ f.InTree n m := by
  constructor
  · intro hm
    induction hm with
    | refl => exact .refl
    | tail _ hshows ih => exact ih.tail ((h _ ih).shows.mp hshows)
  · intro hm
    induction hm with
    | refl => exact .refl
    | tail hm hshows ih => exact ih.tail ((h _ hm).shows.mpr hshows)

theorem viewTo_eq_of_same (fuel : Nat) : g.viewTo fuel n = f.viewTo fuel n := by
  induction fuel generalizing n with
  | zero => rw [viewTo, (h n .refl).name, viewTo]
  | succ fuel ih =>
    have hshown : ∀ c, f.Shows n c → g.viewTo fuel c = f.viewTo fuel c := fun c hc =>
      ih fun m hm => h m (.head hc hm)
    have hroot := h n .refl
    have hvalue : (f.value n).map (Value.map (g.viewTo fuel) id) =
        (f.value n).map (Value.map (f.viewTo fuel) id) := map_value_congr fun c hc => hshown c (Or.inr hc)
    have hchildren : (f.children n).map (g.viewTo fuel) = (f.children n).map (f.viewTo fuel) :=
      List.map_congr_left fun c hc => hshown c (Or.inl hc)
    rw [viewTo, hroot.name, hroot.value, hroot.children, hvalue, hchildren, viewTo]

theorem IsFinite.of_same (hfinite : f.IsFinite n) : g.IsFinite n := by
  induction hfinite with
  | mk _ _ ih =>
    refine .mk id fun c hc => ?_
    have hc := (h _ .refl).shows.mp hc
    exact ih c hc fun m hm => h m (.head hc hm)

theorem IsFinite.view_of_same (hfinite : f.IsFinite n) (wf : f.WellFormed) (hn : f.Has n)
    (hsize : f.size ≤ g.size) : g.view n = f.view n := by
  rw [view, viewTo_eq_of_same h, Apart.viewTo_eq hfinite wf hn hsize]

end Same

/-! ## Trees that stand apart -/

/-- `c` is the root of a finite tree in `g` of nodes that `f` has not. -/
structure StandsApart (f g : Forest) (c : NodeId) : Prop where
  has : g.Has c
  finite : g.IsFinite c
  new : ∀ m, g.InTree c m → ¬ f.Has m

theorem standsApart_copy {f : Forest} (wf : f.WellFormed) (n : NodeId) :
    StandsApart f (f.copy n).2 (f.copy n).1 :=
  have hrevived := revived_plant wf (f.view n)
  ⟨hrevived.has, hrevived.finite, hrevived.new⟩

/-- `k` has all nodes of `g`, and those that `f` has not are as they were. -/
structure KeepsApart (f g k : Forest) : Prop where
  size_le : g.size ≤ k.size
  same : ∀ m, g.Has m → ¬ f.Has m → g.SameNode k m

theorem KeepsApart.trans {f g k l : Forest} (h : KeepsApart f g k) (hl : KeepsApart f k l) :
    KeepsApart f g l where
  size_le := Nat.le_trans h.size_le hl.size_le
  same m hm hnew := (h.same m hm hnew).trans (hl.same m (Nat.lt_of_lt_of_le hm h.size_le) hnew)

namespace StandsApart

variable {f g k : Forest} {c : NodeId}

theorem mono {e : Forest} (h : StandsApart f g c) (hsize : e.size ≤ f.size) : StandsApart e g c :=
  ⟨h.has, h.finite, fun m hm he => h.new m hm (Nat.lt_of_lt_of_le he hsize)⟩

variable (h : StandsApart f g c) (wg : g.WellFormed) (hk : KeepsApart f g k)

include h wg hk

theorem same {m : NodeId} (hm : g.InTree c m) : g.SameNode k m :=
  hk.same m (wg.has_reached h.has hm) (h.new m hm)

theorem inTree_iff {m : NodeId} : k.InTree c m ↔ g.InTree c m :=
  inTree_iff_of_same fun _ => h.same wg hk

theorem kept : StandsApart f k c where
  has := Nat.lt_of_lt_of_le h.has hk.size_le
  finite := h.finite.of_same fun _ => h.same wg hk
  new m hm := h.new m ((h.inTree_iff wg hk).mp hm)

theorem view_eq : k.view c = g.view c :=
  h.finite.view_of_same (fun _ => h.same wg hk) wg h.has hk.size_le

end StandsApart

end Forest

end EventTree
