import EventTree.Proofs.Forest.Comparison
import EventTree.Proofs.Forest.Copies
import EventTree.Proofs.Selector.Grammar

/-!
# Snapshots and live trees

A snapshot is made live by reading its selectors and planting the tree. This fails exactly if a selector
cannot be read, and what is planted has the snapshot again. Taking the snapshot of a live tree and making
that live is a copy: a selector keeps the text that it was read from, and the text is read the same way.
-/

namespace EventTree

namespace Forest

/-- `m` is a node of the tree of `n`, through children and nested values. -/
def InTree (f : Forest) (n m : NodeId) : Prop := Relation.ReflTransGen f.Shows n m

/-- Every selector in the tree of a node was read from a text. -/
def SelectorsRead (f : Forest) (n : NodeId) : Prop :=
  ∀ m s, f.InTree n m → f.value m = some (.selector s) → s.IsRead

/-- Makes a snapshot live: reads its selectors and plants the tree. -/
def revive (f : Forest) (s : Snapshot) : Except Cause (NodeId × Forest) :=
  s.readSelectors.map (plant · f)

/-- A snapshot was made live in `f`: a tree of its own, of new nodes only. -/
structure Revived (f : Forest) (s : Snapshot) (n : NodeId) (g : Forest) : Prop where
  wellFormed : g.WellFormed
  has : g.Has n
  root : g.parent n = none
  new : ∀ m, g.InTree n m → ¬ f.Has m
  unchanged : ∀ m, f.Has m → g.cell m = f.cell m
  finite : g.IsFinite n
  snapshot : g.snapshot n = s

/-! ## Views and what they show -/

section Views

variable {f : Forest} {n : NodeId}

theorem isFinite_of_height {fuel : Nat} (h : (f.viewTo fuel n).height < fuel) : f.IsFinite n := by
  induction fuel generalizing n with
  | zero => omega
  | succ fuel ih =>
    rw [viewTo, Tree.height] at h
    refine .mk id fun c hc => ih ?_
    rcases hc with hc | hc
    · have hle := Tree.height_le_heightAll (List.mem_map_of_mem (f := f.viewTo fuel) hc)
      omega
    · have hvalue : Tree.heightOf ((f.value n).map (Value.map (f.viewTo fuel) id)) =
          (f.viewTo fuel c).height := by
        rw [hc, Option.map_some, Value.map, Tree.heightOf]
      omega

theorem value_of_mem_selectors {fuel : Nat} {s : Selector} (h : s ∈ (f.viewTo fuel n).selectors) :
    ∃ m, f.InTree n m ∧ f.value m = some (.selector s) := by
  induction fuel generalizing n with
  | zero => cases h
  | succ fuel ih =>
    rw [viewTo, Tree.selectors_mk, List.mem_append] at h
    rcases h with h | h
    · match hv : f.value n with
      | some (.selector s') =>
        rw [hv] at h
        cases List.mem_singleton.mp h
        exact ⟨n, .refl, hv⟩
      | some (.node c) =>
        rw [hv, Option.map_some, Value.map, Tree.selectorsOf_node] at h
        obtain ⟨m, hm, hvalue⟩ := ih h
        exact ⟨m, .head (Or.inr hv) hm, hvalue⟩
      | none | some (.bool _) | some (.int _) | some (.float _) | some (.string _) =>
        rw [hv] at h
        cases h
    · obtain ⟨t, ht, h⟩ := Tree.mem_selectorsAll h
      obtain ⟨c, hc, rfl⟩ := List.mem_map.mp ht
      obtain ⟨m, hm, hvalue⟩ := ih h
      exact ⟨m, .head (Or.inl hc) hm, hvalue⟩

end Views

/-! ## Planted trees are new -/

section Planted

variable {f g : Forest} {n : NodeId}

theorem Grown.new_shown (h : f.Grown g) (wf : f.WellFormed) (wg : g.WellFormed) (hn : ¬ f.Has n)
    {m : NodeId} (hs : g.Shows n m) : ¬ f.Has m := by
  intro hm
  rcases hs with hchild | hvalue
  · have hparent := (wg.linked n m).mp hchild
    rw [h.parent_eq hm] at hparent
    exact hn (wf.has_parent hparent)
  · exact h.new_value n m hn hvalue hm

theorem Planted.new (h : f.Planted n g) (wf : f.WellFormed) {m : NodeId} (hm : g.InTree n m) :
    ¬ f.Has m := by
  induction hm with
  | refl => exact h.not_has
  | tail _ hshows ih => exact h.grown.new_shown wf h.wellFormed ih hshows

theorem Grown.inTree (h : f.Grown g) (wf : f.WellFormed) (hn : f.Has n) {m : NodeId}
    (hm : g.InTree n m) : f.Has m := by
  induction hm with
  | refl => exact hn
  | tail _ hshows ih =>
    rename_i k m _
    rw [Shows, h.children_eq ih, h.value_eq ih] at hshows
    exact wf.has_shown hshows

theorem revived_plant (wf : f.WellFormed) (t : Tree Selector) :
    f.Revived t.snapshot (plant t f).1 (plant t f).2 := by
  have h := planted t f wf
  have hview : ∀ {fuel}, (plant t f).2.size ≤ fuel + f.size →
      (plant t f).2.viewTo fuel (plant t f).1 = t := fun hfuel =>
    viewTo_plant t f wf (fun _ _ _ => .of_cell rfl) hfuel
  refine ⟨h.wellFormed, h.has, h.root, fun m hm => h.new wf hm, h.grown.cell_eq, ?_, ?_⟩
  · -- With levels to spare the view is the tree itself, so nothing of it was cut off.
    have hheight : ((plant t f).2.viewTo ((plant t f).2.size + t.height + 1) (plant t f).1).height <
        (plant t f).2.size + t.height + 1 := by
      rw [hview (by omega)]
      omega
    exact isFinite_of_height hheight
  · rw [snapshot, view, hview (by omega)]

end Planted

/-- Making a snapshot live and taking the snapshot of a live tree are inverse to each other. -/
theorem revive_inverts_snapshot (f : Forest) (wf : f.WellFormed) :
    (∀ s : Snapshot,
      ((∃ live, f.revive s = .ok live) ↔
        ∀ source ∈ s.selectors, ∃ selector, Selector.parse source = .ok selector) ∧
      (∀ cause, f.revive s = .error cause →
        cause.kind = .validation ∧ ∃ source, Tree.FirstMalformed s.selectors source cause) ∧
      ∀ n g, f.revive s = .ok (n, g) → f.Revived s n g) ∧
    ∀ n, f.Has n → f.IsFinite n → f.SelectorsRead n →
      ∃ m g, f.revive (f.snapshot n) = .ok (m, g) ∧ f.Revived (f.snapshot n) m g ∧
        g.compare n m = .eq ∧ ∀ k, g.InTree n k → ¬ g.InTree m k := by
  refine ⟨fun s => ⟨?_, fun cause hs => ?_, fun n g hs => ?_⟩, fun n hn hfinite hread => ?_⟩
  · rw [← Tree.readSelectors_ok_iff]
    unfold revive
    cases s.readSelectors with
    | ok t => simp [Except.map]
    | error cause => simp [Except.map]
  · have hs : s.readSelectors = .error cause := by
      unfold revive at hs
      cases ht : s.readSelectors with
      | ok t => rw [ht] at hs; cases hs
      | error first => rw [ht] at hs; cases hs; rfl
    obtain ⟨source, hfirst⟩ := Tree.firstMalformed_of_readSelectors hs
    obtain ⟨rest, flaw, rfl⟩ := Selector.malformed_of_parse hfirst.cause
    exact ⟨rfl, source, hfirst⟩
  · unfold revive at hs
    cases ht : s.readSelectors with
    | error cause => rw [ht] at hs; cases hs
    | ok t =>
      rw [ht] at hs
      have hlive : plant t f = (n, g) := Except.ok.inj hs
      have hrevived := revived_plant wf t
      rw [hlive, Tree.snapshot_of_readSelectors ht] at hrevived
      exact hrevived
  · have hselectors : ∀ s ∈ (f.view n).selectors, s.IsRead := by
      intro s hs
      obtain ⟨m, hm, hvalue⟩ := value_of_mem_selectors hs
      exact hread m s hm hvalue
    have hrevive : f.revive (f.snapshot n) = .ok (f.copy n) := by
      rw [revive, snapshot, Tree.readSelectors_snapshot hselectors]
      rfl
    have hcopied := copied wf n
    have hrevived : f.Revived (f.snapshot n) (f.copy n).1 (f.copy n).2 := revived_plant wf (f.view n)
    refine ⟨(f.copy n).1, (f.copy n).2, hrevive, hrevived, ?_, fun k hk hk' => ?_⟩
    · rw [compare_eq_snapshot, hrevived.snapshot, snapshot, hfinite.view_eq wf hn hcopied.grown]
      exact Tree.compare_self _
    · exact hrevived.new k hk' (hcopied.grown.inTree wf hn hk)

/-- A tree with a selector below it and a tree in its value, which holds a double that is no number. -/
def almanac : Tree Selector :=
  ⟨"log", some (.node ⟨"reading", some (.float ⟨0xfff8000000000001⟩), []⟩),
    [⟨"set", some (.selector ⟨"/../x", [.root, .named "x"], .node⟩), []⟩]⟩

theorem revive_inverts_snapshot_of_almanac :
    let f := (plant almanac .empty).2
    (∃ m g, f.revive (f.snapshot ⟨0⟩) = .ok (m, g) ∧ g.snapshot m = almanac.snapshot ∧
      g.compare ⟨0⟩ m = .eq ∧ ∀ k, g.InTree ⟨0⟩ k → ¬ g.InTree m k) ∧
    ∃ cause, f.revive ⟨"set", some (.node ⟨"inner", some (.selector "oops"), []⟩),
        [⟨"src", some (.selector "/"), []⟩]⟩ = .error cause ∧
      cause.kind = .validation ∧ Selector.parse "oops" = .error cause := by
  intro f
  have hplanted := revived_plant wellFormed_empty almanac
  obtain ⟨hsnapshots, hlive⟩ := revive_inverts_snapshot f hplanted.wellFormed
  have hread : f.SelectorsRead ⟨0⟩ := by
    intro m s _ hvalue
    have hcells : ∀ k : Fin 3, ∀ v ∈ f.value ⟨k⟩, ∀ t ∈ v.asSelector?,
        t = ⟨"/../x", [.root, .named "x"], .node⟩ := by decide
    rw [hcells ⟨m.index, has_of_value hvalue⟩ (.selector s) hvalue s rfl]
    have hspelled : Selector.Spelled "/../x".toList [['.', '.'], ['x']] none :=
      ⟨by simp, by simp [Selector.Segment], by simp [Selector.kindText]⟩
    exact ⟨"/../x", Selector.parse_of_spelled hspelled⟩
  have hoops : Selector.parse "oops" = .error (.malformedSelector "oops" "oops" .unrooted) :=
    Selector.parse_of_unrooted (by simp)
  refine ⟨?_, _, ?_, rfl, hoops⟩
  · obtain ⟨m, g, hrevive, hrevived, hequal, hapart⟩ :=
      hlive ⟨0⟩ (by decide) hplanted.finite hread
    exact ⟨m, g, hrevive, hrevived.snapshot.trans hplanted.snapshot, hequal, hapart⟩
  · rw [revive, Tree.readSelectors, Tree.readSelectorsValue, Tree.readSelectors, Tree.readSelectorsValue,
      hoops]
    rfl

end Forest

end EventTree
