import EventTree.Forest.Plant
import EventTree.Proofs.Forest.WellFormed
import Mathlib.Data.Finset.Card
import Mathlib.Logic.Relation

/-!
# Views that last

The view of a node goes down to as many levels as the forest has nodes. For a tree that is finite this is
enough, so its view stays the same while nodes are added elsewhere and while other nodes change.
-/

namespace EventTree.Forest

/-- `c` is a child of `n` or the nested tree in its value. -/
def Shows (f : Forest) (n c : NodeId) : Prop := c ∈ f.children n ∨ f.value n = some (.node c)

/-- The tree of a node, through children and nested values, is finite and holds no node of `inside`. -/
inductive Apart (f : Forest) (inside : NodeId → Prop) : NodeId → Prop
  | mk {n : NodeId} : ¬ inside n → (∀ c, f.Shows n c → Apart f inside c) → Apart f inside n

/-- The tree of a node, through children and nested values, is finite. -/
def IsFinite (f : Forest) (n : NodeId) : Prop := f.Apart (fun _ => False) n

theorem WellFormed.has_shown {f : Forest} (wf : f.WellFormed) {n c : NodeId} (h : f.Shows n c) :
    f.Has c := by
  rcases h with h | h
  · exact wf.has_child h
  · exact wf.held n c h

theorem WellFormed.has_reached {f : Forest} (wf : f.WellFormed) {n m : NodeId} (hn : f.Has n)
    (h : Relation.ReflTransGen f.Shows n m) : f.Has m := by
  induction h with
  | refl => exact hn
  | tail _ hc _ => exact wf.has_shown hc

section Views

variable {f g : Forest}

theorem viewTo_congr {n : NodeId} {j k : Nat} (hcell : g.cell n = f.cell n)
    (h : ∀ c, f.Shows n c → g.viewTo j c = f.viewTo k c) : g.viewTo (j + 1) n = f.viewTo (k + 1) n := by
  have hname : g.name n = f.name n := congrArg Cell.name hcell
  have hvalue : g.value n = f.value n := congrArg Cell.value hcell
  have hchildren : g.children n = f.children n := congrArg Cell.children hcell
  have hbelow : (f.children n).map (g.viewTo j) = (f.children n).map (f.viewTo k) :=
    List.map_congr_left fun c hc => h c (Or.inl hc)
  have hinner : (f.value n).map (Value.map (g.viewTo j) id) =
      (f.value n).map (Value.map (f.viewTo k) id) := by
    match hv : f.value n with
    | some (.node c) => simp [Value.map, h c (Or.inr hv)]
    | none | some (.bool _) | some (.int _) | some (.float _) | some (.string _)
    | some (.selector _) => rfl
  rw [viewTo, viewTo, hname, hvalue, hchildren, hbelow, hinner]

theorem not_shows_back {n : NodeId} (hacc : Acc (fun c n => f.Shows n c) n) :
    ∀ c, f.Shows n c → ¬ Relation.ReflTransGen f.Shows c n := by
  induction hacc with
  | intro n _ ih =>
    intro c hc hback
    rcases Relation.ReflTransGen.cases_head hback with rfl | ⟨d, hd, hback⟩
    · exact ih _ hc _ hc .refl
    · exact ih c hc d hd (hback.tail hc)

theorem viewTo_eq_of_card {n : NodeId} (hacc : Acc (fun c n => f.Shows n c) n) {s : Finset NodeId}
    (hs : ∀ m, Relation.ReflTransGen f.Shows n m → m ∈ s) {j k : Nat} (hj : s.card ≤ j)
    (hk : s.card ≤ k) : f.viewTo j n = f.viewTo k n := by
  induction hacc generalizing s j k with
  | intro n hacc ih =>
    have hn : n ∈ s := hs n .refl
    have hcard := Finset.card_erase_add_one hn
    obtain ⟨j, rfl⟩ : ∃ i, j = i + 1 := ⟨j - 1, by omega⟩
    obtain ⟨k, rfl⟩ : ∃ i, k = i + 1 := ⟨k - 1, by omega⟩
    -- One level down `n` itself is out of the question: nothing that it shows leads back to it.
    refine viewTo_congr rfl fun c hc => ih c hc (s := s.erase n) (fun m hm => ?_) (by omega) (by omega)
    refine Finset.mem_erase.mpr ⟨?_, hs m (.head hc hm)⟩
    rintro rfl
    exact not_shows_back (.intro m hacc) c hc hm

end Views

theorem IsFinite.apart {f : Forest} {inside : NodeId → Prop} {n : NodeId} (h : f.IsFinite n)
    (hout : ∀ m, Relation.ReflTransGen f.Shows n m → ¬ inside m) : f.Apart inside n := by
  induction h with
  | mk _ _ ih => exact .mk (hout _ .refl) fun c hc => ih c hc fun m hm => hout m (.head hc hm)

namespace Apart

variable {f g : Forest} {inside : NodeId → Prop} {n : NodeId} (h : f.Apart inside n)

include h

theorem mono {inside' : NodeId → Prop} (hsub : ∀ m, inside' m → inside m) : f.Apart inside' n := by
  induction h with
  | mk hout _ ih => exact .mk (fun h => hout (hsub _ h)) ih

theorem acc : Acc (fun c n => f.Shows n c) n := by
  induction h with
  | mk _ _ ih => exact .intro _ fun c hc => ih c hc

variable (wf : f.WellFormed) (hn : f.Has n)

include wf hn

theorem viewTo_eq {fuel : Nat} (hfuel : f.size ≤ fuel) : f.viewTo fuel n = f.view n := by
  let s := (Finset.range f.size).image NodeId.mk
  have hcard : s.card ≤ f.size := Finset.card_image_le.trans (Finset.card_range f.size).le
  refine viewTo_eq_of_card (s := s) h.acc (fun m hm => ?_) (hcard.trans hfuel) hcard
  exact Finset.mem_image.mpr ⟨m.index, Finset.mem_range.mpr (wf.has_reached hn hm), rfl⟩

variable (hg : ∀ m, f.Has m → ¬ inside m → g.cell m = f.cell m)

include hg

theorem viewTo_unchanged (fuel : Nat) : g.viewTo fuel n = f.viewTo fuel n := by
  induction fuel generalizing n with
  | zero =>
    cases h with
    | mk hout _ => rw [viewTo, viewTo, name, name, hg n hn hout]
  | succ fuel ih =>
    cases h with
    | mk hout hshown =>
      exact viewTo_congr (hg n hn hout) fun c hc => ih (hshown c hc) (wf.has_shown hc)

theorem view_unchanged (hsize : f.size ≤ g.size) : g.view n = f.view n := by
  rw [view, h.viewTo_unchanged wf hn hg, h.viewTo_eq wf hn hsize]

theorem snapshot_eq (hsize : f.size ≤ g.size) : g.snapshot n = f.snapshot n := by
  rw [snapshot, h.view_unchanged wf hn hg hsize, snapshot]

theorem unchanged : g.Apart inside n := by
  induction h with
  | mk hout hshown ih =>
    rename_i n
    have hcell := hg n hn hout
    refine .mk hout fun c hc => ?_
    have hc : f.Shows n c := by
      rw [Shows, children, value, hcell] at hc
      exact hc
    exact ih c hc (wf.has_shown hc)

end Apart

end EventTree.Forest
