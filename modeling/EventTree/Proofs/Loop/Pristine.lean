import EventTree.Proofs.Forest.Snapshots
import EventTree.Proofs.Rounds
import EventTree.Proofs.Signal.Passing

/-!
# Loops that put their node back

A loop copies its node before the first pass. No program can come to the copy: no link leads to it. So
it stays as it is while the loop runs, and whenever the node is put back from it, the node shows what it
showed at the start.
-/

namespace EventTree

namespace Forest

/-- The value and the children of a node, with all that is below them. -/
def contents (f : Forest) (n : NodeId) :
    Option (Value (Tree Selector) Selector) × List (Tree Selector) :=
  (f.viewValue (f.value n), (f.children n).map f.view)

section Contents

variable {f g : Forest} {inside : NodeId → Prop} {n : NodeId} (h : f.Apart inside n)
  (wf : f.WellFormed) (hn : f.Has n)

include h wf hn

theorem Apart.contents_eq : f.contents n = ((f.view n).value, (f.view n).children) := by
  rw [← h.viewTo_eq wf hn (Nat.le_succ f.size), viewTo]
  rfl

theorem Apart.contents_unchanged (hg : ∀ m, f.Has m → ¬ inside m → g.cell m = f.cell m)
    (wg : g.WellFormed) (hsize : f.size ≤ g.size) : g.contents n = f.contents n := by
  rw [h.contents_eq wf hn, (h.unchanged wf hn hg).contents_eq wg (Nat.lt_of_lt_of_le hn hsize),
    h.view_unchanged wf hn hg hsize]

end Contents

/-! ## Contents of a node that was put back -/

section Restored

variable {f : Forest} (wf : f.WellFormed) {n pristine : NodeId} (hn : f.Has n)

include wf hn

theorem value_restored :
    (f.restored n pristine).value n = ((f.clear n).copyValue ((f.clear n).value pristine)).1 := by
  have hvalue := revalued_outgrown wf hn pristine
  have hhas : (f.clear n).Has n := by simpa [Has] using hn
  rw [restored, value_appendCopies hvalue.wellFormed (hvalue.has hhas), revalued, value_setValue,
    if_pos rfl]
  exact (copiedValue (wf.clear n) _).grown.has hhas

theorem children_revalued : (f.revalued n pristine).children n = [] := by
  have hv := copiedValue (wf.clear n) ((f.clear n).value pristine)
  rw [revalued, children_setValue, hv.grown.children_eq (by simpa [Has] using hn), children_clear,
    if_pos rfl]

section Copies

variable {h : Forest} (hsame : ∀ k, ¬ f.Has k → (f.restored n pristine).Has k →
  (f.restored n pristine).SameNode h k) (hsize : (f.restored n pristine).size ≤ h.size)

include hsame hsize

/-- A node of the copied value is made before the children are copied, and is not `n`. -/
theorem viewValue_restored : h.viewValue ((f.restored n pristine).value n) =
    (f.clear n).viewValue ((f.clear n).value pristine) := by
  have hhas : (f.clear n).Has n := by simpa [Has] using hn
  have hr := revalued_outgrown wf hn pristine
  have ho := appendCopies_outgrown hr.wellFormed (hr.has hhas)
    ((f.revalued n pristine).children pristine)
  rw [value_restored wf hn]
  apply viewValue_copyValue (wf.clear n)
  · intro k hk hkv
    have hkn : k ≠ n := fun e => hk (e ▸ hhas)
    have hkr : (f.revalued n pristine).Has k := by
      rw [revalued, has_setValue]
      exact hkv
    have hset : ((f.clear n).copyValue ((f.clear n).value pristine)).2.SameNode
        (f.revalued n pristine) k := by
      apply SameNode.of_cell
      rw [revalued, setValue, cell_update_ne hkn]
    have hcopies : (f.revalued n pristine).SameNode (f.restored n pristine) k :=
      .of_cell (ho.cell_eq k hkr hkn)
    have hk' : ¬ f.Has k := fun hf => hk (by simpa [Has] using hf)
    exact (hset.trans hcopies).trans (hsame k hk' (ho.has hkr))
  · calc ((f.clear n).copyValue ((f.clear n).value pristine)).2.size
      _ = (f.revalued n pristine).size := by rw [revalued, size_setValue]
      _ ≤ (f.restored n pristine).size := ho.size_le
      _ ≤ h.size := hsize

theorem views_children_restored
    (hcs : ∀ c ∈ (f.revalued n pristine).children pristine, (f.revalued n pristine).Apart (· = n) c) :
    ((f.restored n pristine).children n).map h.view =
      ((f.revalued n pristine).children pristine).map (f.revalued n pristine).view := by
  have hr := revalued_outgrown wf hn pristine
  have hle : f.size ≤ (f.revalued n pristine).size := by simpa using hr.size_le
  obtain ⟨added, hadded, hviews⟩ := view_appendCopies hr.wellFormed (Nat.lt_of_lt_of_le hn hle)
    (fun c hc => ⟨hr.wellFormed.has_child hc, hcs c hc⟩)
    (fun k hk hkg => hsame k (fun hf => hk (Nat.lt_of_lt_of_le hf hle)) hkg) hsize
  rw [children_revalued wf hn, List.nil_append] at hadded
  rw [restored, hadded, hviews]

theorem views_restored (hp : f.Has pristine)
    (hapart : f.Apart (fun m => m = n ∨ m ∈ f.children n) pristine) :
    (h.viewValue ((f.restored n pristine).value n),
      ((f.restored n pristine).children n).map h.view) = f.contents pristine := by
  have hr := revalued_outgrown wf hn pristine
  have hle : f.size ≤ (f.revalued n pristine).size := by simpa using hr.size_le
  have hclear : ∀ m, f.Has m → ¬ (m = n ∨ m ∈ f.children n) → (f.clear n).cell m = f.cell m :=
    fun m _ hm => cell_clear (fun e => hm (Or.inl e)) fun hc => hm (Or.inr hc)
  have hcell : ∀ m, f.Has m → ¬ (m = n ∨ m ∈ f.children n) →
      (f.revalued n pristine).cell m = f.cell m := fun m hm hout => by
    rw [hr.cell_eq m (by simpa [Has] using hm) fun e => hout (Or.inl e), hclear m hm hout]
  -- The copies are made after the node has lost its children, but none of that is in the other tree.
  have hcs : ∀ c ∈ (f.revalued n pristine).children pristine,
      (f.revalued n pristine).Apart (· = n) c := by
    intro c hc
    cases hapart.unchanged wf hp hcell with
    | mk _ hshown => exact (hshown c (Or.inl hc)).mono fun _ => Or.inl
  have hvalue := hapart.contents_unchanged wf hp hclear (wf.clear n) (by simp)
  have hchildren := hapart.contents_unchanged wf hp hcell hr.wellFormed hle
  unfold contents at hvalue hchildren ⊢
  rw [Prod.mk.injEq] at hvalue hchildren
  rw [viewValue_restored wf hn hsame hsize, views_children_restored wf hn hsame hsize hcs,
    hvalue.1, hchildren.2]

end Copies

end Restored

end Forest

/-! ## The copy is out of reach -/

namespace Plot

variable {f : Forest} (wf : f.WellFormed) (n : NodeId)

/-- Everything but a copy of a node. -/
def besideCopy : Plot where
  owned m := f.Has m ∨ ¬ (f.copy n).2.Has m
  start := (f.copy n).2
  fenced := by
    have hc := Forest.copied wf n
    refine ⟨hc.wellFormed, fun m hm => Or.inr hm, fun m p hm hp => ?_, fun m c hm hc' => ?_,
      fun m k hm hv => ?_⟩
    · have hm := hm.resolve_right fun h => h (Forest.has_of_parent hp)
      rw [hc.grown.parent_eq hm] at hp
      exact Or.inl (wf.has_parent hp)
    · have hm := hm.resolve_right fun h => h (Forest.has_of_mem_children hc')
      rw [hc.grown.children_eq hm] at hc'
      exact Or.inl (wf.has_child hc')
    · have hm := hm.resolve_right fun h => h (Forest.has_of_value hv)
      rw [hc.grown.value_eq hm] at hv
      exact Or.inl (wf.held m k hv)

variable {wf n} {u : Forest} (ht : (besideCopy wf n).Tended u)

include ht

theorem Tended.copy_kept : u.Has (f.copy n).1 ∧
    u.Apart (besideCopy wf n).owned (f.copy n).1 ∧ u.view (f.copy n).1 = f.view n := by
  have hc := Forest.copied wf n
  have hfinite : (f.copy n).2.IsFinite (f.copy n).1 := (Forest.revived_plant wf (f.view n)).finite
  -- Whatever the copy shows is as new as the copy.
  have hapart : (f.copy n).2.Apart (besideCopy wf n).owned (f.copy n).1 := by
    refine hfinite.apart fun m hm howned => ?_
    rcases howned with hold | hunborn
    · exact hc.new wf hm hold
    · exact hunborn (hc.wellFormed.has_reached hc.has hm)
  have hcell : ∀ m, (f.copy n).2.Has m → ¬ (besideCopy wf n).owned m →
      u.cell m = (f.copy n).2.cell m := fun m _ hm => ht.outside m hm
  refine ⟨Nat.lt_of_lt_of_le hc.has ht.size_le, hapart.unchanged hc.wellFormed hc.has hcell, ?_⟩
  rw [hapart.view_unchanged hc.wellFormed hc.has hcell ht.size_le]
  exact Forest.view_copy wf (fun _ _ _ => .of_cell rfl) (Nat.le_refl _)

variable (hn : f.Has n) (hfinite : f.IsFinite n)

include hn hfinite

/-- A node that is put back from its copy shows what it showed when the copy was made, for as long as what
it got does not change. -/
theorem Tended.views_back {h : Forest}
    (hsame : ∀ k, ¬ u.Has k → (u.restored n (f.copy n).1).Has k →
      (u.restored n (f.copy n).1).SameNode h k)
    (hsize : (u.restored n (f.copy n).1).size ≤ h.size) :
    (h.viewValue ((u.restored n (f.copy n).1).value n),
      ((u.restored n (f.copy n).1).children n).map h.view) = f.contents n := by
  obtain ⟨hhas, hapart, hview⟩ := ht.copy_kept
  have hown : (besideCopy wf n).owned n := Or.inl hn
  have hn' : u.Has n := Nat.lt_of_lt_of_le ((Forest.copied wf n).grown.has hn) ht.size_le
  have hclear : u.Apart (fun m => m = n ∨ m ∈ u.children n) (f.copy n).1 := by
    refine hapart.mono fun m hm => ?_
    rcases hm with rfl | hm
    · exact hown
    · exact ht.fenced.child n m hown hm
  rw [Forest.views_restored ht.wellFormed hn' hsame hsize hhas hclear,
    hapart.contents_eq ht.wellFormed hhas, hview, Forest.Apart.contents_eq hfinite wf hn]

theorem Tended.contents_back : (u.restored n (f.copy n).1).contents n = f.contents n :=
  ht.views_back hn hfinite (fun _ _ _ => .of_cell rfl) (Nat.le_refl _)

end Plot

/-! ## Rounds of a loop -/

open EventTree.Action Keyword

namespace Round

/-- What a loop ends with after this round; after `none` it goes on. -/
def ends (r : Round) : Option (Except Error Flow) :=
  match r.outcome with
  | .ok flow => flow.pastLoop.map .ok
  | .error e => some (.error e)

theorem ends_eq_none_iff {r : Round} :
    r.ends = none ↔ r.outcome = .ok .normal ∨ r.outcome = .ok .continuing := by
  unfold ends
  rcases r.outcome with e | flow
  · simp
  · cases flow <;> simp [Flow.pastLoop]

theorem ended_of_ends {r : Round} {ended : Except Error Flow} (h : r.ends = some ended) :
    (r.outcome = .ok .breaking → ended = .ok .normal) ∧
      (r.outcome ≠ .ok .breaking → ended = r.outcome) ∧
      ended ≠ .ok .breaking ∧ ended ≠ .ok .continuing := by
  unfold ends at h
  rcases hr : r.outcome with e | flow
  · rw [hr] at h
    cases h
    simp
  · rw [hr] at h
    cases flow <;> simp_all [Flow.pastLoop, eq_comm]

end Round

section Restoring

variable {P : Plot} {hold : Hold} {w w' : World}

theorem World.Sound.ready_besideCopy (hw : w.Sound) (hb : w.session.bindings = []) (n : NodeId) :
    (Plot.besideCopy hw.wellFormed n).Ready (w.on (w.forest.copy n).2) := by
  refine ⟨(Plot.besideCopy hw.wellFormed n).tended_start, hb, fun call hcall => ?_⟩
  have hhas := hw.base call hcall
  exact ⟨Or.inl hhas, (Forest.copied hw.wellFormed n).grown.has hhas⟩

theorem restoring_ends (wf : w.forest.WellFormed) {n : NodeId} (hn : w.forest.Has n)
    {loop : NodeId → Action Flow} {outcome : Except Stop Flow}
    (hrun : (restoring n loop).result hold w = (outcome, w')) (hend : outcome ≠ .error .stalled)
    (hready : P.Ready (w.on (w.forest.copy n).2))
    (hkeeps : P.Keeps [] (w.forest.copy n).2.size (loop (w.forest.copy n).1) P.NewFlow) :
    ∃ ended u, (loop (w.forest.copy n).1).result hold (w.on (w.forest.copy n).2) =
        (resumed ended, u) ∧
      P.After (w.on (w.forest.copy n).2) u ∧ outcome = resumed ended ∧
      w' = u.on (u.forest.restored n (w.forest.copy n).1) := by
  have hcopy : (copy n).result hold w =
      (.ok (w.forest.copy n).1, w.on (w.forest.copy n).2) := rfl
  rw [restoring, result_bind_ok hcopy, result_bind, result_attempt] at hrun
  rcases hloop : (loop (w.forest.copy n).1).result hold (w.on (w.forest.copy n).2) with ⟨first, u⟩
  rw [hloop] at hrun
  have hne : first ≠ .error .stalled := by
    rintro rfl
    cases hrun
    exact hend rfl
  obtain ⟨ended, rfl⟩ := exists_resumed hne
  have hafter := hkeeps.after_ended hready hloop
  have hu : u.forest.Has n :=
    Nat.lt_of_lt_of_le (Nat.lt_of_lt_of_le hn (Forest.copied wf n).grown.size_le) hafter.size_le
  have hrestore := result_restore hold hafter.tended.wellFormed hu (w.forest.copy n).1
  rw [handedOn_resumed, onward, result_bind_ok hrestore, result_resume] at hrun
  cases hrun
  exact ⟨ended, u, rfl, hafter, rfl, rfl⟩

end Restoring

end EventTree
