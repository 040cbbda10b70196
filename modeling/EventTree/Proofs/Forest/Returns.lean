import EventTree.Proofs.Forest.Moves

/-!
# Moves that are taken back

Taking a node out and putting it back at its place gives the forest again, and so does putting a root
somewhere and taking it out. Every move is made of these two. Main statement: a node that was moved away,
taken out or replaced can be moved back to where it was, and then nothing has changed.
-/

namespace EventTree.Forest

section Lists

variable {l : List NodeId} {x : NodeId}

theorem filter_insertIdx_of_not_mem (h : x ∉ l) (i : Nat) :
    (l.insertIdx i x).filter (· ≠ x) = l := by
  have hself : l.filter (· ≠ x) = l := by
    rw [List.filter_eq_self]
    exact fun y hy => decide_eq_true fun e => h (e ▸ hy)
  induction l generalizing i with
  | nil => cases i <;> simp
  | cons y l ih =>
    rw [List.mem_cons, not_or] at h
    cases i with
    | zero => rw [List.insertIdx_zero, List.filter_cons_of_neg (by simp), hself]
    | succ i =>
      rw [List.filter_cons_of_pos (by simpa using Ne.symm h.1), List.cons_inj_right] at hself
      rw [List.insertIdx_succ_cons, List.filter_cons_of_pos (by simpa using Ne.symm h.1),
        ih h.2 i hself]

theorem idxOf?_insertIdx_of_not_mem (h : x ∉ l) {i : Nat} (hi : i ≤ l.length) :
    (l.insertIdx i x).idxOf? x = some i := by
  have hlength := List.length_insertIdx_of_le_length hi x
  refine List.idxOf?_eq_some_iff.mpr ⟨by omega, List.getElem_insertIdx_self _, fun j hj hx => h ?_⟩
  rw [List.getElem_insertIdx_of_lt hj] at hx
  rw [← hx]
  exact List.getElem_mem _

end Lists

theorem idxOf?_of_index? {f : Forest} {p c : NodeId} {i : Nat} (hp : f.parent c = some p)
    (hi : f.index? c = some i) : (f.children p).idxOf? c = some i := by
  rwa [index?, hp] at hi

/-! ## Out and in again -/

theorem Attachable.place_link {f : Forest} {p c : NodeId} (ha : f.Attachable p c) (wf : f.WellFormed)
    {i : Nat} (hi : i ≤ (f.children p).length) :
    (f.link p i c).parent c = some p ∧ (f.link p i c).index? c = some i := by
  have hp : (f.link p i c).parent c = some p := (ha.parent_attach c).trans (if_pos rfl)
  refine ⟨hp, ?_⟩
  rw [index?, hp, Option.bind_some, link, ha.children_attach, if_pos rfl]
  exact idxOf?_insertIdx_of_not_mem (wf.not_mem_children_of_root ha.root p) hi

section Pairs

variable {f : Forest} (wf : f.WellFormed) {p c : NodeId} {i : Nat}

include wf

theorem WellFormed.detach_link (ha : f.Attachable p c) (hi : i ≤ (f.children p).length) :
    (f.link p i c).detach c = f := by
  refine ext_fields (by simp) (fun m => by simp [link]) (fun m => by simp [link]) (fun m => ?_)
    fun m => ?_
  · rw [parent_detach, link, ha.parent_attach]
    by_cases hm : m = c
    · rw [if_pos hm, hm, ha.root]
    · rw [if_neg hm, if_neg hm]
  · rw [(ha.wellFormed_link wf hi).children_detach, link, ha.children_attach]
    by_cases hm : m = p
    · rw [if_pos hm, filter_insertIdx_of_not_mem (wf.not_mem_children_of_root ha.root p), hm]
    · rw [if_neg hm, wf.filter_children (by simp [ha.root])]

theorem WellFormed.attachable_detach (hp : f.parent c = some p) : (f.detach c).Attachable p c := by
  have hfault : f.insertFault? p none c = none :=
    insertFault?_eq_none wf (wf.ne_parent hp)
      (fun h => wf.acyclic c (h.trans (above_of_parent hp))) (Nat.le_refl _)
  exact wf.attachable_of_insertFault? (wf.has_parent hp) (has_of_parent hp) hfault

theorem WellFormed.above_detach {n : NodeId} (h : f.Above c n) : (f.detach c).Above c n := by
  induction h with
  | single hp =>
    refine above_of_parent ?_
    rw [parent_detach, if_neg (wf.ne_parent hp)]
    exact hp
  | tail hup hp ih =>
    rename_i b m
    have hne : m ≠ c := by
      rintro rfl
      exact wf.acyclic m (hup.tail hp)
    refine ih.trans (above_of_parent ?_)
    rw [parent_detach, if_neg hne]
    exact hp

variable (hp : f.parent c = some p) (hi : f.index? c = some i)

include hp hi

theorem WellFormed.index_le_detach : i ≤ ((f.detach c).children p).length := by
  obtain ⟨hlt, -, -⟩ := List.idxOf?_eq_some_iff.mp (idxOf?_of_index? hp hi)
  rw [wf.length_children_detach, available, if_pos hp]
  omega

theorem WellFormed.link_detach : (f.detach c).link p i c = f := by
  have hidx := idxOf?_of_index? hp hi
  have ha := wf.attachable_detach hp
  refine ext_fields (by simp) (fun m => by simp [link]) (fun m => by simp [link]) (fun m => ?_)
    fun m => ?_
  · rw [link, ha.parent_attach, parent_detach]
    by_cases hm : m = c
    · rw [if_pos hm, hm, hp]
    · rw [if_neg hm, if_neg hm]
  · rw [link, ha.children_attach, wf.children_detach, wf.children_detach]
    by_cases hm : m = p
    · obtain ⟨hlt, hc, -⟩ := List.idxOf?_eq_some_iff.mp hidx
      rw [if_pos hm, insertIdx_filter_eq_set (wf.nodup p) hidx, hm, ← hc, List.set_getElem_self]
    · rw [if_neg hm, wf.filter_children]
      rw [hp]
      exact fun e => hm (Option.some.inj e).symm

end Pairs

/-! ## Coming back -/

section Returns

variable {f g : Forest} (wf : f.WellFormed) {p c : NodeId} {i : Nat}
  (hp : f.parent c = some p) (hi : f.index? c = some i)

include wf hp hi

/-- Wherever the node is: without it the forests are the same. -/
theorem WellFormed.insert_back (wg : g.WellFormed) (hsame : g.detach c = f.detach c) :
    g.insert p (some i) c = .ok f := by
  -- What is below `c` is below it without its own link too, and without it both forests agree.
  have hna : ¬ g.Above c p := by
    intro h
    have h := wg.above_detach h
    rw [hsame] at h
    exact (wf.attachable_detach hp).not_above h
  have hle : i ≤ g.available p c := by
    rw [← wg.length_children_detach, hsame]
    exact wf.index_le_detach hp hi
  have hfault : g.insertFault? p (some i) c = none :=
    insertFault?_eq_none wg (wf.ne_parent hp) hna hle
  rw [Forest.insert, hfault, Forest.moveTo, hsame, Option.getD_some, wf.link_detach hp hi]

theorem WellFormed.insert_returns {q : NodeId} {j : Nat} (hq : f.Has q) (hne : q ≠ c)
    (hna : ¬ f.Above c q) (hj : j ≤ (f.childrenBut c q).length) :
    ∃ g, f.insert q (some j) c = .ok g ∧ g.insert p (some i) c = .ok f := by
  rw [wf.length_childrenBut] at hj
  have hfault : f.insertFault? q (some j) c = none :=
    insertFault?_eq_none wf (Ne.symm hne) hna hj
  have hc := has_of_parent hp
  have ha := wf.attachable_of_insertFault? hq hc hfault
  refine ⟨f.moveTo q (some j) c, by rw [Forest.insert, hfault],
    wf.insert_back hp hi (wf.moveTo hq hc hfault) ?_⟩
  rw [Forest.moveTo, (wf.detach c).detach_link ha]
  rw [wf.length_children_detach]
  exact hj

theorem WellFormed.untie_returns :
    ∃ g, f.untie c = .ok g ∧ g.insert p (some i) c = .ok f := by
  have hroot : (f.detach c).parent c = none := by rw [parent_detach, if_pos rfl]
  refine ⟨f.detach c, by simp [Forest.untie, untieFault?, hp],
    wf.insert_back hp hi (wf.detach c) (detach_of_root hroot)⟩

theorem WellFormed.replace_eq_link {y : NodeId} (hy : f.Has y) (hroot : f.parent y = none)
    (hna : ¬ f.Above y c) :
    f.replace c y = .ok ((f.detach c).link p i y) ∧ (f.detach c).Attachable p y := by
  have hne : y ≠ c := by
    rintro rfl
    rw [hp] at hroot
    cases hroot
  have hidx : ((f.detach y).children p).idxOf? c = some i := by
    rw [detach_of_root hroot]
    exact idxOf?_of_index? hp hi
  have hfault : f.replaceFault? c y = none := by
    rw [wf.replaceFault?_eq hp hne, if_neg (fun h => hna (wf.isAncestor_iff.mp h))]
  have hexchange := wf.exchange_eq hp hne hy hna hidx
  have ha := wf.attachable_exchange hp hne hy hna
  rw [detach_of_root hroot] at hexchange ha
  exact ⟨by rw [Forest.replace, hfault, hexchange], ha⟩

theorem WellFormed.replace_returns {y : NodeId} (hy : f.Has y) (hroot : f.parent y = none)
    (hna : ¬ f.Above y c) : ∃ g, f.replace c y = .ok g ∧ g.replace y c = .ok f := by
  obtain ⟨hreplace, ha⟩ := wf.replace_eq_link hp hi hy hroot hna
  have hle := wf.index_le_detach hp hi
  have hback := wf.attachable_detach hp
  have hparent : ∀ m, ((f.detach c).link p i y).parent m =
      if m = y then some p else (f.detach c).parent m := ha.parent_attach
  -- In between `y` stands where `c` was, and `c` is a root that is not above `y`.
  obtain ⟨hpy, hiy⟩ := ha.place_link (wf.detach c) hle
  have hne : c ≠ y := by
    rintro rfl
    rw [hp] at hroot
    cases hroot
  have hpc : ((f.detach c).link p i y).parent c = none := by
    rw [hparent, if_neg hne, hback.root]
  have hnc : ¬ ((f.detach c).link p i y).Above c y := by
    intro h
    rcases above_attach hparent h with h | ⟨-, h⟩
    · obtain ⟨q, hq, -⟩ := above_iff.mp h
      rw [ha.root] at hq
      cases hq
    · exact h.elim hback.ne hback.not_above
  have hc : ((f.detach c).link p i y).Has c := by simpa [Has] using has_of_parent hp
  obtain ⟨hreturn, -⟩ :=
    (ha.wellFormed_link (wf.detach c) hle).replace_eq_link hpy hiy hc hpc hnc
  refine ⟨_, hreplace, ?_⟩
  rw [hreturn, (wf.detach c).detach_link ha hle, wf.link_detach hp hi]

end Returns

/-! ## The main statement -/

/-- A node that has left its place gets back to it, and the forest is the one that it was. -/
theorem return_restores_forest {f : Forest} (wf : f.WellFormed) {c p : NodeId} {i : Nat}
    (hp : f.parent c = some p) (hi : f.index? c = some i) :
    (∀ q j, f.Has q → q ≠ c → ¬ f.Above c q → j ≤ (f.childrenBut c q).length →
      ∃ g, f.insert q (some j) c = .ok g ∧ g.insert p (some i) c = .ok f) ∧
    (∃ g, f.untie c = .ok g ∧ g.insert p (some i) c = .ok f) ∧
    ∀ y, f.Has y → f.parent y = none → ¬ f.Above y c →
      ∃ g, f.replace c y = .ok g ∧ g.replace y c = .ok f :=
  ⟨fun _ _ => wf.insert_returns hp hi, wf.untie_returns hp hi, fun _ => wf.replace_returns hp hi⟩

/-- A child goes to the end of its own list, below a sibling and below another root, and back. -/
theorem return_restores_forest_of_middle :
    let f := Forest.empty.perform [.new "r", .addChild ⟨0⟩ "a", .addChild ⟨0⟩ "b",
      .addChild ⟨0⟩ "c", .addChild ⟨2⟩ "d", .new "s"]
    f.WellFormed ∧ f.parent ⟨2⟩ = some ⟨0⟩ ∧ f.index? ⟨2⟩ = some 1 ∧
      (∀ q ∈ [(⟨0⟩, 2), (⟨1⟩, 0), (⟨5⟩, 0)],
        ∃ g, f.insert q.1 (some q.2) ⟨2⟩ = .ok g ∧ g ≠ f ∧ g.insert ⟨0⟩ (some 1) ⟨2⟩ = .ok f) ∧
      (∃ g, f.untie ⟨2⟩ = .ok g ∧ g.insert ⟨0⟩ (some 1) ⟨2⟩ = .ok f) ∧
      ∃ g, f.replace ⟨2⟩ ⟨5⟩ = .ok g ∧ g ≠ f ∧ g.replace ⟨5⟩ ⟨2⟩ = .ok f := by
  intro f
  have wf : f.WellFormed := wellFormed_empty.perform (by decide)
  have hp : f.parent ⟨2⟩ = some ⟨0⟩ := by decide
  have hi : f.index? ⟨2⟩ = some 1 := by decide
  obtain ⟨hinsert, huntie, hreplace⟩ := return_restores_forest wf hp hi
  have hbelow : ∀ m, f.isAncestor ⟨2⟩ m = false → ¬ f.Above ⟨2⟩ m := fun m h ha => by
    rw [wf.isAncestor_iff.mpr ha] at h
    cases h
  refine ⟨wf, hp, hi, fun q hq => ?_, huntie, ?_⟩
  · have hplaces : ∀ q ∈ [((⟨0⟩ : NodeId), 2), (⟨1⟩, 0), (⟨5⟩, 0)],
        f.Has q.1 ∧ q.1 ≠ ⟨2⟩ ∧ f.isAncestor ⟨2⟩ q.1 = false ∧
          q.2 ≤ (f.childrenBut ⟨2⟩ q.1).length ∧ f.insert q.1 (some q.2) ⟨2⟩ ≠ .ok f := by decide
    obtain ⟨hhas, hne, hna, hle, hmoved⟩ := hplaces q hq
    obtain ⟨g, hg, hback⟩ := hinsert q.1 q.2 hhas hne (hbelow q.1 hna) hle
    refine ⟨g, hg, ?_, hback⟩
    rintro rfl
    exact hmoved hg
  · have hroot : f.parent ⟨5⟩ = none := by decide
    have hna : ¬ f.Above ⟨5⟩ ⟨2⟩ := fun ha => by
      have h := wf.isAncestor_iff.mpr ha
      revert h
      decide
    obtain ⟨g, hg, hback⟩ := hreplace ⟨5⟩ (by decide) hroot hna
    refine ⟨g, hg, ?_, hback⟩
    rintro rfl
    revert hg
    decide

end EventTree.Forest
