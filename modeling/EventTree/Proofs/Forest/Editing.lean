import EventTree.Proofs.Forest.WellFormed

/-!
# Well-formedness under edits

For each edit its effect on parents and children, field by field, and from it that the forest stays
well formed. No edit but `setName` and `setValue` changes a name or a value.
-/

namespace EventTree.Forest

/-! ## Edits that leave the links alone -/

theorem wellFormed_empty : WellFormed .empty where
  linked p c := by
    rw [children_of_not_has (by simp [Has, empty, size]),
      parent_of_not_has (by simp [Has, empty, size])]
    simp
  nodup p := by
    rw [children_of_not_has (by simp [Has, empty, size])]
    exact List.nodup_nil
  acyclic n h := by
    have := h.has_right
    simp [Has, empty, size] at this
  held n m h := by
    have := has_of_value h
    simp [Has, empty, size] at this

theorem WellFormed.of_links {f g : Forest} (wf : f.WellFormed)
    (hp : ∀ n, g.parent n = f.parent n) (hc : ∀ n, g.children n = f.children n)
    (hv : ∀ n m, g.value n = some (.node m) → g.Has m) : g.WellFormed where
  linked p c := by rw [hp, hc]; exact wf.linked p c
  nodup p := by rw [hc]; exact wf.nodup p
  acyclic n h := wf.acyclic n (h.mono fun c p h => hp c ▸ h)
  held := hv

theorem WellFormed.create {f : Forest} (wf : f.WellFormed) (a : String) :
    (f.create a).2.WellFormed := by
  apply wf.of_links (fun _ => parent_create) (fun _ => children_create)
  intro n m h
  rw [value_create] at h
  have := wf.held n m h
  unfold Has at this ⊢
  rw [size_create]
  omega

theorem WellFormed.setName {f : Forest} (wf : f.WellFormed) (n : NodeId) (a : String) :
    (f.setName n a).WellFormed := by
  apply wf.of_links (fun _ => parent_setName) (fun _ => children_setName)
  intro k m h
  rw [value_setName] at h
  exact has_setName.mpr (wf.held k m h)

theorem WellFormed.setValue {f : Forest} (wf : f.WellFormed) (n : NodeId) {v : Option LiveValue}
    (hv : ∀ m, v = some (.node m) → f.Has m) : (f.setValue n v).WellFormed := by
  apply wf.of_links (fun _ => parent_setValue) (fun _ => children_setValue)
  intro k m h
  rw [has_setValue]
  by_cases hn : f.Has n
  · rw [value_setValue hn] at h
    split at h
    · exact hv m h
    · exact wf.held k m h
  · rw [Forest.setValue, update_of_not_has hn] at h
    exact wf.held k m h

/-! ## Taking a node out -/

theorem detach_of_root {f : Forest} {n : NodeId} (h : f.parent n = none) : f.detach n = f := by
  rw [detach, h]

theorem detach_of_child {f : Forest} {n p : NodeId} (h : f.parent n = some p) :
    f.detach n = (f.setChildren p (·.filter (· ≠ n))).setParent n none := by
  rw [detach, h]

section Detach

variable {f : Forest} {n m : NodeId}

@[simp]
theorem size_detach : (f.detach n).size = f.size := by
  unfold detach; split <;> simp

@[simp]
theorem has_detach : (f.detach n).Has m ↔ f.Has m := by simp [Has]

@[simp]
theorem name_detach : (f.detach n).name m = f.name m := by
  unfold detach; split <;> simp

@[simp]
theorem value_detach : (f.detach n).value m = f.value m := by
  unfold detach; split <;> simp

theorem parent_detach : (f.detach n).parent m = if m = n then none else f.parent m := by
  cases h : f.parent n with
  | none =>
    rw [detach_of_root h]
    split
    · subst m; exact h
    · rfl
  | some p =>
    rw [detach_of_child h, parent_setParent (by simpa using has_of_parent h), parent_setChildren]

theorem cell_detach (hm : m ≠ n) (hp : f.parent n ≠ some m) : (f.detach n).cell m = f.cell m := by
  cases h : f.parent n with
  | none => rw [detach_of_root h]
  | some p =>
    have hmp : m ≠ p := fun e => hp (e ▸ h)
    rw [detach_of_child h, setParent, cell_update_ne hm, setChildren, cell_update_ne hmp]

theorem parent_of_parent_detach {p : NodeId} (h : (f.detach n).parent m = some p) :
    f.parent m = some p := by
  rw [parent_detach] at h
  split at h
  · cases h
  · exact h

end Detach

namespace WellFormed

variable {f : Forest} (wf : f.WellFormed)

include wf

theorem filter_children {n q : NodeId} (h : f.parent n ≠ some q) :
    (f.children q).filter (· ≠ n) = f.children q := by
  rw [List.filter_eq_self]
  intro c hc
  refine decide_eq_true fun e => h ?_
  rw [← e]
  exact (wf.linked q c).mp hc

theorem children_detach (n q : NodeId) :
    (f.detach n).children q = (f.children q).filter (· ≠ n) := by
  cases h : f.parent n with
  | none =>
    rw [detach_of_root h, wf.filter_children (by simp [h])]
  | some p =>
    rw [detach_of_child h, children_setParent, children_setChildren (wf.has_parent h)]
    split
    · rw [‹q = p›]
    · rw [wf.filter_children]
      rw [h]
      exact fun e => ‹¬ q = p› (Option.some.inj e).symm

theorem detach (n : NodeId) : (f.detach n).WellFormed where
  linked p c := by
    rw [wf.children_detach, parent_detach, List.mem_filter, wf.linked p c, decide_eq_true_iff]
    split <;> simp_all
  nodup p := by
    rw [wf.children_detach]
    exact (wf.nodup p).filter _
  acyclic m h := wf.acyclic m (h.mono fun _ _ => parent_of_parent_detach)
  held k m h := by
    rw [value_detach] at h
    exact has_detach.mpr (wf.held k m h)

theorem length_children_detach (n p : NodeId) :
    ((f.detach n).children p).length = f.available p n := by
  -- No child is listed twice, so filtering it out is erasing it.
  have hf : (f.children p).filter (· ≠ n) = (f.children p).erase n := by
    rw [(wf.nodup p).erase_eq_filter]
    apply List.filter_congr
    intro c _
    by_cases h : c = n <;> simp [h]
  rw [wf.children_detach, hf, available]
  by_cases h : f.parent n = some p
  · rw [if_pos h, List.length_erase_of_mem ((wf.linked p n).mpr h)]
  · rw [if_neg h, List.erase_of_not_mem (fun hm => h ((wf.linked p n).mp hm))]
    rfl

end WellFormed

/-! ## Putting a node in -/

/-- A new edge from `p` down to a root `c` makes what is at or above `p` be above what is at or
below `c`, and nothing else. -/
theorem above_attach {f g : Forest} {p c : NodeId}
    (hg : ∀ m, g.parent m = if m = c then some p else f.parent m) {a n : NodeId}
    (h : g.Above a n) :
    f.Above a n ∨ (n = c ∨ f.Above c n) ∧ (a = p ∨ f.Above a p) := by
  induction h with
  | single h =>
    unfold IsParent at h
    rw [hg] at h
    split at h
    · exact Or.inr ⟨Or.inl ‹_›, Or.inl (Option.some.inj h).symm⟩
    · exact Or.inl (above_of_parent h)
  | tail _ h ih =>
    unfold IsParent at h
    rw [hg] at h
    split at h
    · -- The last step is the new edge, so all before it is at or above `p`.
      obtain rfl := Option.some.inj h
      refine Or.inr ⟨Or.inl ‹_›, ?_⟩
      rcases ih with ha | ⟨-, ha⟩
      · exact Or.inr ha
      · exact ha
    · -- The last step is an old edge. It is below `c` if the way came through the new one.
      rcases ih with ha | ⟨hc, ha⟩
      · exact Or.inl (ha.trans (above_of_parent h))
      · refine Or.inr ⟨Or.inr ?_, ha⟩
        rcases hc with rfl | hc
        · exact above_of_parent h
        · exact hc.trans (above_of_parent h)

theorem cell_attach {f : Forest} {p c m : NodeId} {change : List NodeId → List NodeId} (hp : m ≠ p)
    (hc : m ≠ c) : ((f.setParent c (some p)).setChildren p change).cell m = f.cell m := by
  rw [setChildren, cell_update_ne hp, setParent, cell_update_ne hc]

/-- Whether a root may become a child of a node. -/
structure Attachable (f : Forest) (p c : NodeId) : Prop where
  has_parent : f.Has p
  has_child : f.Has c
  root : f.parent c = none
  ne : c ≠ p
  not_above : ¬ f.Above c p

namespace Attachable

variable {f : Forest} {p c : NodeId} (h : f.Attachable p c) {change : List NodeId → List NodeId}

include h

theorem parent_attach (m : NodeId) :
    ((f.setParent c (some p)).setChildren p change).parent m =
      if m = c then some p else f.parent m := by
  rw [parent_setChildren, parent_setParent h.has_child]

theorem children_attach (q : NodeId) :
    ((f.setParent c (some p)).setChildren p change).children q =
      if q = p then change (f.children p) else f.children q := by
  rw [children_setChildren (has_setParent.mpr h.has_parent), children_setParent,
    children_setParent]

theorem wellFormed (wf : f.WellFormed) (hperm : (change (f.children p)).Perm (c :: f.children p)) :
    ((f.setParent c (some p)).setChildren p change).WellFormed where
  linked q m := by
    rw [h.parent_attach, h.children_attach]
    by_cases hq : q = p
    · subst hq
      rw [if_pos rfl, hperm.mem_iff, List.mem_cons, wf.linked]
      split <;> simp_all
    · rw [if_neg hq, wf.linked]
      split
      · subst m
        simp [h.root, Ne.symm hq]
      · rfl
  nodup q := by
    rw [h.children_attach]
    split
    · exact hperm.nodup_iff.mpr
        (List.nodup_cons.mpr ⟨wf.not_mem_children_of_root h.root p, wf.nodup p⟩)
    · exact wf.nodup q
  acyclic n hn := by
    rcases above_attach h.parent_attach hn with ha | ⟨hc, ha⟩
    · exact wf.acyclic n ha
    · -- A cycle would go through the new edge, so `c` was at or above `p` before.
      rcases hc with rfl | hc <;> rcases ha with ha | ha
      · exact h.ne ha
      · exact h.not_above ha
      · exact h.not_above (ha ▸ hc)
      · exact h.not_above (hc.trans ha)
  held k m hv := by
    rw [value_setChildren, value_setParent] at hv
    rw [has_setChildren, has_setParent]
    exact wf.held k m hv

theorem wellFormed_append (wf : f.WellFormed) : (f.append p c).WellFormed :=
  h.wellFormed wf (List.perm_append_singleton c _)

theorem wellFormed_link (wf : f.WellFormed) {position : Nat}
    (hpos : position ≤ (f.children p).length) : (f.link p position c).WellFormed :=
  h.wellFormed wf (List.perm_insertIdx c _ hpos)

end Attachable

/-! ## Inserting and removing -/

section Move

variable {f : Forest} {p c : NodeId} {position : Option Nat}

theorem WellFormed.attachable_of_insertFault? (wf : f.WellFormed) (hp : f.Has p) (hc : f.Has c)
    (h : f.insertFault? p position c = none) : (f.detach c).Attachable p c := by
  unfold insertFault? at h
  split at h
  · cases h
  · rename_i hna
    rw [not_or, wf.isAncestor_iff] at hna
    refine ⟨has_detach.mpr hp, has_detach.mpr hc, ?_, hna.1, ?_⟩
    · rw [parent_detach, if_pos rfl]
    · exact fun ha => hna.2 (ha.mono fun _ _ => parent_of_parent_detach)

theorem position_le_of_insertFault? (h : f.insertFault? p position c = none) :
    position.getD (f.available p c) ≤ f.available p c := by
  unfold insertFault? at h
  split at h
  · cases h
  · simp only at h
    split at h
    · cases h
    · omega

theorem WellFormed.moveTo (wf : f.WellFormed) (hp : f.Has p) (hc : f.Has c)
    (h : f.insertFault? p position c = none) : (f.moveTo p position c).WellFormed := by
  have ha := wf.attachable_of_insertFault? hp hc h
  apply ha.wellFormed_link (wf.detach c)
  rw [wf.length_children_detach]
  exact position_le_of_insertFault? h

theorem WellFormed.links_moveTo (wf : f.WellFormed) (hp : f.Has p) (hc : f.Has c)
    (h : f.insertFault? p position c = none) :
    (∀ m, (f.moveTo p position c).parent m = if m = c then some p else f.parent m) ∧
      ∀ q, (f.moveTo p position c).children q =
        if q = p then ((f.children p).filter (· ≠ c)).insertIdx (position.getD (f.available p c)) c
        else (f.children q).filter (· ≠ c) := by
  have ha := wf.attachable_of_insertFault? hp hc h
  constructor
  · intro m
    rw [Forest.moveTo, link, ha.parent_attach, parent_detach]
    split <;> rfl
  · intro q
    rw [Forest.moveTo, link, ha.children_attach, wf.children_detach, wf.children_detach]

theorem insertFault?_eq_none (wf : f.WellFormed) (hne : c ≠ p) (hna : ¬ f.Above c p)
    (hpos : position.getD (f.available p c) ≤ f.available p c) :
    f.insertFault? p position c = none := by
  rw [insertFault?, if_neg]
  · simp only
    rw [if_neg (by omega)]
  · rintro (h | h)
    · exact hne h
    · exact hna (wf.isAncestor_iff.mp h)

theorem insert_eq_ok {g : Forest} (h : f.insert p position c = .ok g) :
    f.insertFault? p position c = none ∧ g = f.moveTo p position c := by
  unfold Forest.insert at h
  split at h
  · cases h
  · cases h
    exact ⟨‹_›, rfl⟩

theorem WellFormed.insert (wf : f.WellFormed) (hp : f.Has p) (hc : f.Has c) {g : Forest}
    (h : f.insert p position c = .ok g) : g.WellFormed := by
  obtain ⟨hfault, rfl⟩ := insert_eq_ok h
  exact wf.moveTo hp hc hfault

theorem untie_eq_ok {n : NodeId} {g : Forest} (h : f.untie n = .ok g) : g = f.detach n := by
  unfold Forest.untie at h
  split at h
  · cases h
  · cases h
    rfl

theorem WellFormed.untie (wf : f.WellFormed) {n : NodeId} {g : Forest} (h : f.untie n = .ok g) :
    g.WellFormed := by
  rw [untie_eq_ok h]
  exact wf.detach n

@[simp]
theorem size_link {position : Nat} : (f.link p position c).size = f.size := by simp [link]

@[simp]
theorem size_append : (f.append p c).size = f.size := by simp [append]

@[simp]
theorem size_moveTo : (f.moveTo p position c).size = f.size := by simp [moveTo]

@[simp]
theorem name_moveTo {m : NodeId} : (f.moveTo p position c).name m = f.name m := by
  simp [moveTo, link]

@[simp]
theorem value_moveTo {m : NodeId} : (f.moveTo p position c).value m = f.value m := by
  simp [moveTo, link]

end Move

/-! ## Clearing -/

section Clear

variable {f : Forest} {n m : NodeId} {l : List NodeId}

theorem part_orphaned {β : Type} {part : Cell → β}
    (h : ∀ c : Cell, part { c with parent := none } = part c) :
    part ((l.foldl (fun f c => f.setParent c none) f).cell m) = part (f.cell m) := by
  induction l generalizing f with
  | nil => rfl
  | cons c l ih => rw [List.foldl_cons, ih]; exact part_update h

@[simp]
theorem size_orphaned : (l.foldl (fun f c => f.setParent c none) f).size = f.size := by
  induction l generalizing f with
  | nil => rfl
  | cons c l ih => rw [List.foldl_cons, ih, size_setParent]

theorem parent_orphaned :
    (l.foldl (fun f c => f.setParent c none) f).parent m = if m ∈ l then none else f.parent m := by
  induction l generalizing f with
  | nil => simp
  | cons c l ih =>
    rw [List.foldl_cons, ih]
    by_cases hc : f.Has c
    · rw [parent_setParent hc]
      by_cases hm : m = c <;> simp [hm]
    · rw [Forest.setParent, update_of_not_has hc]
      by_cases hm : m = c
      · simp [hm, parent_of_not_has hc]
      · simp [hm]

@[simp]
theorem size_clear : (f.clear n).size = f.size := by simp [clear]

@[simp]
theorem name_clear : (f.clear n).name m = f.name m := by
  rw [clear, name_setChildren]
  exact part_orphaned fun _ => rfl

@[simp]
theorem value_clear : (f.clear n).value m = f.value m := by
  rw [clear, value_setChildren]
  exact part_orphaned fun _ => rfl

theorem parent_clear :
    (f.clear n).parent m = if m ∈ f.children n then none else f.parent m := by
  rw [clear, parent_setChildren, parent_orphaned]

theorem children_clear : (f.clear n).children m = if m = n then [] else f.children m := by
  have hsame : ∀ k, ((f.children n).foldl (fun f c => f.setParent c none) f).children k =
      f.children k := fun k => part_orphaned fun _ => rfl
  by_cases hn : f.Has n
  · rw [clear, children_setChildren (by simpa [Has] using hn), hsame]
  · have hnil : f.children n = [] := children_of_not_has hn
    rw [clear, hnil, List.foldl_nil, Forest.setChildren, update_of_not_has hn]
    split
    · subst m; exact hnil
    · rfl

theorem cell_clear (hne : m ≠ n) (hm : m ∉ f.children n) : (f.clear n).cell m = f.cell m := by
  refine cell_ext name_clear value_clear ?_ ?_
  · exact parent_clear.trans (if_neg hm)
  · exact children_clear.trans (if_neg hne)

theorem WellFormed.clear (wf : f.WellFormed) (n : NodeId) : (f.clear n).WellFormed where
  linked p c := by
    rw [parent_clear, children_clear]
    by_cases hp : p = n
    · subst hp
      have := wf.linked p c
      split <;> simp_all
    · rw [if_neg hp, wf.linked]
      split
      · rename_i hc
        rw [(wf.linked n c).mp hc]
        simp [Ne.symm hp]
      · rfl
  nodup p := by
    rw [children_clear]
    split
    · exact List.nodup_nil
    · exact wf.nodup p
  acyclic k h := wf.acyclic k <| h.mono fun c p hp => by
    rw [parent_clear] at hp
    split at hp
    · cases hp
    · exact hp
  held k m h := by
    rw [value_clear] at h
    have := wf.held k m h
    unfold Has at this ⊢
    rwa [size_clear]

end Clear

/-! ## Replacing -/

theorem insertIdx_filter_eq_set {l : List NodeId} (hl : l.Nodup) {n other : NodeId} {i : Nat}
    (h : l.idxOf? n = some i) : (l.filter (· ≠ n)).insertIdx i other = l.set i other := by
  induction l generalizing i with
  | nil => cases h
  | cons x l ih =>
    rw [List.nodup_cons] at hl
    rw [List.idxOf?_cons] at h
    by_cases hx : x = n
    · subst hx
      simp only [beq_self_eq_true, if_true, Option.some.injEq] at h
      subst h
      rw [List.filter_cons_of_neg (by simp), List.filter_eq_self.mpr]
      · rfl
      · intro y hy
        refine decide_eq_true ?_
        rintro rfl
        exact hl.1 hy
    · rw [if_neg (by simpa using hx), Option.map_eq_some_iff] at h
      obtain ⟨j, hj, rfl⟩ := h
      rw [List.filter_cons_of_pos (by simpa using hx), List.insertIdx_succ_cons, ih hl.2 hj]
      rfl

@[simp]
theorem size_exchange {f : Forest} {n other : NodeId} : (f.exchange n other).size = f.size := by
  unfold exchange
  split
  · rfl
  · split <;> simp

section Exchange

variable {f : Forest} (wf : f.WellFormed) {n other p : NodeId}

include wf

theorem WellFormed.index_of_child (h : f.parent n = some p) :
    ∃ i, f.index? n = some i ∧ (f.children p).idxOf? n = some i := by
  rw [index?, h]
  cases hi : (f.children p).idxOf? n with
  | none =>
    rw [List.idxOf?_eq_none_iff] at hi
    exact absurd ((wf.linked p n).mpr h) hi
  | some i => exact ⟨i, hi, rfl⟩

/-- A place cannot be lost: what is taken out is not the node that is replaced. -/
theorem WellFormed.replaceFault?_eq (h : f.parent n = some p) (hne : other ≠ n) :
    f.replaceFault? n other =
      if f.isAncestor other n then some (.replaceByAncestor (f.name n) (f.name other)) else none := by
  have hp : (f.detach other).parent n = some p := by
    rw [parent_detach, if_neg (Ne.symm hne), h]
  obtain ⟨i, hi, -⟩ := (wf.detach other).index_of_child hp
  simp only [replaceFault?, h, if_neg hne, hi]
  simp

theorem WellFormed.attachable_exchange (h : f.parent n = some p) (hne : other ≠ n)
    (ho : f.Has other) (hna : ¬ f.Above other n) :
    ((f.detach other).detach n).Attachable p other where
  has_parent := by simpa using wf.has_parent h
  has_child := by simpa using ho
  root := by rw [parent_detach, if_neg hne, parent_detach, if_pos rfl]
  ne := by
    rintro rfl
    exact hna (above_of_parent h)
  not_above ha := by
    refine hna (Above.trans ?_ (above_of_parent h))
    exact ha.mono fun _ _ hp => parent_of_parent_detach (parent_of_parent_detach hp)

theorem WellFormed.exchange_eq (h : f.parent n = some p) (hne : other ≠ n) (ho : f.Has other)
    (hna : ¬ f.Above other n) {i : Nat} (hi : ((f.detach other).children p).idxOf? n = some i) :
    f.exchange n other = ((f.detach other).detach n).link p i other := by
  have ha := wf.attachable_exchange h hne ho hna
  have wf₁ := wf.detach other
  have hp : (f.detach other).parent n = some p := by
    rw [parent_detach, if_neg (Ne.symm hne), h]
  have hindex : (f.detach other).index? n = some i := by rw [index?, hp]; exact hi
  have hhas : (f.detach other).Has p := wf₁.has_parent hp
  have hex : f.exchange n other =
      (((f.detach other).setChildren p (·.set i other)).setParent other (some p)).setParent n none := by
    simp only [exchange, if_neg hne, h, hindex, Option.getD_some]
  rw [hex]
  -- Names and values are untouched, and the links are compared one by one.
  refine ext_fields (by simp) (fun m => by simp [link]) (fun m => by simp [link]) (fun m => ?_)
    fun m => ?_
  · rw [link, ha.parent_attach, parent_setParent (by simpa using has_of_parent h),
      parent_setParent (by simpa using ho), parent_setChildren, parent_detach]
    by_cases hm : m = n
    · subst hm
      simp [Ne.symm hne, parent_detach]
    · simp [hm, parent_detach]
  · rw [link, ha.children_attach, children_setParent, children_setParent,
      children_setChildren hhas]
    by_cases hm : m = p
    · rw [if_pos hm, if_pos hm, wf₁.children_detach n p, insertIdx_filter_eq_set (wf₁.nodup p) hi]
    · rw [if_neg hm, if_neg hm, wf₁.children_detach n m, wf₁.filter_children]
      rw [hp]
      exact fun e => hm (Option.some.inj e).symm

theorem WellFormed.exchange_eq_link (h : f.parent n = some p) (hne : other ≠ n) (ho : f.Has other)
    (hna : ¬ f.Above other n) :
    ∃ i, f.exchange n other = ((f.detach other).detach n).link p i other ∧
      i ≤ (((f.detach other).detach n).children p).length := by
  have wf₁ := wf.detach other
  have hp : (f.detach other).parent n = some p := by
    rw [parent_detach, if_neg (Ne.symm hne), h]
  obtain ⟨i, -, hi⟩ := wf₁.index_of_child hp
  refine ⟨i, wf.exchange_eq h hne ho hna hi, ?_⟩
  have hlt : i < ((f.detach other).children p).length := by
    rw [List.idxOf?_eq_some_iff] at hi
    exact hi.1
  rw [wf₁.length_children_detach, available, if_pos hp]
  omega

theorem WellFormed.exchange (h : f.parent n = some p) (hne : other ≠ n) (ho : f.Has other)
    (hna : ¬ f.Above other n) : (f.exchange n other).WellFormed := by
  obtain ⟨i, heq, hle⟩ := wf.exchange_eq_link h hne ho hna
  rw [heq]
  exact (wf.attachable_exchange h hne ho hna).wellFormed_link ((wf.detach other).detach n) hle

theorem WellFormed.replace_eq_ok {g : Forest} (h : f.replace n other = .ok g) :
    other = n ∧ g = f ∨
      ∃ p, f.parent n = some p ∧ other ≠ n ∧ ¬ f.Above other n ∧ g = f.exchange n other := by
  unfold Forest.replace at h
  split at h
  · cases h
  · cases h
    rename_i hnone
    by_cases hne : other = n
    · exact Or.inl ⟨hne, by rw [Forest.exchange, if_pos hne]⟩
    · cases hp : f.parent n with
      | none => simp [replaceFault?, hp] at hnone
      | some p =>
        rw [wf.replaceFault?_eq hp hne] at hnone
        refine Or.inr ⟨p, rfl, hne, fun ha => ?_, rfl⟩
        rw [if_pos (wf.isAncestor_iff.mpr ha)] at hnone
        cases hnone

theorem WellFormed.replace (ho : f.Has other) {g : Forest} (h : f.replace n other = .ok g) :
    g.WellFormed := by
  rcases wf.replace_eq_ok h with ⟨-, rfl⟩ | ⟨p, hp, hne, hna, rfl⟩
  · exact wf
  · exact wf.exchange hp hne ho hna

theorem WellFormed.replace_ne_lostPosition (a : String) :
    f.replace n other ≠ .error (.lostPosition a) := by
  intro h
  unfold Forest.replace at h
  split at h
  · rename_i cause hc
    cases h
    cases hp : f.parent n with
    | none => simp [replaceFault?, hp] at hc
    | some p =>
      by_cases hne : other = n
      · simp [replaceFault?, hp, hne] at hc
      · rw [wf.replaceFault?_eq hp hne] at hc
        split at hc <;> simp at hc
  · cases h

end Exchange

end EventTree.Forest
