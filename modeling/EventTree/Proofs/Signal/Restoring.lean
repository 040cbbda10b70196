import EventTree.Proofs.Forest.Copies
import EventTree.Proofs.Isolation
import EventTree.Proofs.Trap.Blocks

/-!
# Putting nodes back, and returning

A loop puts its node back by giving it copies of what it had, and `return` gives copies of what its
statement has to a node of its own. Neither can be refused: a copy is new, so it lies above no node that
was there. Apart from the node itself, only its former children notice.
-/

namespace EventTree

namespace Forest

/-- Puts copies of nodes after the children of a node. -/
def appendCopies (n : NodeId) : List NodeId → Forest → Forest
  | [], f => f
  | c :: cs, f => appendCopies n cs ((f.copy c).2.append n (f.copy c).1)

/-- Takes the children of a node off, and gives it a copy of the value that another node has. -/
def revalued (f : Forest) (n pristine : NodeId) : Forest :=
  ((f.clear n).copyValue ((f.clear n).value pristine)).2.setValue n
    ((f.clear n).copyValue ((f.clear n).value pristine)).1

/-- Gives a node copies of the value and the children that another node has. -/
def restored (f : Forest) (n pristine : NodeId) : Forest :=
  appendCopies n ((f.revalued n pristine).children pristine) (f.revalued n pristine)

/-- `g` is `f` after a node was put back. -/
structure Restored (f : Forest) (n : NodeId) (g : Forest) : Prop where
  wellFormed : g.WellFormed
  size_le : f.size ≤ g.size
  cell_eq : ∀ m, f.Has m → m ≠ n → m ∉ f.children n → g.cell m = f.cell m

/-! ## Appending copies -/

theorem moveTo_none_of_root {f : Forest} {p c : NodeId} (h : f.parent c = none) :
    f.moveTo p none c = f.append p c := by
  have havailable : f.available p c = (f.children p).length := by simp [available, h]
  -- A root leaves no gap, so the last position is behind all children.
  have hchange : ∀ m, ((f.setParent c (some p)).setChildren p
      (·.insertIdx (f.children p).length c)).children m =
        ((f.setParent c (some p)).setChildren p (· ++ [c])).children m := by
    intro m
    by_cases hp : f.Has p
    · rw [children_setChildren (has_setParent.mpr hp), children_setChildren (has_setParent.mpr hp),
        children_setParent, children_setParent, List.insertIdx_length_self]
    · rw [setChildren, setChildren, update_of_not_has (by simpa using hp),
        update_of_not_has (by simpa using hp)]
  rw [moveTo, detach_of_root h, Option.getD_none, havailable, link, append]
  exact ext_fields (by simp) (by simp) (by simp) (by simp) hchange

section Appending

variable {f : Forest} (wf : f.WellFormed) {n : NodeId} (hn : f.Has n)

include wf hn

theorem outgrown_append_copy (c : NodeId) : f.Outgrown n ((f.copy c).2.append n (f.copy c).1) := by
  have hc := copied wf c
  have ha := hc.attachable wf hn
  have hnew : ∀ {m}, f.Has m → m ≠ (f.copy c).1 := fun hm e => hc.not_has (e ▸ hm)
  refine ⟨ha.wellFormed_append hc.wellFormed, ?_, ?_, ?_, ?_, [(f.copy c).1], ?_, ?_⟩
  · rw [size_append]
    exact hc.grown.size_le
  · intro m hm hne
    rw [append, cell_attach hne (hnew hm), hc.grown.cell_eq m hm]
  · rw [append, name_setChildren, name_setParent, hc.grown.name_eq hn]
  · rw [append, ha.parent_attach, if_neg (hnew hn), hc.grown.parent_eq hn]
  · rw [append, ha.children_attach, if_pos rfl, hc.grown.children_eq hn]
  · intro k hk
    rw [List.mem_singleton.mp hk]
    exact hc.not_has

theorem appendCopies_outgrown (cs : List NodeId) : f.Outgrown n (f.appendCopies n cs) := by
  induction cs generalizing f with
  | nil => exact Untouched.outgrown ⟨wf, Nat.le_refl _, fun _ _ => rfl⟩ hn
  | cons c cs ih =>
    have hstep := outgrown_append_copy wf hn c
    exact hstep.trans (ih hstep.wellFormed (hstep.has hn))

theorem value_appendCopies (cs : List NodeId) : (f.appendCopies n cs).value n = f.value n := by
  induction cs generalizing f with
  | nil => rfl
  | cons c cs ih =>
    have hstep := outgrown_append_copy wf hn c
    rw [appendCopies, ih hstep.wellFormed (hstep.has hn), append, value_setChildren, value_setParent,
      (copied wf c).grown.value_eq hn]

omit hn in
theorem grown_append_copy {e : Forest} (hg : e.Grown f) (hne : ¬ e.Has n) (c : NodeId) :
    e.Grown ((f.copy c).2.append n (f.copy c).1) := by
  have hc := copied wf c
  exact (hg.trans hc.grown).append hne fun h => hc.not_has (hg.has h)

theorem grown_appendCopies {e : Forest} (hg : e.Grown f) (hne : ¬ e.Has n) (cs : List NodeId) :
    e.Grown (f.appendCopies n cs) := by
  induction cs generalizing f with
  | nil => exact hg
  | cons c cs ih =>
    have hstep := outgrown_append_copy wf hn c
    exact ih hstep.wellFormed (hstep.has hn) (grown_append_copy wf hg hne c)

theorem view_appendCopies {h : Forest} {cs : List NodeId}
    (hcs : ∀ c ∈ cs, f.Has c ∧ f.Apart (· = n) c)
    (hsame : ∀ k, ¬ f.Has k → (f.appendCopies n cs).Has k → (f.appendCopies n cs).SameNode h k)
    (hsize : (f.appendCopies n cs).size ≤ h.size) :
    ∃ added, (f.appendCopies n cs).children n = f.children n ++ added ∧
      added.map h.view = cs.map f.view := by
  induction cs generalizing f with
  | nil => exact ⟨[], by simp [appendCopies], rfl⟩
  | cons c cs ih =>
    have hc := copied wf c
    have hstep := outgrown_append_copy wf hn c
    have hrest := appendCopies_outgrown hstep.wellFormed (hstep.has hn) cs
    have hview : h.view (f.copy c).1 = f.view c := by
      apply view_copy wf
      · intro k hk hkc
        have hkn : k ≠ n := fun e => hk (e ▸ hn)
        have hk' : ((f.copy c).2.append n (f.copy c).1).Has k := by simpa [Has] using hkc
        exact ((SameNode.append hkn).trans (.of_cell (hrest.cell_eq k hk' hkn))).trans
          (hsame k hk (hrest.has hk'))
      · have := hrest.size_le
        rw [size_append] at this
        exact Nat.le_trans this hsize
    -- What is still to be copied has not changed: only `n` has.
    have hcs' : ∀ d ∈ cs, f.Has d ∧ f.Apart (· = n) d := fun d hd =>
      hcs d (List.mem_cons_of_mem _ hd)
    obtain ⟨added, hadded, hviews⟩ := ih hstep.wellFormed (hstep.has hn)
      (fun d hd => ⟨hstep.has (hcs' d hd).1, (hcs' d hd).2.unchanged wf (hcs' d hd).1 hstep.cell_eq⟩)
      (fun k hk hkg => hsame k (fun hf => hk (hstep.has hf)) hkg) hsize
    have hrests : cs.map ((f.copy c).2.append n (f.copy c).1).view = cs.map f.view :=
      List.map_congr_left fun d hd =>
        (hcs' d hd).2.view_unchanged wf (hcs' d hd).1 hstep.cell_eq hstep.size_le
    refine ⟨(f.copy c).1 :: added, ?_, by simp [hview, hviews, hrests]⟩
    rw [appendCopies, hadded, append, (hc.attachable wf hn).children_attach, if_pos rfl,
      hc.grown.children_eq hn]
    simp

/-! ## Putting a node back -/

theorem revalued_outgrown (pristine : NodeId) :
    (f.clear n).Outgrown n (f.revalued n pristine) := by
  have hv := copiedValue (wf.clear n) ((f.clear n).value pristine)
  have huntouched := Untouched.outgrown ⟨hv.wellFormed, hv.grown.size_le, hv.grown.cell_eq⟩
    (by simpa [Has] using hn)
  exact huntouched.setValue (Or.inl rfl) fun k hk => (hv.node k hk).2

theorem restored_outgrown (pristine : NodeId) :
    (f.clear n).Outgrown n (f.restored n pristine) := by
  have hvalue := revalued_outgrown wf hn pristine
  exact hvalue.trans (appendCopies_outgrown hvalue.wellFormed (hvalue.has (by simpa [Has] using hn)) _)

theorem restored_spec (pristine : NodeId) : f.Restored n (f.restored n pristine) := by
  have ho := restored_outgrown wf hn pristine
  refine ⟨ho.wellFormed, by simpa using ho.size_le, fun m hm hne hmem => ?_⟩
  rw [ho.cell_eq m (by simpa [Has] using hm) hne, cell_clear hne hmem]

end Appending

end Forest

open EventTree.Action Keyword

/-! ## The actions -/

section Actions

variable (hold : Hold) {w : World} (wf : w.forest.WellFormed) {n : NodeId} (hn : w.forest.Has n)

include wf hn

theorem result_appendCopies (cs : List NodeId) :
    (forEach cs fun c => do
      let c ← copy c
      insert n none c).result hold w = (.ok (), w.on (w.forest.appendCopies n cs)) := by
  induction cs generalizing w with
  | nil => rfl
  | cons c cs ih =>
    have hc := Forest.copied wf c
    have ha := hc.attachable wf hn
    have hstep := Forest.outgrown_append_copy wf hn c
    have hcopy : (copy c).result hold w = (.ok (w.forest.copy c).1, w.on (w.forest.copy c).2) := rfl
    have hinsert : (insert n none (w.forest.copy c).1).result hold (w.on (w.forest.copy c).2) =
        (.ok (), w.on ((w.forest.copy c).2.append n (w.forest.copy c).1)) := by
      rw [result_insert_of_none, ← Forest.moveTo_none_of_root hc.root]
      · rfl
      · exact Forest.insertFault?_eq_none hc.wellFormed ha.ne ha.not_above (Nat.le_refl _)
    rw [forEach, result_bind_ok ((result_bind_ok hcopy).trans hinsert)]
    exact ih (w := w.on ((w.forest.copy c).2.append n (w.forest.copy c).1)) hstep.wellFormed
      (hstep.has hn)

theorem result_restore (pristine : NodeId) :
    (restore n pristine).result hold w = (.ok (), w.on (w.forest.restored n pristine)) := by
  have hvalue := Forest.revalued_outgrown wf hn pristine
  unfold restore copyValue
  rw [result_bind_ok (result_edit _), result_bind_ok (result_ask _), result_bind_ok (result_grow _),
    result_bind_ok (result_edit _), result_bind_ok (result_ask _)]
  exact (result_appendCopies hold (w := w.on (w.forest.revalued n pristine)) hvalue.wellFormed
    (hvalue.has (by simpa [Forest.Has] using hn)) _).trans (by rw [World.on_on, Forest.restored]; rfl)

end Actions

/-! ## Returning -/

namespace Forest

/-- A new node with a copy of a value. -/
def carrier (f : Forest) (name : String) (v : Option LiveValue) : Forest :=
  let (value, g) := (f.create name).2.copyValue v
  g.setValue ⟨f.size⟩ value

/-- A new node with copies of a value and of the children of a node. -/
def returned (f : Forest) (v : Option LiveValue) (n : NodeId) : Forest :=
  (f.carrier (f.name n) v).appendCopies ⟨f.size⟩ (f.children n)

/-- `g` is `f` with a new node `r` that carries copies of a value and of the children of a node. -/
structure Carrying (f : Forest) (v : Option LiveValue) (n r : NodeId) (g : Forest) : Prop where
  wellFormed : g.WellFormed
  grown : f.Grown g
  new : ¬ f.Has r
  has : g.Has r
  value_isSome : (g.value r).isSome = v.isSome
  /-- The copies are faithful, and stay so while no new node but the carrying one changes. -/
  faithful : (∀ c ∈ f.children n, f.IsFinite c) → (∀ k, v = some (.node k) → f.IsFinite k) →
    ∀ h, (∀ k, ¬ f.Has k → g.Has k → k ≠ r → g.SameNode h k) → g.size ≤ h.size →
      (g.children r).map h.view = (f.children n).map f.view ∧ h.viewValue (g.value r) = f.viewValue v

theorem isSome_copyValue (f : Forest) (v : Option LiveValue) : (f.copyValue v).1.isSome = v.isSome := by
  match v with
  | none | some (.node _) | some (.bool _) | some (.int _) | some (.float _) | some (.string _)
  | some (.selector _) => rfl

section Carrier

variable {f : Forest} (wf : f.WellFormed) (name : String) {v : Option LiveValue}

include wf

theorem has_copyValue : ((f.create name).2.copyValue v).2.Has ⟨f.size⟩ :=
  (copiedValue (wf.create name) v).grown.has has_create_self

theorem wellFormed_carrier : (f.carrier name v).WellFormed := by
  have hv := copiedValue (wf.create name) v
  exact hv.wellFormed.setValue _ fun k hk => (hv.node k hk).2

theorem has_carrier : (f.carrier name v).Has ⟨f.size⟩ := has_setValue.mpr (has_copyValue wf name)

theorem grown_carrier : f.Grown (f.carrier name v) := by
  have hv := copiedValue (wf.create name) v
  have hcreate := (Grown.refl f).create name
  exact (hcreate.trans hv.grown).setValue (Nat.lt_irrefl _) fun k hk h =>
    (hv.node k hk).1 (hcreate.has h)

theorem value_carrier : (f.carrier name v).value ⟨f.size⟩ = ((f.create name).2.copyValue v).1 := by
  rw [carrier, value_setValue (has_copyValue wf name), if_pos rfl]

theorem children_carrier : (f.carrier name v).children ⟨f.size⟩ = [] := by
  have hv := copiedValue (wf.create name) v
  rw [carrier, children_setValue, hv.grown.children_eq has_create_self, children, cell_create_self]
  rfl

theorem viewValue_carrier (hhas : ∀ k, v = some (.node k) → f.Has k ∧ f.IsFinite k) {h : Forest}
    (hsame : ∀ k, ¬ f.Has k → (f.carrier name v).Has k → k ≠ ⟨f.size⟩ →
      (f.carrier name v).SameNode h k)
    (hsize : (f.carrier name v).size ≤ h.size) :
    h.viewValue ((f.carrier name v).value ⟨f.size⟩) = f.viewValue v := by
  have hcreate := (Grown.refl f).create name
  rw [value_carrier wf, viewValue_copyValue (wf.create name) (v := v)]
  · match v, hhas with
    | some (.node k), hhas =>
      obtain ⟨hk, hfinite⟩ := hhas k rfl
      simp [viewValue, Value.map, hfinite.view_eq wf hk hcreate]
    | none, _ | some (.bool _), _ | some (.int _), _ | some (.float _), _ | some (.string _), _
    | some (.selector _), _ => rfl
  · intro k hk hkv
    have hne : k ≠ ⟨f.size⟩ := fun e => hk (e ▸ has_create_self)
    exact (SameNode.of_cell (cell_update_ne hne)).trans
      (hsame k (fun hf => hk (hcreate.has hf)) (has_setValue.mpr hkv) hne)
  · simpa [carrier] using hsize

end Carrier

theorem carrying_returned {f : Forest} (wf : f.WellFormed) (n : NodeId) {v : Option LiveValue}
    (hv : ∀ k, v = some (.node k) → f.Has k) : f.Carrying v n ⟨f.size⟩ (f.returned v n) := by
  have hnew : ¬ f.Has ⟨f.size⟩ := Nat.lt_irrefl _
  have hgrown := grown_carrier wf (f.name n) (v := v)
  have hwf := wellFormed_carrier wf (f.name n) (v := v)
  have hhas := has_carrier wf (f.name n) (v := v)
  have ho := appendCopies_outgrown hwf hhas (f.children n)
  have hvalue : (f.returned v n).value ⟨f.size⟩ = (f.carrier (f.name n) v).value ⟨f.size⟩ :=
    value_appendCopies hwf hhas (f.children n)
  refine ⟨ho.wellFormed, grown_appendCopies hwf hhas hgrown hnew _, hnew, ho.has hhas, ?_, ?_⟩
  · rw [hvalue, value_carrier wf, isSome_copyValue]
  · intro hchildren hfinite h hsame hsize
    refine ⟨?_, ?_⟩
    · -- The node that gets the copies is new, so it stands in no tree that was there.
      have hcs : ∀ c ∈ f.children n, (f.carrier (f.name n) v).Has c ∧
          (f.carrier (f.name n) v).Apart (· = ⟨f.size⟩) c := by
        intro c hc
        have hfc := wf.has_child hc
        have hapart : f.Apart (· = ⟨f.size⟩) c := (hchildren c hc).apart fun m hm e =>
          hnew (e ▸ wf.has_reached hfc hm)
        exact ⟨hgrown.has hfc, hapart.unchanged wf hfc fun m hm _ => hgrown.cell_eq m hm⟩
      obtain ⟨added, hadded, hviews⟩ := view_appendCopies hwf hhas hcs
        (fun k hk hkg => hsame k (fun hf => hk (hgrown.has hf)) hkg fun e => hk (e ▸ hhas)) hsize
      rw [children_carrier wf, List.nil_append] at hadded
      rw [returned, hadded, hviews]
      exact List.map_congr_left fun c hc => (hchildren c hc).view_eq wf (wf.has_child hc) hgrown
    · rw [hvalue]
      refine viewValue_carrier wf (f.name n) (fun k hk => ⟨hv k hk, hfinite k hk⟩) ?_
        (Nat.le_trans ho.size_le hsize)
      exact fun k hk hkc hne => (SameNode.of_cell (ho.cell_eq k hkc hne)).trans
        (hsame k hk (ho.has hkc) hne)

end Forest

/-- The value that a `return` reads, once the node for it is made. -/
def returnedValue (f : Forest) (hold : Hold) (n : NodeId) : Option LiveValue :=
  ((f.create (f.name n)).2.seen hold).singleValue n

theorem has_returnedValue {f : Forest} (wf : f.WellFormed) {hold : Hold} {n k : NodeId} (hn : f.Has n)
    (h : returnedValue f hold n = some (.node k)) : f.Has k := by
  have hpruned := Forest.seen_pruned (wf.create (f.name n)) hold
  -- No link leads to the node that was just made.
  have hclosed : (Plot.whole wf).Closed f.size ((f.create (f.name n)).2.seen hold) := by
    refine ⟨fun m p _ hp => ⟨trivial, ?_⟩, fun m c _ hc => ⟨trivial, ?_⟩, fun m k _ hv => ⟨trivial, ?_⟩⟩
    · have hp := hpruned.parent m p hp
      rw [Forest.parent_create] at hp
      exact wf.has_parent hp
    · have hc := hpruned.child (wf.create (f.name n)) hc
      rw [Forest.children_create] at hc
      exact wf.has_child hc
    · rw [hpruned.value_eq, Forest.value_create] at hv
      exact wf.held m k hv
  exact (hclosed.singleValue ⟨trivial, hn⟩ k h).2

theorem result_returnStatement {engine : Engine} {hold : Hold} {w : World} (wf : w.forest.WellFormed)
    {n : NodeId} (hn : w.forest.Has n) :
    (returnStatement engine (.plain "return" n)).result hold w = (.ok (.returning ⟨w.forest.size⟩),
      w.on (w.forest.returned (returnedValue w.forest hold n) n)) := by
  have hwf := Forest.wellFormed_carrier wf (w.forest.name n) (v := returnedValue w.forest hold n)
  have hhas := Forest.has_carrier wf (w.forest.name n) (v := returnedValue w.forest hold n)
  have hgrown := Forest.grown_carrier wf (w.forest.name n) (v := returnedValue w.forest hold n)
  have happend := result_appendCopies hold (w := w.on (w.forest.carrier (w.forest.name n)
    (returnedValue w.forest hold n))) hwf hhas (w.forest.children n)
  -- The children are read last, and are still those that the statement had.
  rw [← hgrown.children_eq hn] at happend
  unfold returnStatement create copyValue
  rw [result_bind_ok (result_ask _), result_bind_ok (result_grow _), result_bind_ok (result_observe _),
    result_bind_ok (result_grow _), result_bind_ok (result_edit _), result_bind_ok (result_ask _)]
  refine (result_bind_ok happend).trans ?_
  rw [hgrown.children_eq hn]
  rfl

end EventTree
