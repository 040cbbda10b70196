import EventTree.Proofs.Forest.Snapshots
import EventTree.Proofs.Loop.Pristine

/-!
# Runs of `for-each`

The items are read before the first pass, and then each has its pass. A pass begins with the node put
back and with one child more, the first, which holds a copy of the item as it is then.
-/

namespace EventTree

open EventTree.Action Keyword

namespace Forest

/-- A new first child of a node holds a copy of an item. -/
def withItem (f : Forest) (n : NodeId) (item : Option LiveValue) : Forest :=
  (((f.copyValue item).2.create itemName).2.setValue ⟨(f.copyValue item).2.size⟩
    (f.copyValue item).1).link n 0 ⟨(f.copyValue item).2.size⟩

/-- `g` is `f` but for a new first child of `n`, which holds what the item is in `f`: nothing if the item
is absent, and if it is a node then a tree of its own that shares no node with `f`. -/
structure Binds (f : Forest) (n : NodeId) (item : Option LiveValue) (child : NodeId) (g : Forest) :
    Prop where
  new : ¬ f.Has child
  name_child : g.name child = itemName
  children_child : g.children child = []
  value_child : g.viewValue (g.value child) = f.viewValue item
  copied_child : ∀ t, g.value child = some (.node t) →
    g.parent t = none ∧ ∀ k, g.InTree t k → ¬ f.Has k
  children_node : g.children n = child :: f.children n
  name_node : g.name n = f.name n
  value_node : g.value n = f.value n
  cell_eq : ∀ m, f.Has m → m ≠ n → g.cell m = f.cell m
  size_le : f.size ≤ g.size

/-- A pass begins in `g`: but for the new first child, which holds the item as it is at that moment, the
node shows what it showed in `f`. -/
def BeginsPass (f : Forest) (n : NodeId) (item : Option LiveValue) (g : Forest) : Prop :=
  ∃ (moment : Forest) (child : NodeId), moment.contents n = f.contents n ∧
    moment.Binds n item child g ∧
    (g.viewValue (g.value n), (moment.children n).map g.view) = f.contents n

section WithItem

variable {f : Forest} (wf : f.WellFormed) {n : NodeId} (hn : f.Has n) (item : Option LiveValue)

theorem size_withItem : (f.withItem n item).size = (f.copyValue item).2.size + 1 := by
  simp [withItem]

theorem cell_withItem {m : NodeId} (hm : (f.copyValue item).2.Has m) (hne : m ≠ n) :
    (f.withItem n item).cell m = (f.copyValue item).2.cell m := by
  have hnew : m ≠ ⟨(f.copyValue item).2.size⟩ := ne_of_has hm
  rw [withItem, link, cell_attach hne hnew, setValue, cell_update_ne hnew, cell_create_ne hnew]

theorem value_withItem : (f.withItem n item).value ⟨(f.copyValue item).2.size⟩ = (f.copyValue item).1 := by
  rw [withItem, link, value_setChildren, value_setParent, value_setValue has_create_self, if_pos rfl]

include wf

theorem planted_copyValue {t : NodeId} (ht : (f.copyValue item).1 = some (.node t)) :
    f.Planted t (f.copyValue item).2 := by
  match item, ht with
  | some (.node i), rfl => exact copied wf i

include hn

/-- The node of the loop is the only old node whose links change, and it is not in a new tree. -/
theorem new_of_inTree_withItem {t k : NodeId} (ht : f.Planted t (f.copyValue item).2)
    (hk : (f.withItem n item).InTree t k) : (f.copyValue item).2.Has k ∧ ¬ f.Has k := by
  induction hk with
  | refl => exact ⟨ht.has, ht.not_has⟩
  | tail _ hshows ih =>
    have hcell := cell_withItem item ih.1 fun e => ih.2 (e ▸ hn)
    rw [Shows, children, value, hcell] at hshows
    exact ⟨ht.wellFormed.has_shown hshows, ht.grown.new_shown wf ht.wellFormed ih.2 hshows⟩

theorem binds_withItem : f.Binds n item ⟨(f.copyValue item).2.size⟩ (f.withItem n item) := by
  have hv := copiedValue wf item
  have ha := hv.wellFormed.attachable_created (v := (f.copyValue item).1) (hv.grown.has hn) itemName
  have hsize : f.size ≤ (f.withItem n item).size := by
    rw [size_withItem]
    exact Nat.le_succ_of_le hv.grown.size_le
  refine ⟨fun h => Nat.lt_irrefl _ (hv.grown.has h), ?_, ?_, ?_, ?_, ?_, ?_, ?_, ?_, hsize⟩
  · rw [withItem, link, name_setChildren, name_setParent, name_setValue, name, cell_create_self]
    rfl
  · rw [withItem, link, ha.children_attach, if_neg ha.ne, children_setValue, children,
      cell_create_self]
    rfl
  · rw [value_withItem]
    apply viewValue_copyValue wf
    · intro k hk hkg
      exact .of_cell (cell_withItem item hkg fun e => hk (e ▸ hn))
    · rw [size_withItem]
      omega
  · intro t ht
    rw [value_withItem] at ht
    have hplanted := planted_copyValue wf item ht
    refine ⟨?_, fun k hk => (new_of_inTree_withItem wf hn item hplanted hk).2⟩
    rw [parent, cell_withItem item hplanted.has fun e => hplanted.not_has (e ▸ hn)]
    exact hplanted.root
  · rw [withItem, link, ha.children_attach, if_pos rfl, children_setValue, children_create,
      hv.grown.children_eq hn, List.insertIdx_zero]
  · rw [withItem, link, name_setChildren, name_setParent, name_setValue, name,
      cell_create_ne (ne_of_has (hv.grown.has hn)), ← name, hv.grown.name_eq hn]
  · rw [withItem, link, value_setChildren, value_setParent, value_setValue has_create_self,
      if_neg (ne_of_has (hv.grown.has hn)), value_create, hv.grown.value_eq hn]
  · intro m hm hne
    rw [cell_withItem item (hv.grown.has hm) hne, hv.grown.cell_eq m hm]

end WithItem

end Forest

/-! ## Binding the item -/

theorem result_bindItem (hold : Hold) {w : World} (wf : w.forest.WellFormed) {n : NodeId}
    (hn : w.forest.Has n) (pristine : NodeId) (item : Option LiveValue) :
    (bindItem n pristine item).result hold w =
      (.ok (), w.on ((w.forest.restored n pristine).withItem n item)) := by
  have hput := Forest.restored_spec wf hn pristine
  have hrestore := result_restore hold wf hn pristine
  generalize w.forest.restored n pristine = f at hput hrestore
  have hn' : f.Has n := Nat.lt_of_lt_of_le hn hput.size_le
  have hv := Forest.copiedValue hput.wellFormed item
  have hwf := hv.wellFormed.createWith itemName fun m hm => (hv.node m hm).2
  have ha := hv.wellFormed.attachable_created (v := (f.copyValue item).1) (hv.grown.has hn') itemName
  have hcopy : (copyValue item).result hold (w.on f) =
      (.ok (f.copyValue item).1, w.on (f.copyValue item).2) := rfl
  have hcreate : (createWith itemName (f.copyValue item).1).result hold (w.on (f.copyValue item).2) =
      (.ok ⟨(f.copyValue item).2.size⟩, w.on (((f.copyValue item).2.create itemName).2.setValue
        ⟨(f.copyValue item).2.size⟩ (f.copyValue item).1)) := rfl
  unfold bindItem
  rw [result_bind_ok hrestore, result_bind_ok hcopy, result_bind_ok hcreate, result_insert_of_none,
    Forest.moveTo]
  · rw [World.forest_on, Forest.detach_of_root ha.root, Option.getD_some]
    rfl
  · exact Forest.insertFault?_eq_none hwf ha.ne ha.not_above (Nat.zero_le _)

/-- The pass of an item: it is bound, and the body is executed while the items still to come are held. -/
structure ItemPass (engine : Engine) (hold : Hold) (n pristine : NodeId) (item : Option LiveValue)
    (rest : List (Option LiveValue)) (w : World) (body : Round) : Prop where
  bound : (bindItem n pristine item).result hold w = (.ok (), body.start)
  ran : Ran engine (hold.adding (Value.nodes rest)) n 0 body.start body.outcome body.left

/-- A `for-each` runs over items from a world on: the bodies that it executes, how it ends, and the world
that it leaves before it is put back. -/
def ItemsRun (engine : Engine) (hold : Hold) (n pristine : NodeId) :
    List (Option LiveValue) → World → List Round → Except Error Flow → World → Prop :=
  Taken (ItemPass engine hold n pristine) Round.ends

/-! ## Every run is such a run -/

section Runs

variable {engine : Engine} (he : engine.Keeping) {P : Plot} {hold : Hold} {n pristine : NodeId}

include he

theorem itemPasses_run {items : List (Option LiveValue)} {w w' : World} {ended : Except Error Flow}
    (hw : P.Ready w) (hn : P.Mine w.forest.size n)
    (hrun : (itemPasses engine n pristine items).result hold w = (resumed ended, w')) :
    ∃ bodies, ItemsRun engine hold n pristine items w bodies ended w' := by
  induction items generalizing w with
  | nil =>
    rcases ended with e | flow <;> cases hrun
    exact ⟨_, .done⟩
  | cons item rest ih =>
    have hbind := result_bindItem hold hw.tended.wellFormed hn.2 pristine item
    have h₁ := bindItem_after hn hw hbind
    have hn₁ := hn.mono h₁.size_le
    generalize w.on ((w.forest.restored n pristine).withItem n item) = w₁ at hbind h₁ hn₁
    rw [itemPasses_cons, result_bind_ok hbind, result_bind, result_holding] at hrun
    rcases hbody : (execute engine n 0).result (hold.adding (Value.nodes rest)) w₁ with
      ⟨first, w₂⟩
    rw [hbody] at hrun
    -- A stall would have ended the loop as a stall.
    have hne : first ≠ .error .stalled := by
      rintro rfl
      rcases ended with e | flow <;> cases hrun
    obtain ⟨outcome, rfl⟩ := exists_resumed hne
    have hran : Ran engine (hold.adding (Value.nodes rest)) n 0 w₁ outcome w₂ := .of_result hbody
    have h₂ := (Plot.Keeps.execute he 0 hn₁).after_ended (h₁.ready hw) hbody
    rcases outcome with e | flow
    · rcases ended with e' | flow <;> cases hrun
      exact ⟨[⟨w₁, .error e, _⟩], .last ⟨hbind, hran⟩ rfl⟩
    · have hclose : (Pass.close ⟨n, pristine, false, itemPasses engine n pristine rest⟩ flow).result
          hold w₂ = (resumed ended, w') := hrun
      rw [Pass.close, Pass.tidy, if_neg (by simp), result_bind_ok (result_pure ())] at hclose
      cases hends : flow.pastLoop with
      | some past =>
        rw [hends] at hclose
        rcases ended with e | flow' <;> cases hclose
        exact ⟨[⟨w₁, .ok flow, _⟩], .last ⟨hbind, hran⟩ (by simp [Round.ends, hends])⟩
      | none =>
        rw [hends] at hclose
        have hafter := h₁.trans h₂
        obtain ⟨bodies, hruns⟩ := ih (hafter.ready hw) (hn.mono hafter.size_le) hclose
        exact ⟨⟨w₁, .ok flow, w₂⟩ :: bodies,
          .next ⟨hbind, hran⟩ (by simp [Round.ends, hends]) hruns⟩

end Runs

/-! ## How a pass begins -/

section Begins

variable {f : Forest} {wf : f.WellFormed} {n : NodeId} (hn : f.Has n) (hfinite : f.IsFinite n)

include hn hfinite

theorem Plot.Tended.beginsPass {u : Forest} (ht : (Plot.besideCopy wf n).Tended u)
    (item : Option LiveValue) :
    f.BeginsPass n item ((u.restored n (f.copy n).1).withItem n item) := by
  have hu : u.Has n := Nat.lt_of_lt_of_le ((Forest.copied wf n).grown.has hn) ht.size_le
  have hput := Forest.restored_spec ht.wellFormed hu (f.copy n).1
  have hbinds := Forest.binds_withItem hput.wellFormed (Nat.lt_of_lt_of_le hu hput.size_le) item
  refine ⟨_, _, ht.contents_back hn hfinite, hbinds, ?_⟩
  rw [hbinds.value_node]
  apply ht.views_back hn hfinite
  · intro k hk hkr
    exact .of_cell (hbinds.cell_eq k hkr fun e => hk (e ▸ hu))
  · exact hbinds.size_le

theorem ItemPass.beginsPass {engine : Engine} (he : engine.Keeping) {hold : Hold}
    {item : Option LiveValue} {rest : List (Option LiveValue)} {w : World} {body : Round}
    (h : ItemPass engine hold n (f.copy n).1 item rest w body)
    (hw : (Plot.besideCopy wf n).Ready w) :
    f.BeginsPass n item body.start.forest ∧ (Plot.besideCopy wf n).Ready body.left := by
  -- The node was there before the copy, and nodes do not go.
  have hmine : ∀ {v : World}, (Plot.besideCopy wf n).Ready v →
      (Plot.besideCopy wf n).Mine v.forest.size n := fun hv =>
    ⟨Or.inl hn, Nat.lt_of_lt_of_le ((Forest.copied wf n).grown.has hn) hv.tended.size_le⟩
  have hresult := result_bindItem hold hw.tended.wellFormed (hmine hw).2 (f.copy n).1 item
  have hw₁ := (bindItem_after (hmine hw) hw h.bound).ready hw
  have h₂ := (Plot.Keeps.execute he 0 (hmine hw₁)).after_ended hw₁ h.ran.result_eq
  refine ⟨?_, h₂.ready hw₁⟩
  rw [← (Prod.mk.inj (hresult.symm.trans h.bound)).2, World.forest_on]
  exact hw.tended.beginsPass hn hfinite item

end Begins

/-! ## The main statement -/

theorem exists_items {f : Forest} (wf : f.WellFormed) (hold : Hold) {n : NodeId}
    (h : f.value n ≠ none) : ∃ all, items (f.seen hold) n = .ok all := by
  unfold items
  rw [(Forest.seen_pruned wf hold).value_eq]
  rcases hv : f.value n with _ | v
  · exact absurd hv h
  · cases v <;> exact ⟨_, rfl⟩

/-- In a core context, whatever the body is, `for-each` goes over the items that it finds at first. Each
pass begins with the node as it was at first and with the item, and the passes go on unless one breaks,
returns or fails. The node is left as it was. -/
theorem for_each_goes_over_items {m : Machine} (hm : m.IsCore) {patience : Nat} {hold : Hold}
    {call : Call} {w w' : World} {outcome : Except Stop Flow} (hw : w.Sound)
    (hlisteners : w.session.bindings = []) (hn : w.forest.Has call.node)
    (hfinite : w.forest.IsFinite call.node) (hvalue : w.forest.value call.node ≠ none)
    (hrun : (forEachLoop (m.engine patience (m.perform patience)) call).result hold w = (outcome, w'))
    (hend : outcome ≠ .error .stalled) :
    ∃ all bodies ended u, items (w.forest.seen hold) call.node = .ok all ∧
      ItemsRun (m.engine patience (m.perform patience)) hold call.node (w.forest.copy call.node).1 all
        (w.on (w.forest.copy call.node).2) bodies ended u ∧
      outcome = resumed ended ∧ w' = u.on (u.forest.restored call.node (w.forest.copy call.node).1) ∧
      (∀ (k : Nat) (body : Round), bodies[k]? = some body →
        ∃ item, all[k]? = some item ∧ w.forest.BeginsPass call.node item body.start.forest) ∧
      ((∀ body ∈ bodies, body.outcome = .ok .normal ∨ body.outcome = .ok .continuing) →
        bodies.length = all.length ∧ ended = .ok .normal) ∧
      (∀ (k : Nat) (body : Round), bodies[k]? = some body →
        ¬ (body.outcome = .ok .normal ∨ body.outcome = .ok .continuing) →
          bodies.length = k + 1 ∧ (body.outcome = .ok .breaking → ended = .ok .normal) ∧
            (body.outcome ≠ .ok .breaking → ended = body.outcome)) ∧
      w'.forest.contents call.node = w.forest.contents call.node := by
  have wf := hw.wellFormed
  have hc := Forest.copied wf call.node
  have he := hm.keeping patience
  have hready := hw.ready_besideCopy hlisteners call.node
  have hmine : (Plot.besideCopy wf call.node).Mine (w.forest.copy call.node).2.size call.node :=
    ⟨Or.inl hn, hc.grown.has hn⟩
  obtain ⟨all, hall⟩ := exists_items wf hold hvalue
  unfold forEachLoop at hrun
  rw [result_bind_ok (result_observe _), hall, result_bind_ok (result_ofExcept_ok all)] at hrun
  obtain ⟨ended, u, hloop, hafter, rfl, rfl⟩ := restoring_ends wf hn hrun hend hready
    (Plot.Keeps.itemPasses he hmine _ all)
  obtain ⟨bodies, hruns⟩ := itemPasses_run he hready hmine hloop
  refine ⟨all, bodies, ended, u, hall, hruns, rfl, rfl,
    fun k body hk => hruns.forall_rounds (fun hv hpass => hpass.beginsPass hn hfinite he hv) hready hk,
    fun hgoes => ?_,
    fun k body hk hstops => ?_, ?_⟩
  · exact hruns.length_eq fun body hb => Round.ends_eq_none_iff.mpr (hgoes body hb)
  · obtain ⟨past, hpast⟩ := Option.ne_none_iff_exists'.mp fun h => hstops (Round.ends_eq_none_iff.mp h)
    obtain ⟨hlength, rfl⟩ := hruns.ends_at hk hpast
    obtain ⟨hbreaking, hother, -⟩ := Round.ended_of_ends hpast
    exact ⟨hlength, hbreaking, hother⟩
  · rw [World.forest_on]
    exact hafter.tended.contents_back hn hfinite

/-- A loop over nodes whose body takes them all out of the tree, and takes itself for something else. -/
def clearance : Tree Selector :=
  ⟨"root", none,
    [⟨"x", some (.int 1), []⟩, ⟨"x", some (.int 2), []⟩,
      ⟨"for-each", some (.selector ⟨"/../x?node", [.root, .named "x"], .node⟩),
        [⟨"set", some (.selector ⟨"/../x?node", [.root, .named "x"], .node⟩), []⟩,
          ⟨"set", some (.selector ⟨"/.?value", [.parent], .value⟩), [⟨"src", some (.int 3), []⟩]⟩]⟩]⟩

theorem for_each_goes_over_items_of_clearance :
    let w : World := ⟨(Forest.plant clearance .empty).2, default, default⟩
    let m : Machine := ⟨.default, coreTable⟩
    let result := (forEachLoop (m.engine 8 (m.perform 8)) (.plain "for-each" ⟨3⟩)).result ⟨[⟨0⟩], []⟩ w
    result.1 = .ok .normal ∧ result.2.forest.children ⟨0⟩ = [⟨3⟩] ∧
      result.2.forest.contents ⟨3⟩ = w.forest.contents ⟨3⟩ ∧
      ∃ bodies ended u, ItemsRun (m.engine 8 (m.perform 8)) ⟨[⟨0⟩], []⟩ ⟨3⟩ (w.forest.copy ⟨3⟩).1
          [some (.node ⟨1⟩), some (.node ⟨2⟩)] (w.on (w.forest.copy ⟨3⟩).2) bodies ended u ∧
        ∀ (k : Nat) (body : Round), bodies[k]? = some body →
          ∃ item, [some (.node ⟨1⟩), some (.node ⟨2⟩)][k]? = some item ∧
            w.forest.BeginsPass ⟨3⟩ item body.start.forest := by
  intro w m result
  have hok : result.1 = .ok .normal := by decide +kernel
  have hleft : result.2.forest.children ⟨0⟩ = [⟨3⟩] := by decide +kernel
  have hplanted := Forest.revived_plant Forest.wellFormed_empty clearance
  have hfinite : w.forest.IsFinite ⟨3⟩ := by
    cases hplanted.finite with
    | mk _ hshown => exact hshown ⟨3⟩ (Or.inl (by decide))
  obtain ⟨all, bodies, ended, u, hall, hruns, -, -, hbegins, -, -, hcontents⟩ :=
    for_each_goes_over_items (m := m) (Machine.isCore_coreTable _) (w := w)
      ⟨hplanted.wellFormed, fun call hcall => by cases hcall⟩ rfl (by decide) hfinite (by decide)
      (Prod.eta result).symm (by rw [hok]; simp)
  have hitems : items (w.forest.seen ⟨[⟨0⟩], []⟩) ⟨3⟩ =
      .ok [some (.node ⟨1⟩), some (.node ⟨2⟩)] := by decide +kernel
  obtain rfl := Except.ok.inj (hall.symm.trans hitems)
  exact ⟨hok, hleft, hcontents, bodies, ended, u, hruns, hbegins⟩

end EventTree
