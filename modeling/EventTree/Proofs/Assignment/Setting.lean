import EventTree.Proofs.Assignment.Sources
import EventTree.Proofs.Selection.Duplicates

/-!
# Setting values

`set` copies its source anew for each node that it gives a value. A node that lies in the tree of the source
has its new value in all copies that are made later, so these are higher than the source was. Main
statement: a node gets the source as it was before, unless a node that came before it lies in the source;
then it gets something else. Names, children and the values of all other nodes stay as they are.
-/

namespace EventTree

/-! ## Heights of trees -/

namespace Tree

section Heights

variable {σ τ : Type}

theorem height_lt_of_child {name : String} {v : Option (Value (Tree σ) σ)} {ts : List (Tree σ)} {t : Tree σ}
    (h : t ∈ ts) : t.height < (⟨name, v, ts⟩ : Tree σ).height := by
  have := height_le_heightAll h
  rw [height]
  omega

theorem height_lt_of_value {name : String} {ts : List (Tree σ)} (t : Tree σ) :
    t.height < (⟨name, some (.node t), ts⟩ : Tree σ).height := by
  rw [height, heightOf]
  omega

mutual

theorem height_mapSelectors (f : σ → τ) (t : Tree σ) : (t.mapSelectors f).height = t.height := by
  obtain ⟨name, value, children⟩ := t
  rw [mapSelectors, height, heightOf_mapSelectors, heightAll_mapSelectors, height]

theorem heightOf_mapSelectors (f : σ → τ) (v : Option (Value (Tree σ) σ)) :
    heightOf (mapSelectorsValue f v) = heightOf v := by
  rcases v with _ | v
  · rfl
  · cases v with
    | node t => rw [mapSelectorsValue, heightOf, height_mapSelectors, heightOf]
    | _ => rfl

theorem heightAll_mapSelectors (f : σ → τ) (ts : List (Tree σ)) :
    heightAll (mapSelectorsAll f ts) = heightAll ts := by
  rcases ts with _ | ⟨t, ts⟩
  · rfl
  · rw [mapSelectorsAll, heightAll, height_mapSelectors, heightAll_mapSelectors, heightAll]

end

end Heights

mutual

theorem height_eq_of_compare (s t : Snapshot) (h : compare s t = .eq) : s.height = t.height := by
  obtain ⟨name, value, children⟩ := s
  obtain ⟨name', value', children'⟩ := t
  simp only [compare, Ordering.then_eq_eq] at h
  obtain ⟨-, hvalue, hlength, hchildren⟩ := h
  rw [height, heightOf_eq_of_compare value value' hvalue,
    heightAll_eq_of_compare children children' (Nat.compare_eq_eq.mp hlength) hchildren, height]

theorem heightOf_eq_of_compare (v u : Option (Value Snapshot String)) (h : compareValues v u = .eq) :
    heightOf v = heightOf u := by
  rcases v with _ | v <;> rcases u with _ | u
  · rfl
  · cases h
  · cases h
  · cases v <;> cases u
    case node.node s t =>
      rw [compareValues] at h
      rw [heightOf, height_eq_of_compare s t h, heightOf]
    -- Values of other types than `node` have no height, and values of different types are not equal.
    all_goals first
      | rfl
      | exact absurd h (by simp only [compareValues, Value.typeName]; decide)

theorem heightAll_eq_of_compare (ss ts : List Snapshot) (hlength : ss.length = ts.length)
    (h : compareAll ss ts = .eq) : heightAll ss = heightAll ts := by
  rcases ss with _ | ⟨s, ss⟩ <;> rcases ts with _ | ⟨t, ts⟩
  · rfl
  · cases hlength
  · cases hlength
  · rw [compareAll, Ordering.then_eq_eq] at h
    rw [heightAll, height_eq_of_compare s t h.1,
      heightAll_eq_of_compare ss ts (Nat.succ.inj hlength) h.2, heightAll]

end

end Tree

namespace Forest

namespace IsFinite

variable {f : Forest} {n m : NodeId} (h : f.IsFinite n)

include h

theorem inTree (hm : f.InTree n m) : f.IsFinite m := by
  induction hm with
  | refl => exact h
  | tail _ hshows ih => exact ih.shown hshows

variable (wf : f.WellFormed) (hn : f.Has n)

include wf hn

theorem height_shown {c : NodeId} (hc : f.Shows n c) : (f.view c).height < (f.view n).height := by
  rw [h.view_eq_mk wf hn]
  rcases hc with hc | hc
  · exact Tree.height_lt_of_child (List.mem_map_of_mem hc)
  · rw [hc]
    exact Tree.height_lt_of_value (f.view c)

theorem height_inTree (hm : f.InTree n m) : (f.view m).height ≤ (f.view n).height := by
  induction hm with
  | refl => exact Nat.le_refl _
  | tail hm hshows ih =>
    exact Nat.le_trans (Nat.le_of_lt ((h.inTree hm).height_shown wf (wf.has_reached hn hm) hshows)) ih

end IsFinite

/-! ## Forests with other values -/

/-- `g` is `f` with other values on `nodes`. -/
structure Revalued (f : Forest) (nodes : List NodeId) (g : Forest) : Prop where
  wellFormed : g.WellFormed
  size_le : f.size ≤ g.size
  cell_eq : ∀ m, f.Has m → g.cell m = { f.cell m with value := g.value m }
  value_eq : ∀ m, f.Has m → m ∉ nodes → g.value m = f.value m

namespace Revalued

variable {f g k : Forest} {nodes nodes' : List NodeId}

theorem refl (wf : f.WellFormed) : f.Revalued [] f := ⟨wf, Nat.le_refl _, fun _ _ => rfl, fun _ _ _ => rfl⟩

variable (h : f.Revalued nodes g)

include h

theorem has {m : NodeId} (hm : f.Has m) : g.Has m := Nat.lt_of_lt_of_le hm h.size_le

theorem trans (hk : g.Revalued nodes' k) : f.Revalued (nodes ++ nodes') k where
  wellFormed := hk.wellFormed
  size_le := Nat.le_trans h.size_le hk.size_le
  cell_eq m hm := by rw [hk.cell_eq m (h.has hm), h.cell_eq m hm]
  value_eq m hm hout := by
    rw [List.mem_append, not_or] at hout
    rw [hk.value_eq m (h.has hm) hout.2, h.value_eq m hm hout.1]

theorem sameNode {m : NodeId} (hm : f.Has m) (hout : m ∉ nodes) : f.SameNode g m := by
  refine .of_cell ?_
  rw [h.cell_eq m hm, h.value_eq m hm hout]
  rfl

theorem keepsApart {e : Forest} (he : ∀ n ∈ nodes, e.Has n) : KeepsApart e f g :=
  ⟨h.size_le, fun m hm hnew => h.sameNode hm fun hmem => hnew (he m hmem)⟩

end Revalued

/-! ## One assignment -/

/-- Gives a node a copy of a value. -/
def assign (source : Option LiveValue) (f : Forest) (n : NodeId) : Forest :=
  (f.copyValue source).2.setValue n (f.copyValue source).1

/-- Gives nodes copies of a value, one after the other. -/
def assignTo (source : Option LiveValue) (nodes : List NodeId) (f : Forest) : Forest :=
  nodes.foldl (assign source) f

theorem copyValue_of_plain {source : Option LiveValue} (h : ∀ r, source ≠ some (.node r)) (f : Forest) :
    (f.copyValue source).1 = source := by
  rcases source with _ | v
  · rfl
  · cases v with
    | node r => exact absurd rfl (h r)
    | _ => rfl

section Assign

variable {f : Forest} (wf : f.WellFormed) {n : NodeId} (hn : f.Has n)

include wf hn

theorem value_assign (source : Option LiveValue) : (assign source f n).value n = (f.copyValue source).1 := by
  rw [assign, value_setValue ((copiedValue wf source).grown.has hn), if_pos rfl]

omit hn in
theorem revalued_assign (source : Option LiveValue) : f.Revalued [n] (assign source f n) := by
  have hcopy := copiedValue wf source
  have hwf : (assign source f n).WellFormed := hcopy.wellFormed.setValue n fun m hm => (hcopy.node m hm).2
  refine ⟨hwf, by simpa [assign] using hcopy.grown.size_le, fun m hm => ?_, fun m hm hout => ?_⟩
  · refine cell_ext ?_ rfl ?_ ?_
    · exact name_setValue.trans (hcopy.grown.name_eq hm)
    · exact parent_setValue.trans (hcopy.grown.parent_eq hm)
    · exact children_setValue.trans (hcopy.grown.children_eq hm)
  · have hne : m ≠ n := fun e => hout (List.mem_singleton.mpr e)
    rw [assign, value, setValue, cell_update_ne hne, ← value, hcopy.grown.value_eq hm]

section Source

variable (r : NodeId)

theorem standsApart_assign : StandsApart f (assign (some (.node r)) f n) (f.copy r).1 :=
  (standsApart_copy wf r).kept (copied wf r).wellFormed
    ⟨by simp [assign, copyValue], fun m _ hm => .of_cell (cell_update_ne fun e => hm (e ▸ hn))⟩

theorem view_assign : (assign (some (.node r)) f n).view (f.copy r).1 = f.view r :=
  view_copy wf (fun m hm _ => .of_cell (cell_update_ne fun e => hm (e ▸ hn))) (by simp [assign, copyValue])

theorem shows_assign {m c : NodeId} (hm : f.Has m) (hc : (assign (some (.node r)) f n).Shows m c) :
    c = (f.copy r).1 ∨ f.Shows m c := by
  have hstep := revalued_assign wf (n := n) (some (.node r))
  by_cases hmn : m = n
  · subst hmn
    rw [Shows, value_assign wf hn, children, hstep.cell_eq m hm] at hc
    rcases hc with hc | hc
    · exact Or.inr (Or.inl hc)
    · cases hc
      exact Or.inl rfl
  · exact Or.inr ((hstep.sameNode hm (by simpa using hmn)).shows.mp hc)

theorem isFinite_assign {m : NodeId} (hm : f.Has m) (hfinite : f.IsFinite m) :
    (assign (some (.node r)) f n).IsFinite m := by
  induction hfinite with
  | mk _ _ ih =>
    refine .mk id fun c hc => ?_
    rcases shows_assign wf hn r hm hc with rfl | hc
    · exact (standsApart_assign wf hn r).finite
    · exact ih c hc (wf.has_shown hc)

theorem inTree_assign {m : NodeId} (hm : f.Has m) (h : f.InTree m n) :
    (assign (some (.node r)) f n).InTree m n := by
  induction h using Relation.ReflTransGen.head_induction_on with
  | refl => exact .refl
  | head hshows _ ih =>
    rename_i m c _
    by_cases hmn : m = n
    · subst hmn
      exact .refl
    · have hsame := (revalued_assign wf (n := n) (some (.node r))).sameNode hm (by simpa using hmn)
      exact .head (hsame.shows.mpr hshows) (ih (wf.has_shown hshows))

theorem height_lt_assign {r : NodeId} (hr : f.Has r) (hfinite : f.IsFinite r) (hin : f.InTree r n) :
    (f.view r).height < ((assign (some (.node r)) f n).view r).height := by
  have wg := (revalued_assign wf (n := n) (some (.node r))).wellFormed
  have hgr := (revalued_assign wf (n := n) (some (.node r))).has hr
  have hgn := (revalued_assign wf (n := n) (some (.node r))).has hn
  have hgfinite := isFinite_assign wf hn r hr hfinite
  have hgin := inTree_assign wf hn r hr hin
  have hshows : (assign (some (.node r)) f n).Shows n (f.copy r).1 := Or.inr (value_assign wf hn _)
  calc (f.view r).height
      = ((assign (some (.node r)) f n).view (f.copy r).1).height := by rw [view_assign wf hn]
    _ < ((assign (some (.node r)) f n).view n).height := (hgfinite.inTree hgin).height_shown wg hgn hshows
    _ ≤ ((assign (some (.node r)) f n).view r).height := hgfinite.height_inTree wg hgr hgin

end Source

end Assign

/-! ## A run of assignments -/

section AssignTo

variable {f : Forest} (wf : f.WellFormed) {nodes : List NodeId}

include wf

theorem revalued_assignTo (source : Option LiveValue) (nodes : List NodeId) :
    f.Revalued nodes (f.assignTo source nodes) := by
  induction nodes generalizing f with
  | nil => exact .refl wf
  | cons n nodes ih =>
    have hstep := revalued_assign wf (n := n) source
    exact hstep.trans (ih hstep.wellFormed)

theorem value_assignTo {source : Option LiveValue} (hplain : ∀ r, source ≠ some (.node r))
    (hnodes : ∀ n ∈ nodes, f.Has n) {m : NodeId} (hm : m ∈ nodes) :
    (f.assignTo source nodes).value m = source := by
  induction nodes generalizing f with
  | nil => exact (List.not_mem_nil hm).elim
  | cons n nodes ih =>
    have hn := hnodes n List.mem_cons_self
    have hstep := revalued_assign wf (n := n) source
    -- The last assignment counts.
    by_cases hlater : m ∈ nodes
    · exact ih hstep.wellFormed (fun k hk => hstep.has (hnodes k (List.mem_cons_of_mem _ hk))) hlater
    · obtain rfl : m = n := (List.mem_cons.mp hm).resolve_right hlater
      have hrest := revalued_assignTo hstep.wellFormed source nodes
      exact (hrest.value_eq m (hstep.has hn) hlater).trans
        ((value_assign wf hn source).trans (copyValue_of_plain hplain f))

/-- What a node has at the end is a copy of the source as it was when the turn of the node came. -/
theorem copy_of_turn (r : NodeId) {before after : List NodeId} {n : NodeId}
    (hnodes : ∀ m ∈ before ++ n :: after, f.Has m) (hout : n ∉ after) :
    ∃ c, (f.assignTo (some (.node r)) (before ++ n :: after)).value n = some (.node c) ∧
      StandsApart f (f.assignTo (some (.node r)) (before ++ n :: after)) c ∧
      (f.assignTo (some (.node r)) (before ++ n :: after)).view c =
        (f.assignTo (some (.node r)) before).view r := by
  have hbefore := revalued_assignTo wf (some (.node r)) before
  have hn := hbefore.has (hnodes n (by simp))
  have hstep := revalued_assign hbefore.wellFormed (n := n) (some (.node r))
  have hafter := revalued_assignTo hstep.wellFormed (some (.node r)) after
  -- Later assignments go to old nodes, and none of these is in the copy.
  have hkeeps := hafter.keepsApart fun m hm => hnodes m (by simp [hm])
  have hapart := (standsApart_assign hbefore.wellFormed hn r).mono hbefore.size_le
  refine ⟨((f.assignTo (some (.node r)) before).copy r).1, ?_⟩
  rw [assignTo, List.foldl_append, List.foldl_cons]
  refine ⟨?_, hapart.kept hstep.wellFormed hkeeps, ?_⟩
  · exact (hafter.value_eq n (hstep.has hn) hout).trans (value_assign hbefore.wellFormed hn _)
  · exact (hapart.view_eq hstep.wellFormed hkeeps).trans (view_assign hbefore.wellFormed hn r)

variable {r : NodeId} (hr : f.Has r) (hfinite : f.IsFinite r) (hnodes : ∀ n ∈ nodes, f.Has n)

include hr hfinite hnodes

theorem height_assignTo :
    (f.view r).height ≤ ((f.assignTo (some (.node r)) nodes).view r).height ∧
      ((∃ n ∈ nodes, f.InTree r n) →
        (f.view r).height < ((f.assignTo (some (.node r)) nodes).view r).height) := by
  induction nodes generalizing f with
  | nil => exact ⟨Nat.le_refl _, fun ⟨_, hmem, _⟩ => (List.not_mem_nil hmem).elim⟩
  | cons n nodes ih =>
    have hn := hnodes n List.mem_cons_self
    have hstep := revalued_assign wf (n := n) (some (.node r))
    obtain ⟨hle, hlt⟩ := ih hstep.wellFormed (hstep.has hr) (isFinite_assign wf hn r hr hfinite)
      fun m hm => hstep.has (hnodes m (List.mem_cons_of_mem _ hm))
    by_cases hin : f.InTree r n
    · have hgrows := Nat.lt_of_lt_of_le (height_lt_assign wf hn hr hfinite hin) hle
      exact ⟨Nat.le_of_lt hgrows, fun _ => hgrows⟩
    · -- The source is as it was, so the same nodes lie in it for the rest of the run.
      have hsame : ∀ m, f.InTree r m → f.SameNode (assign (some (.node r)) f n) m := fun m hm =>
        hstep.sameNode (wf.has_reached hr hm) fun hmem => hin (List.mem_singleton.mp hmem ▸ hm)
      have hview := hfinite.view_of_same hsame wf hr hstep.size_le
      rw [hview] at hle hlt
      refine ⟨hle, fun ⟨m, hmem, hm⟩ => hlt ⟨m, ?_, (inTree_iff_of_same hsame).mpr hm⟩⟩
      rcases List.mem_cons.mp hmem with rfl | hmem
      · exact absurd hm hin
      · exact hmem

omit hnodes in
theorem view_assignTo_of_outside (source : Option LiveValue) (hout : ∀ n ∈ nodes, ¬ f.InTree r n) :
    (f.assignTo source nodes).view r = f.view r := by
  have hrun := revalued_assignTo wf source nodes
  refine hfinite.view_of_same (fun m hm => ?_) wf hr hrun.size_le
  exact hrun.sameNode (wf.has_reached hr hm) fun hmem => hout m hmem hm

end AssignTo

end Forest

open EventTree.Action Keyword

/-! ## The statement -/

namespace Keyword

theorem result_assignTo (source : Option LiveValue) (nodes : List NodeId) {hold : Hold} {w : World} :
    (forEach nodes fun n => do
      let value ← copyValue source
      edit (·.setValue n value)).result hold w = (.ok (), w.on (w.forest.assignTo source nodes)) := by
  induction nodes generalizing w with
  | nil => rfl
  | cons n nodes ih => exact ih (w := w.on (w.forest.assign source n))

theorem result_set_of_value (engine : Engine) {call : Call} {hold : Hold} {w : World} {s : Selector}
    (hs : w.forest.value call.node = some (.selector s)) (hkind : s.kind = .value) {source : NodeId}
    (hsource : w.forest.find? call.node sourceName = some source) :
    (set engine call).result hold w = (.ok .normal, w.on (w.forest.assignTo
      (carried (w.forest.seen hold) source) (s.select (w.forest.seen hold) call.node).nodes)) := by
  have hassigned : (assigned engine call.node).result hold w =
      (.ok (carried (w.forest.seen hold) source), w) := by
    rw [assigned, result_bind_ok (result_ask _), hsource, result_observe]
  unfold set
  rw [result_bind_ok (result_destination hs), result_bind_ok hassigned, result_bind_ok (result_observe _)]
  simp only [Selector.select, hkind]
  exact result_bind_ok (result_assignTo _ _)

end Keyword

/-- Each node found gets a value that is no node as it is, and a node as a copy. The copy is what the source
was before exactly if no node that was found earlier lies in the source. Nothing else changes. -/
theorem set_gives_current_source (engine : Engine) (call : Call) (hold : Hold) (w : World)
    (wf : w.forest.WellFormed) (hn : w.forest.Has call.node) {s : Selector}
    (hs : w.forest.value call.node = some (.selector s)) (hkind : s.kind = .value) {source : NodeId}
    (hsource : w.forest.find? call.node sourceName = some source)
    (hfinite : ∀ r, carried (w.forest.seen hold) source = some (.node r) → w.forest.IsFinite r) :
    ∃ g, (set engine call).result hold w = (.ok .normal, w.on g) ∧
      w.forest.Revalued (s.select (w.forest.seen hold) call.node).nodes g ∧
      ((∀ r, carried (w.forest.seen hold) source ≠ some (.node r)) →
        ∀ n ∈ (s.select (w.forest.seen hold) call.node).nodes,
          g.value n = carried (w.forest.seen hold) source) ∧
      ∀ r, carried (w.forest.seen hold) source = some (.node r) → ∀ before n after,
        (s.select (w.forest.seen hold) call.node).nodes = before ++ n :: after →
        ∃ c, g.value n = some (.node c) ∧ w.forest.StandsApart g c ∧
          ((∀ m ∈ before, ¬ w.forest.InTree r m) → g.view c = w.forest.view r) ∧
          ((∃ m ∈ before, w.forest.InTree r m) → (w.forest.snapshot r).compare (g.snapshot c) ≠ .eq) := by
  have hnodes : ∀ m ∈ (s.select (w.forest.seen hold) call.node).nodes, w.forest.Has m := fun m hm =>
    wf.has_select hold hn hm
  have hnodup := s.nodup_select (w.forest.seen hold) call.node
  have hhas : w.forest.Has source := wf.has_child (List.mem_of_find?_eq_some hsource)
  refine ⟨_, result_set_of_value engine hs hkind hsource, Forest.revalued_assignTo wf _ _,
    fun hplain n hmem => Forest.value_assignTo wf hplain hnodes hmem, ?_⟩
  intro r hr before n after hsplit
  rw [hsplit] at hnodes hnodup ⊢
  have hr' : w.forest.Has r := w.forest.has_carried wf hhas hr
  have hbefore : ∀ m ∈ before, w.forest.Has m := fun m hm => hnodes m (by simp [hm])
  have hout : n ∉ after := (List.nodup_cons.mp hnodup.of_append_right).1
  obtain ⟨c, hvalue, hapart, hview⟩ := Forest.copy_of_turn wf r hnodes hout
  rw [hr]
  refine ⟨c, hvalue, hapart, fun houtside => ?_, fun hinside hequal => ?_⟩
  · rw [hview, Forest.view_assignTo_of_outside wf hr' (hfinite r hr) _ houtside]
  · have hgrows := (Forest.height_assignTo wf hr' (hfinite r hr) hbefore).2 hinside
    have hsame := Tree.height_eq_of_compare _ _ hequal
    rw [Forest.snapshot, Tree.snapshot, Tree.height_mapSelectors, Forest.snapshot, Tree.snapshot,
      Tree.height_mapSelectors, hview] at hsame
    exact absurd hsame (Nat.ne_of_lt hgrows)

/-- A statement that gives all that is in the data the data themselves. -/
def mirror : Tree Selector :=
  ⟨"root", none,
    [⟨"_data", none, [⟨"a", some (.int 1), []⟩, ⟨"b", some (.int 2), []⟩]⟩,
      ⟨"set", some (.selector ⟨"/../_data/*?value", [.root, .named "_data", .children], .value⟩),
        [⟨"src", some (.selector ⟨"/../_data", [.root, .named "_data"], .node⟩), []⟩]⟩]⟩

theorem set_gives_current_source_of_mirror :
    let w : World := ⟨(Forest.plant mirror .empty).2, default, default⟩
    let m : Machine := ⟨.default, coreTable⟩
    let call : Call := .plain "set" ⟨4⟩
    ∃ g, (set (m.engine 8 (m.perform 8)) call).result ⟨[], []⟩ w = (.ok .normal, w.on g) ∧
      w.forest.Revalued [⟨2⟩, ⟨3⟩] g ∧
      (∃ c, g.value ⟨2⟩ = some (.node c) ∧ g.view c = w.forest.view ⟨1⟩) ∧
      ∃ c, g.value ⟨3⟩ = some (.node c) ∧ (w.forest.snapshot ⟨1⟩).compare (g.snapshot c) ≠ .eq := by
  intro w m call
  let s : Selector := ⟨"/../_data/*?value", [.root, .named "_data", .children], .value⟩
  have wf : w.forest.WellFormed := (Forest.planted mirror .empty Forest.wellFormed_empty).wellFormed
  have hroot : w.forest.IsFinite ⟨0⟩ := (Forest.revived_plant Forest.wellFormed_empty mirror).finite
  have hdata : w.forest.IsFinite ⟨1⟩ := hroot.shown (Or.inl (by decide))
  have hnodes : (s.select (w.forest.seen ⟨[], []⟩) call.node).nodes = [⟨2⟩, ⟨3⟩] := by decide
  have hsource : w.forest.find? call.node sourceName = some ⟨5⟩ := by decide
  have hcarried : carried (w.forest.seen ⟨[], []⟩) ⟨5⟩ = some (.node ⟨1⟩) := by decide
  have hinside : w.forest.InTree ⟨1⟩ ⟨2⟩ := .single (Or.inl (by decide))
  have hfinite : ∀ r, carried (w.forest.seen ⟨[], []⟩) ⟨5⟩ = some (.node r) → w.forest.IsFinite r := by
    intro r hr
    rw [hcarried] at hr
    cases hr
    exact hdata
  obtain ⟨g, hg, hrevalued, -, hcopies⟩ := set_gives_current_source (m.engine 8 (m.perform 8)) call ⟨[], []⟩ w
    wf (by decide) (s := s) rfl rfl hsource hfinite
  rw [hnodes] at hrevalued hcopies
  obtain ⟨a, ha, -, hsame, -⟩ := hcopies ⟨1⟩ hcarried [] ⟨2⟩ [⟨3⟩] rfl
  obtain ⟨b, hb, -, -, hdiffers⟩ := hcopies ⟨1⟩ hcarried [⟨2⟩] ⟨3⟩ [] rfl
  exact ⟨g, hg, hrevalued, ⟨a, ha, hsame (by simp)⟩, b, hb, hdiffers ⟨⟨2⟩, List.mem_cons_self, hinside⟩⟩

/-- The second node does not get what the data were before. -/
theorem mirror_gives_changed_source :
    let w : World := ⟨(Forest.plant mirror .empty).2, default, default⟩
    let m : Machine := ⟨.default, coreTable⟩
    let result := (set (m.engine 8 (m.perform 8)) (.plain "set" ⟨4⟩)).result ⟨[], []⟩ w
    let given (n : NodeId) := (result.2.forest.value n).map result.2.forest.snapshotValue
    let former := some (.node (w.forest.snapshot ⟨1⟩))
    result.1 = .ok .normal ∧ Tree.compareValues former (given ⟨2⟩) = .eq ∧
      Tree.compareValues former (given ⟨3⟩) ≠ .eq := by
  decide +kernel

end EventTree
