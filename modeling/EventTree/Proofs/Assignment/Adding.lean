import EventTree.Proofs.Assignment.Sources
import EventTree.Proofs.Selection.Duplicates
import EventTree.Proofs.Signal.Restoring

/-!
# Adding

`add` copies its sources before it appends anything, and appends copies of these copies. So it does not
matter whether a node that gets them lies in a source, in another such node or in the statement itself.
Main statement: each node found gets copies of its own of what the sources were before, after the children
that it has; no other node changes, and the order in which the nodes are served does not show.
-/

namespace EventTree

namespace Forest

/-! ## Forests with more children -/

/-- `g` is `f` with new children after those of each node; each of them is a tree of its own. -/
structure Extended (f : Forest) (added : NodeId → List NodeId) (g : Forest) : Prop where
  wellFormed : g.WellFormed
  size_le : f.size ≤ g.size
  cell_eq : ∀ m, f.Has m → g.cell m = { f.cell m with children := f.children m ++ added m }
  new : ∀ m, ∀ c ∈ added m, StandsApart f g c
  apart : ∀ m m', ∀ c ∈ added m, ∀ c' ∈ added m', c ≠ c' → ∀ k, g.InTree c k → ¬ g.InTree c' k

/-- Each of the `places` has got copies of its own of `trees` after its children. -/
def Supplied (f : Forest) (places : List NodeId) (trees : List (Tree Selector)) (g : Forest) : Prop :=
  ∃ added, f.Extended added g ∧
    ∀ m, (added m).map g.view = if m ∈ places then trees else []

/-- Appends a copy of `c` to the children of `n`. -/
def appendCopy (f : Forest) (n c : NodeId) : Forest := (f.copy c).2.append n (f.copy c).1

/-- Appends copies of `cs` to the children of each of the `places`. -/
def serve (cs : List NodeId) : List NodeId → Forest → Forest
  | [], f => f
  | n :: places, f => serve cs places (f.appendCopies n cs)

theorem extended_of_untouched {f g : Forest} (h : f.Untouched g) : f.Extended (fun _ => []) g where
  wellFormed := h.wellFormed
  size_le := h.size_le
  cell_eq m hm := by rw [h.cell_eq m hm, List.append_nil]; rfl
  new m c hc := by cases hc
  apart m m' c hc := by cases hc

/-! ## One copy -/

section AppendCopy

variable {g : Forest} (wg : g.WellFormed) {n : NodeId} (hn : g.Has n) (c : NodeId)

include wg hn

theorem keepsApart_appendCopy {f : Forest} (hf : f.Has n) : KeepsApart f g (g.appendCopy n c) where
  size_le := (outgrown_append_copy wg hn c).size_le
  same m hm hnew :=
    .of_cell ((outgrown_append_copy wg hn c).cell_eq m hm fun e => hnew (e ▸ hf))

theorem standsApart_appendCopy : StandsApart g (g.appendCopy n c) (g.copy c).1 := by
  refine (standsApart_copy wg c).kept (copied wg c).wellFormed ⟨by simp [appendCopy], fun m _ hm => ?_⟩
  exact SameNode.append fun e => hm (e ▸ hn)

theorem view_appendCopy : (g.appendCopy n c).view (g.copy c).1 = g.view c := by
  refine view_copy wg (fun m hm _ => SameNode.append fun e => hm (e ▸ hn)) ?_
  simp [appendCopy]

theorem cell_appendCopy_self :
    (g.appendCopy n c).cell n = { g.cell n with children := g.children n ++ [(g.copy c).1] } := by
  have hstep := outgrown_append_copy wg hn c
  have hc := copied wg c
  refine cell_ext hstep.name_eq ?_ hstep.parent_eq ?_
  · change (g.appendCopy n c).value n = g.value n
    rw [appendCopy, append, value_setChildren, value_setParent, hc.grown.value_eq hn]
  · change (g.appendCopy n c).children n = _
    rw [appendCopy, append, (hc.attachable wg hn).children_attach, if_pos rfl, hc.grown.children_eq hn]

end AppendCopy

namespace Extended

variable {f g : Forest} {added : NodeId → List NodeId} (h : f.Extended added g)

include h

theorem has {m : NodeId} (hm : f.Has m) : g.Has m := Nat.lt_of_lt_of_le hm h.size_le

theorem name_eq {m : NodeId} (hm : f.Has m) : g.name m = f.name m := by
  rw [name, h.cell_eq m hm, name]

theorem value_eq {m : NodeId} (hm : f.Has m) : g.value m = f.value m := by
  rw [value, h.cell_eq m hm, value]

theorem children_eq {m : NodeId} (hm : f.Has m) : g.children m = f.children m ++ added m := by
  rw [children, h.cell_eq m hm]

theorem appendCopy {n : NodeId} (hn : f.Has n) (c : NodeId) :
    f.Extended (Function.update added n (added n ++ [(g.copy c).1])) (g.appendCopy n c) := by
  have wg := h.wellFormed
  have hgn := h.has hn
  have hstep : g.Outgrown n (g.appendCopy n c) := outgrown_append_copy wg hgn c
  have hkeeps := keepsApart_appendCopy wg hgn c hn
  have hcopy := standsApart_appendCopy wg hgn c
  have hmem : ∀ {m k}, k ∈ Function.update added n (added n ++ [(g.copy c).1]) m →
      k ∈ added m ∨ k = (g.copy c).1 := by
    intro m k hk
    by_cases hmn : m = n
    · subst hmn
      rwa [Function.update_self, List.mem_append, List.mem_singleton] at hk
    · rw [Function.update_of_ne hmn] at hk
      exact Or.inl hk
  -- The copies from before still consist of nodes from before.
  have hold : ∀ {m k i}, k ∈ added m → (g.appendCopy n c).InTree k i → g.Has i := by
    intro m k i hk hi
    have hapart := h.new m k hk
    exact wg.has_reached hapart.has ((hapart.inTree_iff wg hkeeps).mp hi)
  refine ⟨hstep.wellFormed, Nat.le_trans h.size_le hstep.size_le, fun m hm => ?_, fun m k hk => ?_, ?_⟩
  · by_cases hmn : m = n
    · subst hmn
      rw [cell_appendCopy_self wg hgn, children, h.cell_eq m hm, Function.update_self, List.append_assoc]
    · rw [hstep.cell_eq m (h.has hm) hmn, h.cell_eq m hm, Function.update_of_ne hmn]
  · rcases hmem hk with hk | rfl
    · exact (h.new m k hk).kept wg hkeeps
    · exact hcopy.mono h.size_le
  · intro m m' k hk k' hk' hne i hi hi'
    rcases hmem hk with hk | rfl <;> rcases hmem hk' with hk' | rfl
    · exact h.apart m m' k hk k' hk' hne i (((h.new m k hk).inTree_iff wg hkeeps).mp hi)
        (((h.new m' k' hk').inTree_iff wg hkeeps).mp hi')
    · exact hcopy.new i hi' (hold hk hi)
    · exact hcopy.new i hi (hold hk' hi')
    · exact hne rfl

/-! ## A run of copies -/

/-- The copies for one node. What is copied and what was appended before are apart from all nodes that
change, so both stay as they are. -/
theorem appendCopies {n : NodeId} (hn : f.Has n) {cs : List NodeId} (hcs : ∀ c ∈ cs, StandsApart f g c) :
    ∃ new, f.Extended (Function.update added n (added n ++ new)) (g.appendCopies n cs) ∧
      KeepsApart f g (g.appendCopies n cs) ∧
      new.map (g.appendCopies n cs).view = cs.map g.view := by
  induction cs generalizing g added with
  | nil =>
    refine ⟨[], ?_, ⟨Nat.le_refl _, fun _ _ _ => .of_cell rfl⟩, rfl⟩
    rw [List.append_nil, Function.update_eq_self]
    exact h
  | cons c cs ih =>
    have wg := h.wellFormed
    have hgn := h.has hn
    have hstep := h.appendCopy hn c
    have hkeeps := keepsApart_appendCopy wg hgn c hn
    have hcopy : StandsApart f (g.appendCopy n c) (g.copy c).1 :=
      (standsApart_appendCopy wg hgn c).mono h.size_le
    have hcs' : ∀ d ∈ cs, StandsApart f g d := fun d hd => hcs d (List.mem_cons_of_mem _ hd)
    obtain ⟨new, hnew, hrest, hviews⟩ := ih hstep fun d hd => (hcs' d hd).kept wg hkeeps
    refine ⟨(g.copy c).1 :: new, ?_, hkeeps.trans hrest, ?_⟩
    · rwa [Function.update_idem, Function.update_self, List.append_assoc] at hnew
    · have hfirst : (g.appendCopies n (c :: cs)).view (g.copy c).1 = g.view c :=
        (hcopy.view_eq hstep.wellFormed hrest).trans (view_appendCopy wg hgn c)
      have hothers : cs.map (g.appendCopy n c).view = cs.map g.view :=
        List.map_congr_left fun d hd => (hcs' d hd).view_eq wg hkeeps
      rw [List.map_cons, hfirst, List.map_cons, ← hothers, ← hviews]
      rfl

theorem serve {places : List NodeId} (hplaces : ∀ n ∈ places, f.Has n) (hnodup : places.Nodup)
    {cs : List NodeId} (hcs : ∀ c ∈ cs, StandsApart f g c) :
    ∃ added', f.Extended added' (g.serve cs places) ∧
      ∀ m, (added' m).map (g.serve cs places).view =
        (added m).map g.view ++ if m ∈ places then cs.map g.view else [] := by
  induction places generalizing g added with
  | nil => exact ⟨added, h, fun m => by simp [Forest.serve]⟩
  | cons n places ih =>
    have wg := h.wellFormed
    obtain ⟨hout, hnodup⟩ := List.nodup_cons.mp hnodup
    obtain ⟨new, hfirst, hkeeps, hviews⟩ := h.appendCopies (hplaces n List.mem_cons_self) hcs
    obtain ⟨added', hadded, hsame⟩ := ih hfirst (fun k hk => hplaces k (List.mem_cons_of_mem _ hk)) hnodup
      fun c hc => (hcs c hc).kept wg hkeeps
    have hsources : cs.map (g.appendCopies n cs).view = cs.map g.view :=
      List.map_congr_left fun c hc => (hcs c hc).view_eq wg hkeeps
    refine ⟨added', hadded, fun m => (hsame m).trans ?_⟩
    have hformer : (added m).map (g.appendCopies n cs).view = (added m).map g.view :=
      List.map_congr_left fun c hc => (h.new m c hc).view_eq wg hkeeps
    by_cases hm : m = n
    · subst hm
      simp [hout, hformer, hviews]
    · simp [hm, Function.update_of_ne, hformer, hsources]

/-! ## What is seen of it -/

theorem viewTo_added {m : NodeId} (fuel : Nat) :
    (added m).map (g.viewTo fuel) = ((added m).map g.view).map (Tree.cut fuel) := by
  rw [List.map_map]
  exact List.map_congr_left fun c hc =>
    (h.new m c hc).finite.viewTo_eq_cut h.wellFormed (h.new m c hc).has fuel

theorem viewTo_eq (wf : f.WellFormed) {added' : NodeId → List NodeId} {g' : Forest}
    (h' : f.Extended added' g') (hviews : ∀ m, (added' m).map g'.view = (added m).map g.view)
    (fuel : Nat) {m : NodeId} (hm : f.Has m) : g'.viewTo fuel m = g.viewTo fuel m := by
  induction fuel generalizing m with
  | zero => rw [viewTo, h'.name_eq hm, viewTo, h.name_eq hm]
  | succ fuel ih =>
    have hvalue : (f.value m).map (Value.map (g'.viewTo fuel) id) =
        (f.value m).map (Value.map (g.viewTo fuel) id) := map_value_congr fun c hc => ih (wf.held m c hc)
    have hchildren : (f.children m).map (g'.viewTo fuel) = (f.children m).map (g.viewTo fuel) :=
      List.map_congr_left fun c hc => ih (wf.has_child hc)
    have hadded : (added' m).map (g'.viewTo fuel) = (added m).map (g.viewTo fuel) := by
      rw [h'.viewTo_added, hviews, h.viewTo_added]
    rw [viewTo, h'.name_eq hm, h'.value_eq hm, h'.children_eq hm, List.map_append, hvalue, hchildren,
      hadded, viewTo, h.name_eq hm, h.value_eq hm, h.children_eq hm, List.map_append]

end Extended

theorem Supplied.viewTo_eq {f g g' : Forest} {places places' : List NodeId} {trees : List (Tree Selector)}
    (h : f.Supplied places trees g) (h' : f.Supplied places' trees g') (wf : f.WellFormed)
    (hsame : ∀ m, m ∈ places' ↔ m ∈ places) (fuel : Nat) {m : NodeId} (hm : f.Has m) :
    g'.viewTo fuel m = g.viewTo fuel m := by
  obtain ⟨added, hext, hviews⟩ := h
  obtain ⟨added', hext', hviews'⟩ := h'
  exact hext.viewTo_eq wf hext' (fun m => by simp only [hviews, hviews', hsame]) fuel hm

/-! ## Copies of contributions -/

/-- In `g` the node `n` is there for the contribution `c` of `f`. -/
structure Represents (f g : Forest) (c : Contribution) (n : NodeId) : Prop where
  has : g.Has n
  finite : c.IsFinite f → g.IsFinite n
  view_eq : c.IsFinite f → g.view n = c.tree f

/-- From `g` to `k` copies `cs` of the contributions `given` of `f` were made. -/
structure Delivered (f g : Forest) (given : List Contribution) (cs : List NodeId) (k : Forest) : Prop where
  untouched : g.Untouched k
  apart : ∀ c ∈ cs, StandsApart f k c
  view_eq : (∀ c ∈ given, c.IsFinite f) → cs.map k.view = given.map (·.tree f)

namespace Represents

variable {f g k : Forest} {c : Contribution} {n : NodeId}

theorem untouched (h : f.Represents g c n) (wg : g.WellFormed) (hk : g.Untouched k) :
    f.Represents k c n where
  has := hk.has h.has
  finite hfinite := hk.isFinite h.has wg (h.finite hfinite)
  view_eq hfinite := (hk.view_eq h.has wg (h.finite hfinite)).trans (h.view_eq hfinite)

theorem node (wf : f.WellFormed) (hn : f.Has n) (hg : f.Untouched g) : f.Represents g (.node n) n where
  has := hg.has hn
  finite hfinite := hg.isFinite hn wf (hfinite n rfl)
  view_eq hfinite := hg.view_eq hn wf (hfinite n rfl)

theorem value {v : LiveValue} (wf : f.WellFormed) (hv : ∀ m, v = .node m → f.Has m) (hg : f.Untouched g) :
    f.Represents ((g.create "").2.setValue ⟨g.size⟩ (some v)) (.value v) ⟨g.size⟩ := by
  have hk := hg.trans (untouched_createWith hg.wellFormed "" (v := some v) fun m hm =>
    hg.has (hv m (Option.some.inj hm)))
  have hcell := g.cell_createWith "" (some v)
  have hhas : ((g.create "").2.setValue ⟨g.size⟩ (some v)).Has ⟨g.size⟩ := has_setValue.mpr has_create_self
  -- From here on only the cell of the new node matters.
  generalize (g.create "").2.setValue ⟨g.size⟩ (some v) = k at hk hcell hhas
  have hname : k.name ⟨g.size⟩ = "" := congrArg Cell.name hcell
  have hvalue : k.value ⟨g.size⟩ = some v := congrArg Cell.value hcell
  have hchildren : k.children ⟨g.size⟩ = [] := congrArg Cell.children hcell
  have hroot : ∀ m, v = .node m → (Contribution.value v).root? = some m := by
    rintro m rfl
    rfl
  have hfinite : (Contribution.value v).IsFinite f → k.IsFinite ⟨g.size⟩ := fun h => by
    refine .mk id fun m hm => ?_
    rw [Shows, hchildren, hvalue] at hm
    have hm : v = .node m := by simpa using hm
    exact hk.isFinite (hv m hm) wf (h m (hroot m hm))
  refine ⟨hhas, hfinite, fun h => ?_⟩
  have hview : k.viewValue (some v) = f.viewValue (some v) := map_value_congr fun m hm => by
    have hm := Option.some.inj hm
    exact hk.view_eq (hv m hm) wf (h m (hroot m hm))
  rw [(hfinite h).view_eq_mk hk.wellFormed hhas, hname, hvalue, hchildren, hview]
  rfl

theorem copy (h : f.Represents g c n) (wg : g.WellFormed) (hsize : f.size ≤ g.size) :
    f.Delivered g [c] [(g.copy n).1] (g.copy n).2 := by
  refine ⟨untouched_copy wg n, fun m hm => ?_, fun hfinite => ?_⟩
  · rw [List.mem_singleton.mp hm]
    exact (standsApart_copy wg n).mono hsize
  · have hview : (g.copy n).2.view (g.copy n).1 = g.view n :=
      view_copy wg (fun _ _ _ => .of_cell rfl) (Nat.le_refl _)
    rw [List.map_singleton, hview, h.view_eq (hfinite c (List.mem_singleton_self c)), List.map_singleton]

end Represents

theorem Delivered.append {f g k l : Forest} {given given' : List Contribution} {cs cs' : List NodeId}
    (h : f.Delivered g given cs k) (h' : f.Delivered k given' cs' l) :
    f.Delivered g (given ++ given') (cs ++ cs') l := by
  refine ⟨h.untouched.trans h'.untouched, fun c hc => ?_, fun hfinite => ?_⟩
  · rcases List.mem_append.mp hc with hc | hc
    · exact (h.apart c hc).kept h.untouched.wellFormed h'.untouched.keepsApart
    · exact h'.apart c hc
  · have hsame : cs.map l.view = cs.map k.view := List.map_congr_left fun c hc =>
      (h.apart c hc).view_eq h.untouched.wellFormed h'.untouched.keepsApart
    rw [List.map_append, List.map_append, hsame,
      h.view_eq fun c hc => hfinite c (List.mem_append_left _ hc),
      h'.view_eq fun c hc => hfinite c (List.mem_append_right _ hc)]

theorem Delivered.after {f g k l : Forest} {given : List Contribution} {cs : List NodeId}
    (h : f.Delivered k given cs l) (hk : g.Untouched k) : f.Delivered g given cs l :=
  ⟨hk.trans h.untouched, h.apart, h.view_eq⟩

theorem Delivered.nil {f g : Forest} (wg : g.WellFormed) : f.Delivered g [] [] g :=
  ⟨.refl wg, fun _ hc => (List.not_mem_nil hc).elim, fun _ => rfl⟩

end Forest

open EventTree.Action Keyword

/-! ## The actions -/

namespace Keyword

/-- What is left of `add` when its selector has found the `places`. -/
def addTo (places : List NodeId) (n : NodeId) : Action Unit := do
  let sources ← ask (·.findAll n sourceName)
  let copies ← gather sources fun source => do gather (← contributed source) copy
  forEach places fun destination =>
    forEach copies.flatten fun n => do
      let child ← copy n
      insert destination none child

section Add

variable (engine : Engine) {call : Call} {hold : Hold} {w : World}

theorem result_add_of_nodes {s : Selector} (hs : w.forest.value call.node = some (.selector s))
    (hkind : s.kind = .node) :
    (add engine call).result hold w =
      (do
        addTo (s.select (w.forest.seen hold) call.node).nodes call.node
        return Flow.normal).result hold w := by
  unfold add addTo
  rw [result_bind_ok (result_destination hs), result_bind_ok (result_observe _)]
  simp only [Selector.select, hkind, ne_eq, not_true_eq_false, if_false, bind_assoc]

theorem result_add_of_other (h : ∀ s, w.forest.value call.node = some (.selector s) → s.kind ≠ .node) :
    ∃ cause, (add engine call).result hold w = (.error (.error (.ofCause cause)), w) := by
  by_cases hs : ∃ s, w.forest.value call.node = some (.selector s)
  · obtain ⟨s, hs⟩ := hs
    refine ⟨.notNodes s.source, ?_⟩
    unfold add
    rw [result_bind_ok (result_destination hs), result_bind_ok (result_observe _)]
    simp only [Selector.select, h s hs, ne_eq, not_false_eq_true, if_true]
    exact result_bind_error (result_fail _)
  · exact ⟨_, result_bind_error (result_destination_of_other fun s h => hs ⟨s, h⟩)⟩

end Add

/-- The node that is there for a contribution. -/
def represent : Contribution → Action NodeId
  | .node n => return n
  | .value v => createWith "" (some v)

theorem contributed_eq (source : NodeId) {hold : Hold} {w : World} :
    (contributed source).result hold w =
      (gather (w.forest.contributions hold source) represent).result hold w := by
  -- Nodes are there already; only values need a node of their own.
  have hnodes : ∀ ns : List NodeId, gather (ns.map .node) represent = pure ns := by
    intro ns
    induction ns with
    | nil => rfl
    | cons n ns ih => rw [List.map_cons, gather, ih]; rfl
  have hvalues : ∀ vs : List LiveValue,
      gather (vs.map .value) represent = gather vs fun v => createWith "" (some v) := by
    intro vs
    induction vs with
    | nil => rfl
    | cons v vs ih => rw [List.map_cons, gather, ih]; rfl
  have hchildren : (ask (·.children source)).result hold w =
      (gather ((w.forest.children source).map .node) represent).result hold w := by
    rw [hnodes]
    rfl
  rw [contributed, result_bind_ok (result_ask _), Forest.contributions]
  generalize w.forest.value source = v
  rcases v with _ | v
  · exact hchildren
  · cases v with
    | selector s =>
      change (observe (s.select · source) >>= _).result hold w = _
      rw [result_bind_ok (result_observe _)]
      change (if s.kind = .node then _ else _ : Action _).result hold w = _
      by_cases hkind : s.kind = .node
      · simp only [if_pos hkind, hnodes]
      · simp only [if_neg hkind, hvalues]
        rw [result_bind_ok (result_ask _)]
    | node n => exact congrArg (Action.result · hold w) (hnodes [n]).symm
    | _ => exact hchildren

section Gathering

variable (hold : Hold) (w : World) {f : Forest} (wf : f.WellFormed)

include wf

theorem result_represent {c : Contribution} (hc : ∀ n, c.root? = some n → f.Has n) {g : Forest}
    (hg : f.Untouched g) :
    ∃ n k, (represent c).result hold (w.on g) = (.ok n, w.on k) ∧ g.Untouched k ∧ f.Represents k c n := by
  cases c with
  | node n => exact ⟨n, g, rfl, .refl hg.wellFormed, .node wf (hc n rfl) hg⟩
  | value v =>
    have hv : ∀ m, v = .node m → f.Has m := by
      rintro m rfl
      exact hc m rfl
    have hstep := Forest.untouched_createWith hg.wellFormed "" (v := some v) fun m hm =>
      hg.has (hv m (Option.some.inj hm))
    exact ⟨⟨g.size⟩, _, rfl, hstep, .value wf hv hg⟩

theorem result_gather_represent {given : List Contribution}
    (hgiven : ∀ c ∈ given, ∀ n, c.root? = some n → f.Has n) {g : Forest} (hg : f.Untouched g) :
    ∃ ns k, (gather given represent).result hold (w.on g) = (.ok ns, w.on k) ∧
      g.Untouched k ∧ List.Forall₂ (f.Represents k) given ns := by
  induction given generalizing g with
  | nil => exact ⟨[], g, rfl, .refl hg.wellFormed, .nil⟩
  | cons c given ih =>
    obtain ⟨n, k, hfirst, hk, hn⟩ := result_represent hold w wf
      (hgiven c List.mem_cons_self) hg
    obtain ⟨ns, l, hrest, hl, hns⟩ := ih (fun c hc => hgiven c (List.mem_cons_of_mem _ hc)) (hg.trans hk)
    refine ⟨n :: ns, l, ?_, hk.trans hl, .cons (hn.untouched hk.wellFormed hl) hns⟩
    rw [gather, result_bind_ok hfirst, result_bind_ok hrest]
    rfl

theorem result_contributed {source : NodeId} (hs : f.Has source) {g : Forest} (hg : f.Untouched g) :
    ∃ ns k, (contributed source).result hold (w.on g) = (.ok ns, w.on k) ∧
      g.Untouched k ∧ List.Forall₂ (f.Represents k) (f.contributions hold source) ns := by
  rw [contributed_eq, World.forest_on, hg.contributions_eq wf hs]
  exact result_gather_represent hold w wf (fun c hc n hn => f.has_contribution wf hs hc hn) hg

omit wf in
theorem result_gather_copy {given : List Contribution} {ns : List NodeId} {g : Forest}
    (hg : f.Untouched g) (h : List.Forall₂ (f.Represents g) given ns) :
    ∃ cs k, (gather ns copy).result hold (w.on g) = (.ok cs, w.on k) ∧ f.Delivered g given cs k := by
  induction ns generalizing g given with
  | nil =>
    cases h
    exact ⟨[], g, rfl, .nil hg.wellFormed⟩
  | cons n ns ih =>
    cases h with
    | cons hn hns =>
      have hstep := Forest.untouched_copy hg.wellFormed n
      have hfirst : (copy n).result hold (w.on g) = (.ok (g.copy n).1, w.on (g.copy n).2) := rfl
      obtain ⟨cs, k, hrest, hcs⟩ := ih (hg.trans hstep)
        (hns.imp fun _ _ h => h.untouched hg.wellFormed hstep)
      refine ⟨(g.copy n).1 :: cs, k, ?_, (hn.copy hg.wellFormed hg.size_le).append hcs⟩
      rw [gather, result_bind_ok hfirst, result_bind_ok hrest]
      rfl

theorem result_gather_sources {sources : List NodeId} (hs : ∀ source ∈ sources, f.Has source) {g : Forest}
    (hg : f.Untouched g) :
    ∃ css k, (gather sources fun source => do gather (← contributed source) copy).result hold (w.on g) =
        (.ok css, w.on k) ∧ f.Delivered g (sources.flatMap (f.contributions hold)) css.flatten k := by
  induction sources generalizing g with
  | nil => exact ⟨[], g, rfl, .nil hg.wellFormed⟩
  | cons source sources ih =>
    obtain ⟨ns, k, hnodes, hk, hns⟩ := result_contributed hold w wf
      (hs source List.mem_cons_self) hg
    obtain ⟨cs, l, hcopies, hcs⟩ := result_gather_copy hold w (hg.trans hk) hns
    obtain ⟨css, j, hrest, hcss⟩ := ih (fun s hmem => hs s (List.mem_cons_of_mem _ hmem))
      ((hg.trans hk).trans hcs.untouched)
    refine ⟨cs :: css, j, ?_, (hcs.after hk).append hcss⟩
    rw [gather, result_bind_ok ((result_bind_ok hnodes).trans hcopies), result_bind_ok hrest]
    rfl

end Gathering

theorem result_serve {hold : Hold} {w : World} (wf : w.forest.WellFormed) (cs : List NodeId)
    {places : List NodeId} (hplaces : ∀ n ∈ places, w.forest.Has n) :
    (forEach places fun destination =>
      forEach cs fun n => do
        let child ← copy n
        insert destination none child).result hold w = (.ok (), w.on (w.forest.serve cs places)) := by
  induction places generalizing w with
  | nil => rfl
  | cons n places ih =>
    have hn := hplaces n List.mem_cons_self
    have hstep := Forest.appendCopies_outgrown wf hn cs
    rw [forEach, result_bind_ok (result_appendCopies hold wf hn cs)]
    exact ih (w := w.on (w.forest.appendCopies n cs)) hstep.wellFormed fun k hk =>
      hstep.has (hplaces k (List.mem_cons_of_mem _ hk))

/-- The copies are made before any place gets them, so each place gets the same trees, whatever the places
and their order are. -/
theorem result_addTo (hold : Hold) {w : World} (wf : w.forest.WellFormed) (n : NodeId) :
    ∃ trees, ((∀ c ∈ w.forest.additions hold n, c.IsFinite w.forest) →
        trees = (w.forest.additions hold n).map (·.tree w.forest)) ∧
      ∀ places, (∀ m ∈ places, w.forest.Has m) → places.Nodup →
        ∃ g, (addTo places n).result hold w = (.ok (), w.on g) ∧ w.forest.Supplied places trees g := by
  have hsources : ∀ source ∈ w.forest.findAll n sourceName, w.forest.Has source := fun source hmem =>
    wf.has_child (List.mem_of_mem_filter hmem)
  obtain ⟨css, k, hgather, hcopies⟩ := result_gather_sources hold w wf hsources (.refl wf)
  refine ⟨css.flatten.map k.view, hcopies.view_eq, fun places hplaces hnodup => ?_⟩
  have hk := hcopies.untouched
  obtain ⟨added, hext, hviews⟩ := (Forest.extended_of_untouched hk).serve hplaces hnodup hcopies.apart
  refine ⟨k.serve css.flatten places, ?_, added, hext, hviews⟩
  rw [addTo, result_bind_ok (result_ask _)]
  exact (result_bind_ok hgather).trans
    (result_serve (w := w.on k) hk.wellFormed css.flatten fun m hm => hk.has (hplaces m hm))

end Keyword

/-! ## The main statement -/

/-- A statement whose selector finds nodes appends to each of them copies of what its sources contributed
before, and changes nothing else; in another order of the nodes found all old nodes show the same. Any other
statement fails and changes nothing. -/
theorem add_appends_former_copies (engine : Engine) (call : Call) (hold : Hold) (w : World)
    (wf : w.forest.WellFormed) (hn : w.forest.Has call.node) :
    (∀ s, w.forest.value call.node = some (.selector s) → s.kind = .node →
      ∃ g trees, (add engine call).result hold w = (.ok .normal, w.on g) ∧
        w.forest.Supplied (s.select (w.forest.seen hold) call.node).nodes trees g ∧
        ((∀ c ∈ w.forest.additions hold call.node, c.IsFinite w.forest) →
          trees = (w.forest.additions hold call.node).map (·.tree w.forest)) ∧
        ∀ order, order.Perm (s.select (w.forest.seen hold) call.node).nodes →
          ∃ g', (addTo order call.node).result hold w = (.ok (), w.on g') ∧
            w.forest.Supplied order trees g' ∧
            ∀ fuel m, w.forest.Has m → g'.viewTo fuel m = g.viewTo fuel m) ∧
    ((∀ s, w.forest.value call.node = some (.selector s) → s.kind ≠ .node) →
      ∃ cause, (add engine call).result hold w = (.error (.error (.ofCause cause)), w)) := by
  refine ⟨fun s hs hkind => ?_, result_add_of_other engine⟩
  have hplaces : ∀ m ∈ (s.select (w.forest.seen hold) call.node).nodes, w.forest.Has m := fun m hm =>
    wf.has_select hold hn hm
  have hnodup := s.nodup_select (w.forest.seen hold) call.node
  obtain ⟨trees, htrees, hadd⟩ := result_addTo hold wf call.node
  obtain ⟨g, hg, hsupplied⟩ := hadd _ hplaces hnodup
  refine ⟨g, trees, ?_, hsupplied, htrees, fun order hperm => ?_⟩
  · rw [result_add_of_nodes engine hs hkind, result_bind_ok hg, result_pure]
  · obtain ⟨g', hg', hsupplied'⟩ := hadd order (fun m hm => hplaces m (hperm.mem_iff.mp hm))
      (hperm.nodup_iff.mpr hnodup)
    exact ⟨g', hg', hsupplied', fun fuel m hm =>
      hsupplied.viewTo_eq hsupplied' wf (fun _ => hperm.mem_iff) fuel hm⟩

/-- A statement that puts a box into all that is named `x`: in the box, in one another and in itself. -/
def stuffing : Tree Selector :=
  ⟨"root", none,
    [⟨"box", none, [⟨"x", none, [⟨"x", some (.int 1), []⟩]⟩]⟩,
      ⟨"add", some (.selector ⟨"/../**/x", [.root, .descendants, .named "x"], .node⟩),
        [⟨"src", some (.selector ⟨"/../box", [.root, .named "box"], .node⟩), []⟩, ⟨"x", none, []⟩]⟩]⟩

theorem add_appends_former_copies_of_stuffing :
    let w : World := ⟨(Forest.plant stuffing .empty).2, default, default⟩
    let m : Machine := ⟨.default, coreTable⟩
    let engine := m.engine 8 (m.perform 8)
    let call : Call := .plain "add" ⟨4⟩
    (∃ g, (add engine call).result ⟨[], []⟩ w = (.ok .normal, w.on g) ∧
      w.forest.Supplied [⟨2⟩, ⟨3⟩, ⟨6⟩] [w.forest.view ⟨1⟩] g ∧
      ∃ g', (addTo [⟨6⟩, ⟨3⟩, ⟨2⟩] call.node).result ⟨[], []⟩ w = (.ok (), w.on g') ∧
        g'.viewTo 9 ⟨0⟩ = g.viewTo 9 ⟨0⟩) ∧
    ∃ cause, (add engine (.plain "add" ⟨1⟩)).result ⟨[], []⟩ w = (.error (.error (.ofCause cause)), w) := by
  intro w m engine call
  have wf : w.forest.WellFormed := (Forest.planted stuffing .empty Forest.wellFormed_empty).wellFormed
  have hroot : w.forest.IsFinite ⟨0⟩ := (Forest.revived_plant Forest.wellFormed_empty stuffing).finite
  have hplaces : (Selector.select ⟨"/../**/x", [.root, .descendants, .named "x"], .node⟩
      (w.forest.seen ⟨[], []⟩) call.node).nodes = [⟨2⟩, ⟨3⟩, ⟨6⟩] := by decide
  have hgiven : w.forest.additions ⟨[], []⟩ call.node = [.node ⟨1⟩] := by decide
  have hfinite : ∀ c ∈ w.forest.additions ⟨[], []⟩ call.node, c.IsFinite w.forest := by
    intro c hc n hn
    rw [hgiven, List.mem_singleton] at hc
    subst hc
    cases hn
    exact hroot.shown (Or.inl (by decide))
  obtain ⟨hadd, -⟩ := add_appends_former_copies engine call ⟨[], []⟩ w wf (by decide)
  obtain ⟨-, hother⟩ := add_appends_former_copies engine (.plain "add" ⟨1⟩) ⟨[], []⟩ w wf (by decide)
  obtain ⟨g, trees, hg, hsupplied, htrees, horder⟩ := hadd _ rfl rfl
  rw [hplaces] at hsupplied horder
  rw [htrees hfinite, hgiven] at hsupplied
  obtain ⟨g', hg', -, hsame⟩ := horder [⟨6⟩, ⟨3⟩, ⟨2⟩] (by decide)
  refine ⟨⟨g, hg, hsupplied, g', hg', hsame 9 ⟨0⟩ (by decide)⟩, hother fun s hs => ?_⟩
  cases hs

end EventTree
