import EventTree.Proofs.Forest.Snapshots
import EventTree.Proofs.Rounds
import EventTree.Proofs.Signal.Boundary

/-!
# Declared events

When an event is raised that a program has declared, its bodies are made live below the node, all of them
before the first one runs. They are run in turn, taken away again, and what they came to ends at the node.

Nothing that a body does can change which nodes are the bodies: they are made from what the store had when
the handler was called. It can move them, and it can change what is in those that have not run yet.
-/

namespace EventTree

open EventTree.Action Keyword

/-! ## Reading the bodies -/

/-- Every selector of the snapshot can be read. -/
def Tree.Legible (t : Snapshot) : Prop :=
  ∀ source ∈ t.selectors, ∃ selector, Selector.parse source = .ok selector

theorem Tree.readSelectors_cases (t : Snapshot) :
    (t.Legible ∧ ∃ live, t.readSelectors = .ok live ∧ live.snapshot = t) ∨
      (¬ t.Legible ∧ ∃ cause, t.readSelectors = .error cause ∧ cause.kind = .validation) := by
  have hiff : (∃ live, t.readSelectors = .ok live) ↔ t.Legible := Tree.readSelectors_ok_iff
  cases h : t.readSelectors with
  | ok live =>
    exact Or.inl ⟨hiff.mp ⟨live, h⟩, live, rfl, Tree.snapshot_of_readSelectors h⟩
  | error cause =>
    refine Or.inr ⟨fun hread => ?_, cause, rfl, ?_⟩
    · obtain ⟨live, hlive⟩ := hiff.mpr hread
      cases h.symm.trans hlive
    · obtain ⟨source, hfirst⟩ := Tree.firstMalformed_of_readSelectors h
      obtain ⟨rest, flaw, rfl⟩ := Selector.malformed_of_parse hfirst.cause
      rfl

theorem result_gather_readSelectors (hold : Hold) (w : World) (snapshots : List Snapshot) :
    ((∀ t ∈ snapshots, t.Legible) ∧
      ∃ trees, (gather snapshots fun t => ofExcept t.readSelectors).result hold w = (.ok trees, w) ∧
        trees.map Tree.snapshot = snapshots) ∨
    ((∃ t ∈ snapshots, ¬ t.Legible) ∧
      ∃ e : Error, (gather snapshots fun t => ofExcept t.readSelectors).result hold w =
        (.error (.error e), w) ∧ e.kind = .validation) := by
  induction snapshots with
  | nil => exact Or.inl ⟨by simp, [], rfl, rfl⟩
  | cons t rest ih =>
    rw [gather]
    rcases t.readSelectors_cases with ⟨hread, live, hlive, hsnapshot⟩ | ⟨hunread, cause, hcause, hkind⟩
    · rw [hlive, result_bind_ok (result_ofExcept_ok live)]
      rcases ih with ⟨hall, trees, htrees, hmap⟩ | ⟨⟨s, hs, hunread⟩, e, herror, hkind⟩
      · refine Or.inl ⟨List.forall_mem_cons.mpr ⟨hread, hall⟩, live :: trees, ?_, ?_⟩
        · rw [result_bind_ok htrees]
          rfl
        · rw [List.map_cons, hsnapshot, hmap]
      · exact Or.inr ⟨⟨s, List.mem_cons_of_mem _ hs, hunread⟩, e, result_bind_error herror, hkind⟩
    · rw [hcause, result_bind_error (result_ofExcept_error cause)]
      exact Or.inr ⟨⟨t, List.mem_cons_self, hunread⟩, _, rfl, hkind⟩

/-! ## Making them live -/

namespace Forest

/-- Trees were planted one after the other: the roots, and the forest that has them all. -/
structure Sown (f : Forest) (ts : List (Tree Selector)) (ns : List NodeId) (g : Forest) : Prop where
  wellFormed : g.WellFormed
  grown : f.Grown g
  nodup : ns.Nodup
  root : ∀ n ∈ ns, ¬ f.Has n ∧ g.Has n ∧ g.parent n = none
  /-- They show the trees for as long as the new nodes are as they were planted. -/
  views : ∀ h : Forest, g.size ≤ h.size → (∀ k, ¬ f.Has k → g.Has k → g.SameNode h k) →
    ns.map h.view = ts

/-- `g` is `f` with nodes of its own below `n`, after its children, that have the given snapshots. -/
structure Hosting (f : Forest) (n : NodeId) (snapshots : List Snapshot) (bodies : List NodeId)
    (g : Forest) : Prop where
  wellFormed : g.WellFormed
  snapshots_eq : bodies.map g.snapshot = snapshots
  nodup : bodies.Nodup
  new : ∀ body ∈ bodies, ∀ m, g.InTree body m → ¬ f.Has m
  children_eq : g.children n = f.children n ++ bodies
  name_eq : g.name n = f.name n
  value_eq : g.value n = f.value n
  parent_eq : g.parent n = f.parent n
  size_le : f.size ≤ g.size
  unchanged : ∀ m, f.Has m → m ≠ n → g.cell m = f.cell m

section Sown

variable {f g : Forest} {ts : List (Tree Selector)} {ns : List NodeId}

theorem Sown.nil (wf : f.WellFormed) : f.Sown [] [] f :=
  ⟨wf, .refl f, List.nodup_nil, by simp, by simp⟩

theorem Sown.cons (wf : f.WellFormed) (t : Tree Selector) (h : (plant t f).2.Sown ts ns g) :
    f.Sown (t :: ts) ((plant t f).1 :: ns) g := by
  have hp := planted t f wf
  refine ⟨h.wellFormed, hp.grown.trans h.grown, ?_, ?_, fun u hsize hsame => ?_⟩
  · exact List.nodup_cons.mpr ⟨fun hmem => (h.root _ hmem).1 hp.has, h.nodup⟩
  · rw [List.forall_mem_cons]
    constructor
    · exact ⟨hp.not_has, h.grown.has hp.has, (h.grown.parent_eq hp.has).trans hp.root⟩
    · intro n hn
      obtain ⟨hnew, hhas, hroot⟩ := h.root n hn
      exact ⟨fun hf => hnew (hp.grown.has hf), hhas, hroot⟩
  · -- Planting the others leaves the first as it was.
    have hfirst : u.view (plant t f).1 = t := by
      apply viewTo_plant t f wf
      · intro k hk hkp
        exact (SameNode.of_cell (h.grown.cell_eq k hkp)).trans (hsame k hk (h.grown.has hkp))
      · have := h.grown.size_le
        omega
    rw [List.map_cons, hfirst, h.views u hsize]
    exact fun k hk hkg => hsame k (fun hf => hk (hp.grown.has hf)) hkg

theorem Sown.lendable (h : f.Sown ts ns g) (wf : f.WellFormed) {n : NodeId} (hn : f.Has n) :
    ∀ c ∈ ns, Lendable g n c := by
  intro c hc
  obtain ⟨hnew, hhas, -⟩ := h.root c hc
  exact ⟨hhas, fun e => hnew (e ▸ hn), fun ha => hnew (wf.has_above (h.grown.above wf ha hn))⟩

theorem Sown.hosting (h : f.Sown ts ns g) (wf : f.WellFormed) {n : NodeId} (hn : f.Has n) {u : Forest}
    (hl : Lent n ns g u) (hchildren : u.children n = g.children n ++ ns) :
    f.Hosting n (ts.map Tree.snapshot) ns u := by
  have hne : ∀ {k}, ¬ f.Has k → k ≠ n := fun hk e => hk (e ▸ hn)
  have hsame : ∀ k, k ≠ n → g.SameNode u k := by
    intro k hk
    refine ⟨hl.name_eq k, hl.value_eq k, ?_⟩
    rw [hl.children_ne k hk, List.filter_eq_self]
    -- The roots are nobody's children yet.
    intro c hc
    refine decide_eq_true fun hmem => ?_
    cases (h.root c hmem).2.2.symm.trans ((h.wellFormed.linked k c).mp hc)
  have hold : ∀ m, f.Has m → u.parent m = f.parent m := by
    intro m hm
    rw [hl.parent_eq, if_neg fun hmem => (h.root m hmem).1 hm, h.grown.parent_eq hm]
  refine ⟨hl.wellFormed, ?_, h.nodup, ?_, ?_, ?_, ?_, hold n hn, ?_, ?_⟩
  · have hviews := h.views u hl.size_eq.ge fun k hk _ => hsame k (hne hk)
    rw [← hviews, List.map_map]
    rfl
  · intro body hbody m hm
    induction hm with
    | refl => exact (h.root body hbody).1
    | tail _ hshows ih =>
      have hk := hsame _ (hne ih)
      rw [Shows, hk.children, hk.value] at hshows
      exact h.grown.new_shown wf h.wellFormed ih hshows
  · rw [hchildren, h.grown.children_eq hn]
  · rw [hl.name_eq, h.grown.name_eq hn]
  · rw [hl.value_eq, h.grown.value_eq hn]
  · rw [hl.size_eq]
    exact h.grown.size_le
  · intro m hm hmn
    have hsm := hsame m hmn
    rw [← h.grown.cell_eq m hm]
    exact cell_ext hsm.name hsm.value ((hold m hm).trans (h.grown.parent_eq hm).symm) hsm.children

end Sown

end Forest

section Planting

variable (hold : Hold) {w : World} (wf : w.forest.WellFormed)

include wf

theorem result_gather_plant (ts : List (Tree Selector)) :
    ∃ ns g, (gather ts plant).result hold w = (.ok ns, w.on g) ∧ w.forest.Sown ts ns g := by
  induction ts generalizing w with
  | nil => exact ⟨[], w.forest, rfl, .nil wf⟩
  | cons t ts ih =>
    have hp := Forest.planted t w.forest wf
    have hfirst : (plant t).result hold w =
        (.ok (Forest.plant t w.forest).1, w.on (Forest.plant t w.forest).2) := rfl
    obtain ⟨ns, g, hrest, hsown⟩ := ih (w := w.on (Forest.plant t w.forest).2) hp.wellFormed
    refine ⟨(Forest.plant t w.forest).1 :: ns, g, ?_, .cons wf t hsown⟩
    rw [gather, result_bind_ok hfirst, result_bind_ok hrest]
    rfl

theorem result_plantBodies {n : NodeId} (hn : w.forest.Has n) {snapshots : List Snapshot}
    {trees : List (Tree Selector)}
    (hread : (gather snapshots fun t => ofExcept t.readSelectors).result hold w = (.ok trees, w)) :
    ∃ bodies g, (plantBodies n snapshots).result hold w = (.ok bodies, w.on g) ∧
      w.forest.Hosting n (trees.map Tree.snapshot) bodies g := by
  obtain ⟨bodies, f, hplant, hsown⟩ := result_gather_plant hold wf trees
  have helse : ∀ c ∈ bodies, f.parent c ≠ some n := by
    intro c hc
    rw [(hsown.root c hc).2.2]
    simp
  obtain ⟨g, hinsert, hlent, hchildren⟩ := appendAll_lends hold (w := w.on f) hsown.wellFormed
    (hsown.grown.has hn) hsown.nodup (hsown.lendable wf hn) helse
  refine ⟨bodies, g, ?_, hsown.hosting wf hn hlent hchildren⟩
  rw [plantBodies, result_bind_ok hread, result_bind_ok hplant, result_bind_ok hinsert]
  rfl

end Planting

/-! ## Running them in turn -/

namespace Round

/-- What it all ends with if this round does not end normally. -/
def stops (r : Round) : Option (Except Error Flow) :=
  if r.outcome = .ok .normal then none else some r.outcome

theorem stops_of_normal {r : Round} (h : r.outcome = .ok .normal) : r.stops = none := if_pos h

theorem stops_of_ne {r : Round} (h : r.outcome ≠ .ok .normal) : r.stops = some r.outcome := if_neg h

end Round

/-- The turn of an item: the action is run on it in the world that there is. -/
structure Turn {α : Type} (act : α → Action Flow) (hold : Hold) (item : α) (rest : List α) (w : World)
    (r : Round) : Prop where
  start_eq : r.start = w
  result_eq : (act item).result hold r.start = (resumed r.outcome, r.left)

theorem taken_inTurn {α : Type} {act : α → Action Flow} {hold : Hold} {items : List α} {w w' : World}
    {ended : Except Error Flow} (h : (inTurn items act).result hold w = (resumed ended, w')) :
    ∃ rounds, Taken (Turn act hold) Round.stops items w rounds ended w' := by
  induction items generalizing w with
  | nil =>
    rcases ended with e | flow <;> cases h
    exact ⟨_, .done⟩
  | cons item rest ih =>
    rcases hfirst : (act item).result hold w with ⟨first, w₁⟩
    by_cases hnormal : first = .ok .normal
    · subst hnormal
      rw [inTurn, result_andThen_normal hfirst] at h
      obtain ⟨rounds, htaken⟩ := ih h
      exact ⟨⟨w, .ok .normal, w₁⟩ :: rounds, .next ⟨rfl, hfirst⟩ (Round.stops_of_normal rfl) htaken⟩
    · rw [inTurn, result_andThen_of_not_normal (by rw [hfirst]; exact hnormal), hfirst] at h
      obtain ⟨rfl, rfl⟩ := Prod.mk.inj h
      refine ⟨[⟨w, ended, w₁⟩], .last ⟨rfl, hfirst⟩ (Round.stops_of_ne ?_)⟩
      rintro rfl
      exact hnormal rfl

/-! ## Taking them away -/

/-- The bodies are gone from a node. It has its other children as they were left and, after them, what was
returned; and the value that was returned, if there was one. -/
structure Cleared (n : NodeId) (bodies returned : List NodeId) (v : Option LiveValue) (f g : Forest) :
    Prop where
  gone : ∀ body ∈ bodies, body ∉ g.children n
  children_eq : g.children n = (f.children n).filter (· ∉ bodies) ++ returned
  name_eq : g.name n = f.name n
  value_eq : g.value n = v.or (f.value n)

section Cleared

variable {n : NodeId} {bodies : List NodeId} {f g : Forest} (h : GivenBack n bodies f g)

include h

theorem Keyword.GivenBack.cleared : Cleared n bodies [] none f g := by
  have hchildren : g.children n = (f.children n).filter (· ∉ bodies) := by
    rw [h.children_eq, if_pos rfl]
  refine ⟨fun body hbody hmem => ?_, by simp [hchildren], h.name_eq n, h.value_eq n⟩
  rw [hchildren] at hmem
  simpa [hbody] using (List.mem_filter.mp hmem).2

theorem Keyword.GivenBack.cleared_lent {r : NodeId} {u : Forest} (hn : f.Has n) (hr : f.Has r) (hne : n ≠ r)
    (hother : ∀ c ∈ f.children r, c ∉ bodies) (hl : Lent n (g.children r) (g.passValue n r) u)
    (hchildren : u.children n = g.children n ++ g.children r) :
    Cleared n bodies (f.children r) (f.value r) f u := by
  have hreturned : g.children r = f.children r := by rw [h.children_eq, if_neg hne.symm]
  have hhas : ∀ {k}, f.Has k → g.Has k := fun hk => by
    rw [Forest.Has, h.size_eq]
    exact hk
  have hcleared := h.cleared
  refine ⟨fun body hbody hmem => ?_, ?_, ?_, ?_⟩
  · rw [hchildren, List.mem_append, hreturned] at hmem
    rcases hmem with hmem | hmem
    · exact hcleared.gone body hbody hmem
    · exact hother body hmem hbody
  · rw [hchildren, hcleared.children_eq, List.append_nil, hreturned]
  · rw [hl.name_eq, Forest.name_passValue, h.name_eq]
  · rw [hl.value_eq, Forest.value_passValue (hhas hr) (hhas hn) hne, if_pos rfl, h.value_eq, h.value_eq]

end Cleared

/-! ## The handler as a whole -/

section Handling

variable {engine : Engine} {call : Call} {hold : Hold} {w : World} {snapshots : List Snapshot}

theorem result_runDeclared_illegible
    (hunread : ∃ t ∈ (w.store.bodies? call.event).getD [], ¬ t.Legible) :
    ∃ e : Error, (runDeclared engine call).result hold w = (.error (.error e), w) ∧
      e.kind = .validation := by
  obtain ⟨snapshots, hstored⟩ : ∃ snapshots, w.store.bodies? call.event = some snapshots := by
    cases hstored : w.store.bodies? call.event with
    | none => simp [hstored] at hunread
    | some snapshots => exact ⟨snapshots, rfl⟩
  rw [hstored, Option.getD_some] at hunread
  rcases result_gather_readSelectors hold w snapshots with ⟨hall, -⟩ | ⟨-, e, herror, hkind⟩
  · obtain ⟨t, ht, hunread⟩ := hunread
    exact absurd (hall t ht) hunread
  · refine ⟨e, ?_, hkind⟩
    have hplant : (plantBodies call.node snapshots).result hold w = (.error (.error e), w) := by
      rw [plantBodies, result_bind_error herror]
    rw [result_runDeclared_of_bodies hstored, result_bind_error hplant]

theorem result_runDeclared_stalled {bodies : List NodeId} {w₁ w₂ : World}
    (hstored : w.store.bodies? call.event = some snapshots)
    (hplanted : (plantBodies call.node snapshots).result hold w = (.ok bodies, w₁))
    (hrun : (inTurn bodies fun body => engine.raiseFlow "lambda" body).result hold
      (w₁.basing call.base?) = (.error .stalled, w₂)) :
    (runDeclared engine call).result hold w = (.error .stalled, w₂) := by
  have hattempt : (attempt (inTurn bodies fun body => engine.raiseFlow "lambda" body)).result hold
      (w₁.basing call.base?) = (.error .stalled, w₂) := by
    rw [result_attempt, hrun]
    rfl
  have hbodies : (runBodies engine call.base? bodies).result hold w₁ = (.error .stalled, w₂) := by
    rw [runBodies, result_bind_ok (result_editSession _)]
    exact result_bind_error hattempt
  rw [result_runDeclared_of_bodies hstored, result_bind_ok hplanted, result_bind_error hbodies]

end Handling

/-- What a declared event comes to at its node: how the bodies ended and the world `u` they left, the
outcome and the world after it. -/
structure Concluded (n : NodeId) (bodies : List NodeId) (ended : Except Error Flow) (u : World)
    (outcome : Except Stop Flow) (w : World) : Prop where
  world_eq : w = u.unbased.on w.forest
  returning : ∀ r, ended = .ok (.returning r) →
    outcome = .ok .normal ∧ Cleared n bodies (u.forest.children r) (u.forest.value r) u.forest w.forest
  otherwise : (∀ r, ended ≠ .ok (.returning r)) → Cleared n bodies [] none u.forest w.forest
  normal : ended = .ok .normal → outcome = .ok .normal
  stray : ended = .ok .breaking ∨ ended = .ok .continuing →
    ∃ e : Error, outcome = .error (.error e) ∧ e.kind = .structural
  error : ∀ e, ended = .error e → outcome = .error (.error e)

theorem Concluded.eq_normal {n : NodeId} {bodies : List NodeId} {ended : Except Error Flow} {u w : World}
    {outcome : Except Stop Flow} (h : Concluded n bodies ended u outcome w) {flow : Flow}
    (hflow : outcome = .ok flow) : flow = .normal := by
  subst hflow
  rcases ended with e | ended
  · cases h.error e rfl
  · cases ended with
    | normal => exact Except.ok.inj (h.normal rfl)
    | breaking =>
      obtain ⟨e, he, -⟩ := h.stray (Or.inl rfl)
      cases he
    | continuing =>
      obtain ⟨e, he, -⟩ := h.stray (Or.inr rfl)
      cases he
    | returning r => exact Except.ok.inj (h.returning r rfl).1

theorem concluded {n : NodeId} {bodies : List NodeId} {ended : Except Error Flow} {u w : World}
    {hold : Hold} {outcome : Except Stop Flow} {g : Forest} (hgiven : GivenBack n bodies u.forest g)
    (hn : u.forest.Has n)
    (hreturned : ∀ r, ended = .ok (.returning r) → u.forest.Has r ∧ n ≠ r ∧ ¬ u.forest.Above r n ∧
      ∀ c ∈ u.forest.children r, c ∉ bodies)
    (h : (do settleOn n (← resume ended); return .normal : Action Flow).result hold (u.unbased.on g) =
      (outcome, w)) : Concluded n bodies ended u outcome w := by
  rcases ended with e | flow
  · rw [result_bind_error (result_resume _)] at h
    cases h
    exact ⟨rfl, by simp, fun _ => hgiven.cleared, by simp, by simp, by simp⟩
  rw [result_bind_ok (result_resume _)] at h
  cases flow with
  | normal =>
    cases h
    exact ⟨rfl, by simp, fun _ => hgiven.cleared, by simp, by simp, by simp⟩
  | breaking =>
    cases h
    exact ⟨rfl, by simp, fun _ => hgiven.cleared, by simp, fun _ => ⟨_, rfl, rfl⟩, by simp⟩
  | continuing =>
    cases h
    exact ⟨rfl, by simp, fun _ => hgiven.cleared, by simp, fun _ => ⟨_, rfl, rfl⟩, by simp⟩
  | returning r =>
    obtain ⟨hr, hne, hna, hother⟩ := hreturned r rfl
    have hn' : g.Has n := by
      rw [Forest.Has, hgiven.size_eq]
      exact hn
    have hna' : ¬ g.Above r n := fun ha => hna <| ha.mono fun c p hp => by
      rw [hgiven.parent_eq] at hp
      split at hp
      · cases hp
      · exact hp
    obtain ⟨v, hsettle, hl, hchildren⟩ := settleOn_lends hold (w := u.unbased.on g) hgiven.wellFormed
      hn' hne hna'
    rw [result_bind_ok hsettle] at h
    cases h
    refine ⟨rfl, ?_, fun hnot => absurd rfl (hnot r), by simp, by simp, by simp⟩
    rintro r' ⟨⟩
    exact ⟨rfl, hgiven.cleared_lent hn hr hne hother hl hchildren⟩

/-! ## The main statement -/

section Runs

variable {engine : Engine} (he : engine.Keeping) {call : Call} {hold : Hold} {w w' : World}
  {snapshots : List Snapshot} {outcome : Except Stop Flow}

include he

theorem runDeclared_runs_stored (hw : w.Sound) (hlisteners : w.session.bindings = [])
    (hn : w.forest.Has call.node) (hheld : call.node ∈ hold.held)
    (hstored : w.store.bodies? call.event = some snapshots) (hread : ∀ t ∈ snapshots, t.Legible)
    (hrun : (runDeclared engine call).result hold w = (outcome, w'))
    (hend : outcome ≠ .error .stalled) :
    ∃ bodies g rounds ended u, w.forest.Hosting call.node snapshots bodies g ∧
      Taken (Turn (fun body => engine.raiseFlow "lambda" body) hold) Round.stops bodies
        ((w.on g).basing call.base?) rounds ended u ∧
      Concluded call.node bodies ended u outcome w' := by
  rcases result_gather_readSelectors hold w snapshots with ⟨-, trees, htrees, hmap⟩ | ⟨⟨t, ht, hunread⟩, -⟩
  swap
  · exact absurd (hread t ht) hunread
  obtain ⟨bodies, g, hplanted, hhosting⟩ := result_plantBodies hold hw.wellFormed hn htrees
  rw [hmap] at hhosting
  rcases hturns : (inTurn bodies fun body => engine.raiseFlow "lambda" body).result hold
    ((w.on g).basing call.base?) with ⟨first, u⟩
  have hne : first ≠ .error .stalled := by
    rintro rfl
    rw [result_runDeclared_stalled hstored hplanted hturns] at hrun
    exact hend (Prod.mk.inj hrun).1.symm
  obtain ⟨ended, rfl⟩ := exists_resumed hne
  obtain ⟨rounds, htaken⟩ := taken_inTurn hturns
  -- Whatever the bodies do, they work on the forest that has them.
  let P := Plot.whole hhosting.wellFormed
  have hhas : g.Has call.node := Nat.lt_of_lt_of_le hn hhosting.size_le
  have hbody : ∀ body ∈ bodies, g.Has body := fun body hb => hhosting.wellFormed.has_child
    (p := call.node) (hhosting.children_eq ▸ List.mem_append_right _ hb)
  have hready : P.Ready ((w.on g).basing call.base?) := by
    refine ⟨P.tended_start, hlisteners, fun base hbase => ?_⟩
    rw [Handler.Keeping.node_of_base? hbase]
    exact ⟨trivial, hhas⟩
  have hkeeps : P.Keeps [] g.size (inTurn bodies fun body => engine.raiseFlow "lambda" body) P.NewFlow :=
    Plot.Keeps.inTurn fun b hb body hmem =>
      he.raiseFlow P [] b "lambda" body ⟨trivial, Nat.lt_of_lt_of_le (hbody body hmem) hb⟩
  have hafter := hkeeps.after_ended hready hturns
  obtain ⟨g', hgiven, hresult⟩ := result_runDeclared_ended hstored hplanted hturns hheld
    hafter.tended.wellFormed
  refine ⟨bodies, g, rounds, ended, u, hhosting, htaken, concluded hgiven
    (Nat.lt_of_lt_of_le hhas hafter.size_le) ?_ (hresult.symm.trans hrun)⟩
  rintro r rfl
  -- What is returned is new since the bodies were planted, so it is none of them.
  have hr : P.New u.forest.size r := (hkeeps.after_ok hready hturns).2 r rfl
  refine ⟨hr.2, fun e => hr.1 (e ▸ hhas), fun ha => hr.1 (hafter.tended.start_has_above hhas ha), ?_⟩
  exact fun c hc hb => (hafter.tended.new_child hr.1 hc).1 (hbody c hb)

theorem runDeclared_runs (hw : w.Sound) (hlisteners : w.session.bindings = [])
    (hn : w.forest.Has call.node) (hheld : call.node ∈ hold.held)
    (hread : ∀ t ∈ (w.store.bodies? call.event).getD [], t.Legible)
    (hrun : (runDeclared engine call).result hold w = (outcome, w'))
    (hend : outcome ≠ .error .stalled) :
    ∃ bodies g rounds ended u,
      w.forest.Hosting call.node ((w.store.bodies? call.event).getD []) bodies g ∧
      Taken (Turn (fun body => engine.raiseFlow "lambda" body) hold) Round.stops bodies
        ((w.on g).basing call.base?) rounds ended u ∧
      Concluded call.node bodies ended u outcome w' := by
  cases hstored : w.store.bodies? call.event with
  | some snapshots =>
    rw [hstored] at hread
    exact runDeclared_runs_stored he hw hlisteners hn hheld hstored hread hrun hend
  | none =>
    rw [runDeclared, result_bind_ok (result_askStore _), hstored] at hrun
    cases hrun
    have wf := hw.wellFormed
    refine ⟨[], w.forest, [], .ok .normal, w.basing call.base?,
      (Forest.Sown.nil wf).hosting wf hn (.refl wf) (List.append_nil _).symm, .done, ?_⟩
    exact ⟨rfl, by simp, fun _ => (GivenBack.nil wf).cleared, by simp, by simp, by simp⟩

end Runs

/-- In a core context, whatever the bodies do, a declared event runs the bodies that were stored when its
handler was called, if all can be read, and none of them otherwise. They are made live below the node, after
its children, before the first one runs, and run in turn up to the first that does not end normally. Then
they are gone, the other children are as they were left, and nothing but an error gets out. -/
theorem declared_event_runs_bodies {m : Machine} (hm : m.IsCore) {patience : Nat} {hold : Hold}
    {call : Call} {w w' : World} {snapshots : List Snapshot} {outcome : Except Stop Flow} (hw : w.Sound)
    (hlisteners : w.session.bindings = []) (hn : w.forest.Has call.node)
    (hstored : (w.store.bodies? call.event).getD [] = snapshots)
    (hrun : (runDeclared (m.engine patience (m.perform patience)) call).result (hold.adding [call.node]) w =
      (outcome, w'))
    (hend : outcome ≠ .error .stalled) :
    ((∃ t ∈ snapshots, ¬ t.Legible) →
      w' = w ∧ ∃ e : Error, outcome = .error (.error e) ∧ e.kind = .validation) ∧
    ((∀ t ∈ snapshots, t.Legible) →
      ∃ bodies g rounds ended u, w.forest.Hosting call.node snapshots bodies g ∧
        Taken (Turn (fun body => (m.engine patience (m.perform patience)).raiseFlow "lambda" body)
          (hold.adding [call.node])) Round.stops bodies ((w.on g).basing call.base?) rounds ended u ∧
        (∀ (k : Nat) (r : Round), rounds[k]? = some r → ∃ body, bodies[k]? = some body ∧
          ((m.engine patience (m.perform patience)).raiseFlow "lambda" body).result
            (hold.adding [call.node]) r.start = (resumed r.outcome, r.left)) ∧
        ((∀ r ∈ rounds, r.outcome = .ok .normal) →
          rounds.length = bodies.length ∧ ended = .ok .normal) ∧
        (∀ (k : Nat) (r : Round), rounds[k]? = some r → r.outcome ≠ .ok .normal →
          rounds.length = k + 1 ∧ ended = r.outcome) ∧
        Concluded call.node bodies ended u outcome w' ∧ ∀ flow, outcome = .ok flow → flow = .normal) := by
  have hheld : call.node ∈ (hold.adding [call.node]).held := List.mem_cons_self
  subst hstored
  refine ⟨fun hunread => ?_, fun hread => ?_⟩
  · obtain ⟨e, hresult, hkind⟩ := result_runDeclared_illegible hunread
    obtain ⟨rfl, rfl⟩ := Prod.mk.inj (hrun.symm.trans hresult)
    exact ⟨rfl, e, rfl, hkind⟩
  · obtain ⟨bodies, g, rounds, ended, u, hhosting, htaken, hconcluded⟩ :=
      runDeclared_runs (hm.keeping patience) hw hlisteners hn hheld hread hrun hend
    refine ⟨bodies, g, rounds, ended, u, hhosting, htaken, fun k r hk => ?_, fun hnormal => ?_,
      fun k r hk hstops => ?_, hconcluded, fun flow hflow => hconcluded.eq_normal hflow⟩
    · exact htaken.forall_rounds (fun (_ : True) hturn => ⟨hturn.result_eq, trivial⟩) trivial hk
    · exact htaken.length_eq fun r hr => Round.stops_of_normal (hnormal r hr)
    · exact htaken.ends_at hk (Round.stops_of_ne hstops)

/-- A `greet` whose first body declares another, whose second returns, and whose third would fail. -/
def handover : World where
  forest := (Forest.plant ⟨"greet", some (.int 1), [⟨"name", none, []⟩]⟩ .empty).2
  store := (default : EventStore).declare "greet"
    [⟨"lambda", none, [⟨"event", some (.string "greet"),
        [⟨"lambda", none, [⟨"throw", some (.string "declared too late"), []⟩]⟩]⟩]⟩,
      ⟨"lambda", none, [⟨"return", some (.int 7), [⟨"part", none, []⟩]⟩]⟩,
      ⟨"lambda", none, [⟨"throw", some (.string "not reached"), []⟩]⟩]
  session := default

theorem declared_event_runs_bodies_of_handover :
    let m : Machine := ⟨.default, coreTable⟩
    let result := (runDeclared (m.engine 8 (m.perform 8)) (.plain "greet" ⟨0⟩)).result ⟨[⟨0⟩], []⟩ handover
    let snapshots := (handover.store.bodies? "greet").getD []
    snapshots.length = 3 ∧ result.1 = .ok .normal ∧ result.2.forest.value ⟨0⟩ = some (.int 7) ∧
      (result.2.forest.children ⟨0⟩).map result.2.forest.name = ["name", "part"] ∧
      ∃ bodies g rounds ended u, handover.forest.Hosting ⟨0⟩ snapshots bodies g ∧
        Taken (Turn (fun body => (m.engine 8 (m.perform 8)).raiseFlow "lambda" body) ⟨[⟨0⟩], []⟩)
          Round.stops bodies ((handover.on g).basing none) rounds ended u ∧
        Concluded ⟨0⟩ bodies ended u result.1 result.2 := by
  intro m result snapshots
  have hlength : snapshots.length = 3 := by decide +kernel
  have hok : result.1 = .ok .normal := by decide +kernel
  have hvalue : result.2.forest.value ⟨0⟩ = some (.int 7) := by decide +kernel
  have hnames : (result.2.forest.children ⟨0⟩).map result.2.forest.name = ["name", "part"] := by
    decide +kernel
  have hselectors : ∀ t ∈ snapshots, t.selectors = [] := by decide +kernel
  have hread : ∀ t ∈ snapshots, t.Legible := fun t ht source hsource => by
    rw [hselectors t ht] at hsource
    cases hsource
  have wf : handover.forest.WellFormed := (Forest.planted _ .empty Forest.wellFormed_empty).wellFormed
  have hrun : (runDeclared (m.engine 8 (m.perform 8)) (.plain "greet" ⟨0⟩)).result
      (Hold.adding ⟨[], []⟩ [⟨0⟩]) handover = (result.1, result.2) := (Prod.eta result).symm
  obtain ⟨bodies, g, rounds, ended, u, hhosting, htaken, -, -, -, hconcluded, -⟩ :=
    (declared_event_runs_bodies (m := m) (Machine.isCore_coreTable _) (w := handover)
      ⟨wf, fun call hcall => by cases hcall⟩ rfl (by decide) rfl hrun (by rw [hok]; simp)).2 hread
  exact ⟨hlength, hok, hvalue, hnames, bodies, g, rounds, ended, u, hhosting, htaken, hconcluded⟩

/-- A world with a node for an event whose bodies are given. -/
def summoned (bodies : List Snapshot) : World where
  forest := (Forest.plant ⟨"greet", none, []⟩ .empty).2
  store := (default : EventStore).declare "greet" bodies
  session := default

/-- A body that returns is not run if the one after it cannot be read; and an event may run a body that is
not yet stored when it is raised, if its keyword declares it. -/
theorem unread_body_holds_up_first :
    let m : Machine := ⟨.default, coreTable⟩
    let first : Snapshot := ⟨"lambda", none, [⟨"return", some (.int 7), []⟩]⟩
    let run := fun bodies : List Snapshot =>
      (runDeclared (m.engine 8 (m.perform 8)) (.plain "greet" ⟨0⟩)).result ⟨[⟨0⟩], []⟩ (summoned bodies)
    ((run [first]).1 = .ok .normal ∧ (run [first]).2.forest.value ⟨0⟩ = some (.int 7)) ∧
    (∃ e : Error, run [first, ⟨"lambda", none, [⟨"set", some (.selector "x"), []⟩]⟩] =
      (.error (.error e), summoned [first, ⟨"lambda", none, [⟨"set", some (.selector "x"), []⟩]⟩]) ∧
        e.kind = .validation) ∧
    let w : World := ⟨(Forest.plant ⟨"event", some (.string "event"),
      [⟨"lambda", none, [⟨"return", some (.int 7), []⟩]⟩]⟩ .empty).2, default, default⟩
    w.store.bodies? "event" = none ∧
      (((m.engine 8 (m.perform 8)).raise "event" ⟨0⟩).result ⟨[], []⟩ w).2.forest.value ⟨0⟩ =
        some (.int 7) := by
  intro m first run
  refine ⟨⟨by decide +kernel, by decide +kernel⟩, ?_, by decide +kernel⟩
  have hx : Selector.parse "x" = .error (.malformedSelector "x" "x" .unrooted) :=
    Selector.parse_of_unrooted (by simp)
  have hstored : ∀ bodies, (summoned bodies).store.bodies? "greet" = some bodies := by
    intro bodies
    have hmay : (summoned bodies).store.mayContain "greet" = true := by
      change (0#64 ||| BitVec.twoPow 64 0) &&& BitVec.twoPow 64 0 == BitVec.twoPow 64 0
      decide
    rw [EventStore.bodies?, if_pos hmay]
    exact List.lookup_cons_self
  apply result_runDeclared_illegible
  rw [Call.plain, hstored]
  refine ⟨_, List.mem_cons_of_mem _ List.mem_cons_self, fun hread => ?_⟩
  obtain ⟨selector, hselector⟩ := hread "x" (by decide +kernel)
  cases hx.symm.trans hselector

end EventTree
