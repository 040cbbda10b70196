import EventTree.Proofs.Lending
import EventTree.Proofs.Plot.Statements

/-!
# Traps keep to their plot

A `catch` moves nodes that were there before: the details of an error come below it and go again. While
it runs, the plot is one that starts with the details in place; when they are given back, the forest is
tended from the first plot too.
-/

namespace EventTree.Plot

open Keyword

variable {P : Plot} {held : List NodeId} {bound : Nat} {engine : Engine}

/-! ## Lending -/

section Lending

variable {f g : Forest} {n : NodeId} {ds : List NodeId} (ht : P.Tended f) (hl : Lent n ds f g)
  (hn : P.owned n) (hd : ∀ d ∈ ds, P.owned d)

include ht hl hn hd

theorem fenced_lent : Fenced P.owned g where
  wellFormed := hl.wellFormed
  unborn m hm := ht.fenced.unborn m (by rwa [Forest.Has, ← hl.size_eq])
  parent m p hm hp := by
    rw [hl.parent_eq] at hp
    split at hp
    · exact Option.some.inj hp ▸ hn
    · exact ht.fenced.parent m p hm hp
  child m c hm hc := by
    have hp := (hl.wellFormed.linked m c).mp hc
    rw [hl.parent_eq] at hp
    split at hp
    · exact hd c ‹_›
    · exact ht.fenced.child m c hm ((ht.wellFormed.linked m c).mpr hp)
  value m k hm hv := by
    rw [hl.value_eq] at hv
    exact ht.fenced.value m k hm hv

theorem cell_lent {m : NodeId} (hm : ¬ P.owned m) : g.cell m = f.cell m := by
  refine hl.cell_eq (fun e => hm (e ▸ hn)) (fun h => hm (hd m h)) fun c hc h => hm ?_
  -- An owned node has no parent outside.
  exact ht.fenced.parent c m (hd c h) ((ht.wellFormed.linked m c).mp hc)

/-- The plot as it is while nodes are lent. -/
def lent : Plot := ⟨P.owned, g, fenced_lent ht hl hn hd⟩

theorem tended_givenBack {g' k : Forest} (hg : (lent ht hl hn hd).Tended g')
    (hb : GivenBack n ds g' k) : P.Tended k := by
  have hparent : ∀ m p, k.parent m = some p → g'.parent m = some p ∧ ¬ (m ∈ ds ∧ p = n) := by
    intro m p hp
    rw [hb.parent_eq] at hp
    split at hp
    · cases hp
    · rename_i h
      exact ⟨hp, fun hmn => h ⟨hmn.1, hmn.2 ▸ hp⟩⟩
  refine ⟨⟨hb.wellFormed, ?_, ?_, ?_, ?_⟩, ?_, ?_, ?_⟩
  · intro m hm
    exact hg.fenced.unborn m (by rwa [Forest.Has, ← hb.size_eq])
  · exact fun m p hm hp => hg.fenced.parent m p hm (hparent m p hp).1
  · intro m c hm hc
    have hp := (hparent c m ((hb.wellFormed.linked m c).mp hc)).1
    exact hg.fenced.child m c hm ((hg.wellFormed.linked m c).mpr hp)
  · intro m v hm hv
    rw [hb.value_eq] at hv
    exact hg.fenced.value m v hm hv
  · rw [hb.size_eq]
    exact Nat.le_trans (hl.size_eq ▸ ht.size_le) hg.size_le
  · intro m hm
    -- No node outside was lent, and none got a lent node below it.
    have hcell : k.cell m = g'.cell m := by
      apply Forest.cell_ext
      · exact hb.name_eq m
      · exact hb.value_eq m
      · change k.parent m = g'.parent m
        rw [hb.parent_eq, if_neg fun h => hm (hd m h.1)]
      · change k.children m = g'.children m
        rw [hb.children_eq, if_neg]
        rintro rfl
        exact hm hn
    have hlent : g'.cell m = g.cell m := hg.outside m hm
    rw [hcell, hlent, cell_lent ht hl hn hd hm, ht.outside m hm]
  · intro m p hs hp
    -- The only new links were those of the lent nodes, and these are gone.
    obtain ⟨hp, hne⟩ := hparent m p hp
    have hsg : g.Has m := by
      rw [Forest.Has, hl.size_eq]
      exact Nat.lt_of_lt_of_le hs ht.size_le
    have hpg : g.parent m = some p := hg.parent m p hsg hp
    rw [hl.parent_eq] at hpg
    split at hpg
    · exact absurd ⟨‹_›, (Option.some.inj hpg).symm⟩ hne
    · exact ht.parent m p hs hpg

end Lending

theorem fine_lending {hold : Hold} {w : World} {n : NodeId} {ds : List NodeId} {body : Action Flow}
    {next : Except Error Flow → Action Flow} (hw : P.Ready w) (hn : P.Mine w.forest.size n)
    (hheld : n ∈ hold.held) (hnodup : ds.Nodup) (hlend : ∀ d ∈ ds, Lendable w.forest n d)
    (hd : ∀ d ∈ ds, P.owned d)
    (hbody : ∀ (Q : Plot) (b : Nat), Q.Mine b n → Q.Keeps [n] b body Q.NewFlow)
    (hnext : ∀ b outcome, w.forest.size ≤ b → (∀ flow, outcome = .ok flow → P.NewFlow b flow) →
      P.Keeps [n] b (next outcome) P.NewFlow) :
    P.Fine w P.NewFlow ((do
      insertAll n 0 ds
      let outcome ← Action.attempt body
      untieFrom n ds
      next outcome : Action Flow).result hold w) := by
  have ht := hw.tended
  obtain ⟨g, hrun, hl, -⟩ := insertAll_lends hold ht.wellFormed hn.2 [] (w.forest.children n) rfl
    hnodup hlend (fun _ _ h => by cases h)
  have hrun : (insertAll n 0 ds).result hold w = (.ok (), { w with forest := g }) := hrun
  -- The body works on the plot as it is with the nodes in place.
  let Q : Plot := lent ht hl hn.1 hd
  let w₁ : World := { w with forest := g }
  have hw₁ : Q.Ready w₁ := by
    refine ⟨tended_start Q, hw.bindings, fun call hc => ?_⟩
    have hm := hw.base call hc
    exact ⟨hm.1, hl.size_eq ▸ hm.2⟩
  -- However the body ended, the nodes go back before its outcome counts.
  have hend : ∀ w₂ outcome, Q.After w₁ w₂ →
      (∀ flow, outcome = .ok flow → Q.NewFlow w₂.forest.size flow) →
      P.Fine w P.NewFlow ((do untieFrom n ds; next outcome : Action Flow).result hold w₂) := by
    intro w₂ outcome hafter hflow
    obtain ⟨k, hback, hk⟩ := untieFrom_givesBack hheld ds hafter.tended.wellFormed
    have hsize : w.forest.size ≤ k.size := by
      rw [hk.size_eq]
      exact Nat.le_trans (Nat.le_of_eq hl.size_eq.symm) hafter.size_le
    have hafter' : P.After w { w₂ with forest := k } :=
      ⟨tended_givenBack ht hl hn.1 hd hafter.tended hk, hsize, hafter.bindings, hafter.depth,
        hafter.bases⟩
    rw [Action.result_bind_ok hback]
    refine Fine.after hafter' ((hnext k.size outcome hsize fun flow hf r hr => ?_).fine hold _ ?_
      (hafter'.ready hw) (Nat.le_refl _))
    · -- What is new since the nodes were lent is new.
      have hnew : ¬ g.Has r ∧ r.index < w₂.forest.size := hflow flow hf r hr
      refine ⟨fun hs => hnew.1 ?_, hk.size_eq ▸ hnew.2⟩
      rw [Forest.Has, hl.size_eq]
      exact Nat.lt_of_lt_of_le hs ht.size_le
    · simpa using hheld
  have hrest := (hbody Q g.size ⟨hn.1, hl.size_eq ▸ hn.2⟩).fine hold w₁ (by simpa using hheld) hw₁
    (Nat.le_refl _)
  rw [Action.result_bind_ok hrun, Action.result_bind, Action.result_attempt]
  revert hrest
  match body.result hold w₁ with
  | (.ok flow, w₂) =>
    intro hrest
    refine hend w₂ (.ok flow) hrest.1 fun flow' h => ?_
    exact Except.ok.inj h ▸ hrest.2
  | (.error (.error e), w₂) =>
    intro hrest
    exact hend w₂ (.error e) hrest fun _ h => by cases h
  | (.error .stalled, _) => exact fun _ => trivial

/-! ## Settling -/

theorem Keeps.settle (he : engine.Keeping) (n : NodeId) {last : Option NodeId}
    (hl : ∀ c, last = some c → P.Mine bound c) {pending : Except Error Flow}
    (hp : ∀ flow, pending = .ok flow → P.NewFlow bound flow) :
    P.Keeps held bound (settle engine n last pending) P.NewFlow := by
  have hresume : ∀ b, bound ≤ b → P.Keeps held b (Action.resume pending) P.NewFlow := fun b hb =>
    Keeps.resume fun b' flow hb' hf => (hp flow hf).mono (Nat.le_trans hb hb')
  cases last with
  | none => exact hresume bound (Nat.le_refl _)
  | some last =>
    refine (Keeps.goingBeside _ _ (Keeps.execute he 0 (hl last rfl))).bind fun b flow hb hf => ?_
    split
    · exact hresume b hb
    · exact Keeps.pure fun b' hb' => hf.mono hb'

theorem Closed.nextNamed? {g : Forest} (hg : P.Closed bound g) {n c : NodeId} (hn : P.Mine bound n)
    {a : String} (h : g.nextNamed? a n = some c) : P.Mine bound c :=
  hg.nextSibling? hn (Option.filter_eq_some_iff.mp h).1

theorem Closed.rescue_last {g : Forest} (hg : P.Closed bound g) {n c : NodeId} (hn : P.Mine bound n)
    {r : Rescue} (h : rescue g n = .ok r) (hc : r.last = some c) : P.Mine bound c := by
  unfold rescue at h
  dsimp only at h
  split at h
  · cases h
  · split at h
    · cases h
    · split at h
      · cases h
      · rw [← Except.ok.inj h] at hc
        refine hg.nextNamed? ?_ hc
        cases hcatch : g.nextNamed? "catch" n with
        | none => exact hn
        | some m => exact hg.nextNamed? hn hcatch

theorem Keeps.leaveTrapped {scope : NodeId} (hs : P.Mine bound scope) (e : Error) :
    P.Keeps held bound (leaveTrapped scope e) fun _ _ => True := by
  have hplant : ∀ b, bound ≤ b → P.Keeps held b (do
      let n ← Action.plant (trapped e)
      Action.insert scope (some 0) n) fun _ _ => True := fun b hb =>
    (Keeps.plant _).bind fun b' n hb' hn => Keeps.insert (hs.mono (Nat.le_trans hb hb')) hn _
  refine (Keeps.askFind hs _).bind fun b stale hb hstale => ?_
  cases stale with
  | none => exact hplant b hb
  | some stale =>
    exact (Keeps.untie (hstale stale rfl)).bind fun b' _ hb' _ => hplant b' (Nat.le_trans hb hb')

end EventTree.Plot

namespace EventTree.Handler.Keeping

open Plot.Keeps

theorem tryBlock : Handler.Keeping Keyword.tryBlock := by
  intro engine he P bound call hn
  have hread : P.Keeps [call.node] bound (Action.observe (Keyword.rescue · call.node)) fun b r =>
      ∀ found, r = .ok found → ∀ c, found.last = some c → P.Mine b c :=
    observe fun _ _ hb hg found hr c hc => hg.rescue_last (hn.mono hb) hr hc
  refine hread.bind fun b r hb hr => ?_
  refine (ofExcept r).bind fun b₁ found hb₁ hfound => ?_
  have hlast : ∀ b₂, b₁ ≤ b₂ → ∀ c, found.last = some c → P.Mine b₂ c := fun b₂ hb₂ c hc =>
    (hr found hfound c hc).mono (Nat.le_trans hb₁ hb₂)
  have hn₁ := hn.mono (Nat.le_trans hb hb₁)
  refine (attempt (execute he 0 hn₁)).bind fun b₂ outcome hb₂ hout => ?_
  cases outcome with
  | ok flow =>
    have hflow : ∀ flow', (.ok flow : Except Error Flow) = .ok flow' → P.NewFlow b₂ flow' :=
      fun flow' h => hout flow' h
    cases flow with
    | normal => exact normal
    | breaking | continuing | returning r => exact settle he _ (hlast b₂ hb₂) hflow
  | error e =>
    refine (observeParent (hn₁.mono hb₂)).bind fun b₃ scope hb₃ hscope => ?_
    have hsettle : P.Keeps [call.node] b₃ (Action.holding scope.toList
        (Keyword.settle engine call.node found.last (.error e))) P.NewFlow :=
      holding (settle he _ (hlast b₃ (Nat.le_trans hb₂ hb₃)) fun _ h => by cases h)
    split
    · rename_i scope _
      exact thenNormal (leaveTrapped (hscope scope rfl) e)
    · exact hsettle

/-- The details are children of a sibling, so they are neither the node nor above it. -/
theorem lendable_detail {f : Forest} (wf : f.WellFormed) {scope n caught d : NodeId}
    (hn : f.parent n = some scope) (hcaught : f.parent caught = some scope)
    (hd : d ∈ (f.detach caught).children caught) : Keyword.Lendable (f.detach caught) n d := by
  have wf' := wf.detach caught
  have hp : (f.detach caught).parent d = some caught := (wf'.linked caught d).mp hd
  -- Siblings are not above each other.
  have hcycle : ¬ (f.detach caught).Above caught n := by
    intro h
    have h : f.Above caught n := h.mono fun c p => Forest.parent_of_parent_detach
    have hs := Forest.above_of_parent hcaught
    obtain ⟨q, hq, hcq⟩ := Forest.above_iff.mp h
    obtain rfl : scope = q := Option.some.inj (hn.symm.trans hq)
    rcases hcq with rfl | hcq
    · exact wf.acyclic caught hs
    · exact wf.acyclic caught (hcq.trans hs)
  refine ⟨wf'.has_child hd, ?_, fun h => ?_⟩
  · rintro rfl
    exact hcycle (Forest.above_of_parent hp)
  · exact hcycle ((Forest.above_of_parent hp).trans h)

theorem catchBlock : Handler.Keeping Keyword.catchBlock := by
  intro engine he P bound call hn
  refine ⟨fun hold w hheld hw hb => ?_⟩
  have hn := hn.mono hb
  have wf := hw.tended.wellFormed
  unfold Keyword.catchBlock
  rw [Action.result_bind_ok (Action.result_observe _)]
  split
  · exact hw.after
  · rename_i scope hscope
    have hparent : w.forest.parent call.node = some scope := by
      split at hscope
      · exact (Forest.seen_pruned wf hold).parent _ _ hscope
      · cases hscope
    rw [Action.result_holding, Action.result_bind_ok (Action.result_ask _)]
    split
    · exact ⟨hw.after, Plot.newFlow_normal⟩
    · rename_i caught hcaught
      have hcp : w.forest.parent caught = some scope :=
        (wf.linked _ _).mp (List.mem_of_find?_eq_some hcaught)
      have hs : P.Mine w.forest.size scope := hw.tended.closed.parent _ _ hn hparent
      have hc : P.Mine w.forest.size caught := hw.tended.closed.find? hs hcaught
      -- The scope is held, so the link to what it caught is not lost.
      have huntie : ((w.forest).seen (hold.adding [scope])).parent caught = some scope :=
        wf.parent_seen List.mem_cons_self hcp
      have hafter : P.After w { w with forest := w.forest.detach caught } :=
        ⟨hw.tended.detach hc.1, by simp, rfl, rfl, rfl⟩
      rw [Action.result_bind_ok (Action.result_untie huntie),
        Action.result_bind_ok (Action.result_ask _)]
      refine Plot.Fine.after hafter (Plot.fine_lending (hafter.ready hw) ?_ ?_ ?_ ?_ ?_ ?_ ?_)
      · exact hn.mono hafter.size_le
      · exact List.mem_cons_of_mem _ (hheld List.mem_cons_self)
      · exact (wf.detach caught).nodup caught
      · exact fun d hd => lendable_detail wf hparent hcp hd
      · exact fun d hd => hafter.tended.fenced.child _ _ hc.1 hd
      · exact fun Q b hm => execute he _ hm
      · intro b outcome hb' hout
        have hn' := hn.mono (Nat.le_trans hafter.size_le hb')
        have hlast : P.Keeps [call.node] b (Action.observe (·.nextNamed? "finally" call.node))
            fun b r => ∀ c, r = some c → P.Mine b c :=
          observe fun _ _ hb'' hg c hc => hg.nextNamed? (hn'.mono hb'') hc
        have hsettle : P.Keeps [call.node] b (do
            Keyword.settle engine call.node (← Action.observe (·.nextNamed? "finally" call.node))
              outcome) P.NewFlow :=
          hlast.bind fun b' last hb'' hl => settle he _ hl fun flow hf => (hout flow hf).mono hb''
        cases outcome with
        | error e => exact hsettle
        | ok flow =>
          cases flow with
          | normal => exact normal
          | breaking | continuing | returning r => exact hsettle

theorem finallyBlock : Handler.Keeping Keyword.finallyBlock := by
  intro engine he P bound call hn
  refine observeAny.bind fun b placed hb _ => ?_
  split
  · exact execute he 0 (hn.mono hb)
  · exact fail _

theorem throwStatement : Handler.Keeping Keyword.throwStatement := by
  intro engine he P bound call hn
  refine observeAny.bind fun b message hb _ => ?_
  cases message with
  | some message => exact fail _
  | none => exact fail _

end EventTree.Handler.Keeping
