import EventTree.Proofs.Trap.Course

/-!
# The keywords of a trap

What `try`, `catch` and `finally` do in a trap that stands, given what their bodies come to.
-/

namespace EventTree

open EventTree.Action Keyword

/-! ## Siblings that are seen -/

namespace Forest

section Split

variable {f : Forest} (wf : f.WellFormed) {hold : Hold} {p x : NodeId} {l r : List NodeId}
  (hp : p ∈ hold.held) (h : f.children p = l ++ x :: r)

include wf

theorem WellFormed.hasName_seen (a : String) : (f.seen hold).hasName a = f.hasName a := by
  funext n
  rw [hasName, (seen_pruned wf hold).name_eq, hasName]

include hp h

theorem WellFormed.nextNamed?_seen (a : String) :
    (f.seen hold).nextNamed? a x = r.head?.filter (f.hasName a) := by
  rw [nextNamed?, wf.nextSibling?_seen hp (wf.parent_of_split h), wf.nextSibling?_of_split h,
    wf.hasName_seen]

theorem WellFormed.previousSibling?_seen_of_split : (f.seen hold).previousSibling? x = l.getLast? := by
  rw [wf.previousSibling?_seen hp (wf.parent_of_split h), wf.previousSibling?_of_split h]

theorem WellFormed.follows_seen (a : String) :
    (f.seen hold).follows a x = l.getLast?.any (f.hasName a) := by
  rw [follows, wf.previousSibling?_seen_of_split hp h, wf.hasName_seen]

end Split

end Forest

/-! ## A trap that stands -/

namespace Trap.Stands

variable {T : Trap} {f : Forest} (hs : T.Stands f)

include hs

theorem split_body :
    f.children T.scope = T.before ++ T.body :: (T.onError.toList ++ (T.last.toList ++ T.after)) := by
  rw [hs.children, nodes]
  simp

theorem split_onError {c : NodeId} (hc : T.onError = some c) :
    f.children T.scope = (T.before ++ [T.body]) ++ c :: (T.last.toList ++ T.after) := by
  rw [hs.split_body, hc]
  simp

theorem split_last {l : NodeId} (hl : T.last = some l) :
    f.children T.scope = (T.before ++ T.body :: T.onError.toList) ++ l :: T.after := by
  rw [hs.split_body, hl]
  simp

theorem congr {g : Forest} (hchildren : g.children T.scope = f.children T.scope)
    (hname : ∀ n ∈ f.children T.scope, g.name n = f.name n) : T.Stands g := by
  have hmem : ∀ n ∈ T.nodes ++ T.after, n ∈ f.children T.scope := fun n hn => by
    rw [hs.children]
    exact List.mem_append_right _ hn
  refine ⟨hchildren.trans hs.children, ?_, ?_, ?_, ?_, ?_⟩
  · rw [hname _ (hmem _ (by simp [nodes])), hs.body]
  · intro c hc
    rw [hname _ (hmem _ (by simp [nodes, hc])), hs.onError c hc]
  · intro l hl
    rw [hname _ (hmem _ (by simp [nodes, hl])), hs.last l hl]
  · intro hl n hn
    rw [hname _ (hmem _ (List.mem_append_right _ (List.mem_of_head? hn)))]
    exact hs.following hl n hn
  · intro n hn
    rw [hchildren] at hn
    rw [hname n hn]
    exact hs.untrapped n hn

theorem last_next : (T.last.toList ++ T.after).head?.filter (f.hasName "finally") = T.last := by
  cases hl : T.last with
  | none =>
    rw [Option.filter_eq_none_iff]
    intro n hn
    simpa [Forest.hasName] using hs.following hl n hn
  | some l => simp [Forest.hasName, hs.last l hl]

theorem no_catch_next (hclosed : T.Closed f) :
    (T.last.toList ++ T.after).head?.filter (f.hasName "catch") = none := by
  cases hl : T.last with
  | none =>
    rw [Option.filter_eq_none_iff]
    intro n hn
    simpa [Forest.hasName] using hclosed n hn
  | some l => simp [Forest.hasName, hs.last l hl]

theorem rescue_seen (wf : f.WellFormed) (hclosed : T.Closed f) {hold : Hold}
    (hscope : T.scope ∈ hold.held) : rescue (f.seen hold) T.body = .ok ⟨T.onError, T.last⟩ := by
  have hbody := fun a => wf.nextNamed?_seen hscope hs.split_body a
  -- Nothing is caught once the `finally` has come.
  have hlate : (T.last.bind ((f.seen hold).nextNamed? "catch")) = none := by
    cases hl : T.last with
    | none => rfl
    | some l =>
      rw [Option.bind_some, wf.nextNamed?_seen hscope (hs.split_last hl), Option.filter_eq_none_iff]
      intro n hn
      simpa [Forest.hasName] using hclosed n hn
  cases hc : T.onError with
  | none =>
    simp only [hc, Option.toList_none, List.nil_append] at hbody
    have hlast : T.last.isSome := by simpa [hc] using T.covered
    have hcatch := hbody "catch"
    have hfinally := hbody "finally"
    rw [hs.no_catch_next hclosed] at hcatch
    rw [hs.last_next] at hfinally
    simp [rescue, hcatch, hfinally, hlate, Option.isSome_iff_ne_none.mp hlast]
  | some c =>
    have hnext := fun a => wf.nextNamed?_seen hscope (hs.split_onError hc) a
    have hcatch : (f.seen hold).nextNamed? "catch" T.body = some c := by
      rw [hbody, hc]
      simp [Forest.hasName, hs.onError c hc]
    have hmany := hnext "catch"
    have hfinally := hnext "finally"
    rw [hs.no_catch_next hclosed] at hmany
    rw [hs.last_next] at hfinally
    simp [rescue, hcatch, hmany, hfinally, hlate]

theorem placed (wf : f.WellFormed) {hold : Hold} (hscope : T.scope ∈ hold.held) {l : NodeId}
    (hl : T.last = some l) :
    ∃ previous, (f.seen hold).previousSibling? l = some previous ∧
      ((f.seen hold).hasName "try" previous ∨
        (f.seen hold).hasName "catch" previous ∧ (f.seen hold).follows "try" previous) := by
  have hprevious := wf.previousSibling?_seen_of_split hscope (hs.split_last hl)
  rw [wf.hasName_seen, wf.hasName_seen]
  cases hc : T.onError with
  | none =>
    rw [hc, Option.toList_none, List.getLast?_concat] at hprevious
    exact ⟨T.body, hprevious, Or.inl (by simp [Forest.hasName, hs.body])⟩
  | some c =>
    rw [hc, Option.toList_some, List.append_cons, List.getLast?_concat] at hprevious
    refine ⟨c, hprevious, Or.inr ⟨by simp [Forest.hasName, hs.onError c hc], ?_⟩⟩
    rw [wf.follows_seen hscope (hs.split_onError hc), List.getLast?_concat]
    simp [Forest.hasName, hs.body]

end Trap.Stands

/-! ## What a body leaves -/

/-- The plot of a program that may work on everything. -/
def Plot.whole {f : Forest} (wf : f.WellFormed) : Plot where
  owned _ := True
  start := f
  fenced := ⟨wf, fun _ _ => trivial, fun _ _ _ _ => trivial, fun _ _ _ _ => trivial,
    fun _ _ _ _ => trivial⟩

/-- A world that a body may leave when it begins in `w`. -/
structure Left (w w' : World) : Prop where
  sound : w'.Sound
  size_le : w.forest.size ≤ w'.forest.size
  depth : w'.session.depth = w.session.depth
  parent : ∀ n p, w.forest.Has n → w'.forest.parent n = some p → w.forest.parent n = some p

theorem ran_nothing {engine : Engine} {hold : Hold} {n : NodeId} {position : Nat} {w : World}
    (hpatience : engine.patience ≠ 0) (h : w.forest.child? n position = none) :
    Ran engine hold n position w (.ok .normal) w := by
  obtain ⟨fuel, hfuel⟩ := Nat.exists_eq_succ_of_ne_zero hpatience
  rw [Ran, result_attempt, execute, result_holding, hfuel, executeFrom,
    result_bind_ok (result_ask _), h]
  rfl

theorem Ran.of_result {engine : Engine} {hold : Hold} {n : NodeId} {position : Nat} {w w' : World}
    {outcome : Except Error Flow}
    (h : (execute engine n position).result hold w = (resumed outcome, w')) :
    Ran engine hold n position w outcome w' := by
  rw [Ran, result_attempt, h, handedOn_resumed]

namespace Ran

variable {engine : Engine} {hold : Hold} {n : NodeId} {position : Nat} {w w' : World}
  {outcome : Except Error Flow} (h : Ran engine hold n position w outcome w')

include h

theorem result_eq : (execute engine n position).result hold w = (resumed outcome, w') := by
  rw [Ran, result_attempt] at h
  revert h
  match (execute engine n position).result hold w with
  | (.ok _, _) => rintro ⟨⟩; rfl
  | (.error (.error _), _) => rintro ⟨⟩; rfl
  | (.error .stalled, _) => rintro ⟨⟩

theorem unique {outcome' : Except Error Flow} {w'' : World}
    (h' : Ran engine hold n position w outcome' w'') : outcome = outcome' ∧ w' = w'' := by
  have heq := Prod.mk.inj (Eq.trans (Eq.symm h) h')
  exact ⟨Except.ok.inj heq.1, heq.2⟩

theorem left (he : engine.Keeping) (hw : w.Sound) (hb : w.session.bindings = [])
    (hn : w.forest.Has n) : Left w w' := by
  -- A body that may work on all nodes still keeps the links in order.
  let P := Plot.whole hw.wellFormed
  have hready : P.Ready w := ⟨P.tended_start, hb, fun call hc => ⟨trivial, hw.base call hc⟩⟩
  have hmine : P.Mine w.forest.size n := ⟨trivial, hn⟩
  have hkeeps : P.Keeps [] w.forest.size (execute engine n position) P.NewFlow :=
    Plot.Keeps.execute he position hmine
  have hfine := hkeeps.attempt.fine hold w (List.nil_subset _) hready (Nat.le_refl _)
  rw [show (attempt (execute engine n position)).result hold w = (.ok outcome, w') from h] at hfine
  have hafter := hfine.1
  refine ⟨⟨hafter.tended.wellFormed, fun call hc => ?_⟩, hafter.size_le, hafter.depth,
    fun n p hn hp => hafter.tended.parent n p hn hp⟩
  exact ((hafter.ready hready).base call hc).2

end Ran

/-! ## What comes last -/

namespace Keyword

variable {engine : Engine} {hold : Hold} {n : NodeId} {w w₁ : World} {pending : Except Error Flow}

theorem result_settle_none :
    (settle engine n none pending).result hold w = (resumed pending, w) := result_resume pending

theorem result_settle_some {l : NodeId} {final : Except Error Flow}
    (h : Ran engine (hold.goingBeside n l) l 0 w final w₁) :
    (settle engine n (some l) pending).result hold w =
      (resumed (Trap.overriding pending final), w₁) := by
  rw [settle, result_bind, result_goingBeside, h.result_eq]
  match final with
  | .error _ => rfl
  | .ok .normal => exact result_resume pending
  | .ok .breaking => rfl
  | .ok .continuing => rfl
  | .ok (.returning _) => rfl

/-! ## try -/

section Try

variable {r : Rescue} (hr : rescue (w.forest.seen hold) n = .ok r)

include hr

theorem result_tryBlock_normal (h : Ran engine hold n 0 w (.ok .normal) w₁) :
    (tryBlock engine (.plain "try" n)).result hold w = (.ok .normal, w₁) := by
  rw [tryBlock, result_bind_ok (result_observe _)]
  dsimp only [Call.plain]
  rw [hr, result_bind_ok (result_ofExcept_ok r), result_bind_ok h]
  rfl

theorem result_tryBlock_flow {flow : Flow} (hflow : flow ≠ .normal)
    (h : Ran engine hold n 0 w (.ok flow) w₁) :
    (tryBlock engine (.plain "try" n)).result hold w =
      (settle engine n r.last (.ok flow)).result hold w₁ := by
  rw [tryBlock, result_bind_ok (result_observe _)]
  dsimp only [Call.plain]
  rw [hr, result_bind_ok (result_ofExcept_ok r), result_bind_ok h]
  cases flow with
  | normal => exact absurd rfl hflow
  | breaking | continuing | returning => rfl

theorem result_tryBlock_error {e : Error} {scope : NodeId}
    (h : Ran engine hold n 0 w (.error e) w₁) (hs : (w₁.forest.seen hold).parent n = some scope)
    (hnone : r.onError = none) :
    (tryBlock engine (.plain "try" n)).result hold w =
      (settle engine n r.last (.error e)).result (hold.adding [scope]) w₁ := by
  rw [tryBlock, result_bind_ok (result_observe _)]
  dsimp only [Call.plain]
  rw [hr, result_bind_ok (result_ofExcept_ok r), result_bind_ok h]
  dsimp only
  rw [result_bind_ok (result_observe _), hs, hnone]
  rfl

theorem result_tryBlock_rescued {e : Error} {scope c : NodeId} {w₂ : World}
    (h : Ran engine hold n 0 w (.error e) w₁) (hs : (w₁.forest.seen hold).parent n = some scope)
    (hc : r.onError = some c) (hleave : (leaveTrapped scope e).result hold w₁ = (.ok (), w₂)) :
    (tryBlock engine (.plain "try" n)).result hold w = (.ok .normal, w₂) := by
  rw [tryBlock, result_bind_ok (result_observe _)]
  dsimp only [Call.plain]
  rw [hr, result_bind_ok (result_ofExcept_ok r), result_bind_ok h]
  dsimp only
  rw [result_bind_ok (result_observe _), hs, hc]
  dsimp only
  rw [result_bind_ok hleave]
  rfl

end Try

theorem find?_trapped_none {f : Forest} {scope : NodeId}
    (h : ∀ m ∈ f.children scope, f.name m ≠ trappedName) : f.find? scope trappedName = none := by
  rw [Forest.find?, List.find?_eq_none]
  intro m hm
  simpa [Forest.hasName] using h m hm

theorem leaveTrapped_lends (hold : Hold) (wf : w.forest.WellFormed) {scope : NodeId}
    (hs : w.forest.Has scope) (huntrapped : ∀ m ∈ w.forest.children scope, w.forest.name m ≠ trappedName)
    (e : Error) :
    ∃ g, (leaveTrapped scope e).result hold w = (.ok (), { w with forest := g }) ∧
      Lent scope [(Forest.plant (trapped e) w.forest).1] (Forest.plant (trapped e) w.forest).2 g ∧
      g.children scope = (Forest.plant (trapped e) w.forest).1 :: w.forest.children scope := by
  have hp := Forest.planted (trapped e) w.forest wf
  have hplant : (plant (trapped e)).result hold w =
      (.ok (Forest.plant (trapped e) w.forest).1,
        { w with forest := (Forest.plant (trapped e) w.forest).2 }) := result_grow _
  generalize Forest.plant (trapped e) w.forest = planted at hp hplant ⊢
  obtain ⟨caught, f⟩ := planted
  have ha := hp.attachable wf hs
  obtain ⟨g, hrun, hl, hg⟩ := insertFirst_lends (w := w.on f) hold hp.wellFormed ha
  refine ⟨g, ?_, hl, hg.trans (congrArg _ (hp.grown.children_eq hs))⟩
  rw [leaveTrapped, result_bind_ok (result_ask _), find?_trapped_none huntrapped]
  dsimp only
  rw [result_bind_ok hplant]
  exact hrun

theorem Lent.detach_eq {f g : Forest} {p d : NodeId} (hl : Lent p [d] f g) (wf : f.WellFormed)
    (hd : f.parent d = none) (hg : g.children p = d :: f.children p) : g.detach d = f := by
  refine Forest.ext_fields (by rw [Forest.size_detach, hl.size_eq]) (fun m => ?_) (fun m => ?_)
    (fun m => ?_) fun m => ?_
  · rw [Forest.name_detach, hl.name_eq]
  · rw [Forest.value_detach, hl.value_eq]
  · rw [Forest.parent_detach, hl.parent_eq]
    by_cases hm : m = d <;> simp [hm, hd]
  · have hself : (f.children m).filter (· ≠ d) = f.children m := by
      rw [List.filter_eq_self]
      exact fun c hc => decide_eq_true fun hcd => wf.not_mem_children_of_root hd m (hcd ▸ hc)
    rw [hl.wellFormed.children_detach]
    by_cases hm : m = p
    · subst hm
      rw [hg, List.filter_cons_of_neg (by simp), hself]
    · have hne := hl.children_ne m hm
      simp only [List.mem_singleton] at hne
      rw [hne, hself, hself]

/-! ## catch -/

theorem insertAll_arms (hold : Hold) (wf : w.forest.WellFormed) {c : NodeId} (hc : w.forest.Has c)
    (e : Error) {details : List NodeId} (hdetails : details =
      (Forest.plant (trapped e) w.forest).2.children (Forest.plant (trapped e) w.forest).1) :
    ∃ w₁, (insertAll c 0 details).result hold
        { w with forest := (Forest.plant (trapped e) w.forest).2 } = (.ok (), w₁) ∧
      Armed c e w details w₁ := by
  have hp := Forest.planted (trapped e) w.forest wf
  have hnames := Forest.names_plant wf (trapped e)
  suffices h : ∃ g, (insertAll c 0 details).result hold
      { w with forest := (Forest.plant (trapped e) w.forest).2 } = (.ok (), { w with forest := g }) ∧
      Lent c details (Forest.plant (trapped e) w.forest).2 g ∧
      g.children c = details ++ w.forest.children c by
    obtain ⟨g, hrun, hl, hg⟩ := h
    refine ⟨_, hrun, hdetails, ?_, hl, hg, rfl, rfl⟩
    rw [List.map_congr_left fun d _ => hl.name_eq d, hdetails, hnames]
    rfl
  generalize Forest.plant (trapped e) w.forest = planted at hp hdetails ⊢
  obtain ⟨caught, f⟩ := planted
  subst hdetails
  -- The details were planted with the error, so no old node is among them or below them.
  have hnew : ∀ d ∈ f.children caught, ¬ w.forest.Has d := by
    intro d hd hold
    have hparent := (hp.wellFormed.linked caught d).mp hd
    rw [hp.grown.parent_eq hold] at hparent
    exact hp.not_has (wf.has_parent hparent)
  have hlend : ∀ d ∈ f.children caught, Lendable f c d := fun d hd =>
    ⟨hp.wellFormed.has_child hd, fun h => hnew d hd (h ▸ hc),
      fun h => hnew d hd (wf.has_above (hp.grown.above wf h hc))⟩
  let w₀ : World := { w with forest := f }
  obtain ⟨g, hrun, hl, hg⟩ := insertAll_lends (w := w₀) hold hp.wellFormed (hp.grown.has hc) []
    (f.children c) rfl (hp.wellFormed.nodup caught) hlend (fun _ _ => List.not_mem_nil)
  refine ⟨g, hrun, hl, ?_⟩
  rw [hg, hp.grown.children_eq hc, List.filter_eq_self.mpr]
  · rfl
  · exact fun m hm => decide_eq_true fun hd => hnew m hd (wf.has_child hm)

section Catch

variable {scope : NodeId} (hfollows : (w.forest.seen hold).follows "try" n)
  (hparent : (w.forest.seen hold).parent n = some scope)

include hfollows hparent

theorem result_observe_scope :
    (observe fun f => if f.follows "try" n then f.parent n else none).result hold w =
      (.ok (some scope), w) := by
  rw [result_observe, if_pos hfollows, hparent]

theorem result_catchBlock_idle (hnone : w.forest.find? scope trappedName = none) :
    (catchBlock engine (.plain "catch" n)).result hold w = (.ok .normal, w) := by
  refine (result_bind_ok (result_observe_scope hfollows hparent)).trans ?_
  dsimp only [Call.plain]
  rw [result_holding, result_bind_ok (result_ask _), hnone]
  rfl

theorem result_catchBlock_caught {caught : NodeId} {details : List NodeId}
    {outcome : Except Error Flow} {w₂ w₃ w₄ : World}
    (hcaught : w.forest.find? scope trappedName = some caught)
    (huntie : (untie caught).result (hold.adding [scope]) w = (.ok (), w₁))
    (hdetails : w₁.forest.children caught = details)
    (hlend : (insertAll n 0 details).result (hold.adding [scope]) w₁ = (.ok (), w₂))
    (h : Ran engine (hold.adding [scope]) n details.length w₂ outcome w₃)
    (hback : (untieFrom n details).result (hold.adding [scope]) w₃ = (.ok (), w₄)) :
    (catchBlock engine (.plain "catch" n)).result hold w =
      if outcome = .ok .normal then (.ok .normal, w₄)
      else (settle engine n ((w₄.forest.seen (hold.adding [scope])).nextNamed? "finally" n)
        outcome).result (hold.adding [scope]) w₄ := by
  refine (result_bind_ok (result_observe_scope hfollows hparent)).trans ?_
  dsimp only [Call.plain]
  rw [result_holding, result_bind_ok (result_ask _), hcaught]
  dsimp only
  rw [result_bind_ok huntie, result_bind_ok (result_ask _), hdetails, result_bind_ok hlend,
    result_bind_ok h, result_bind_ok hback]
  match outcome with
  | .ok .normal => rfl
  | .ok .breaking | .ok .continuing | .ok (.returning _) | .error _ =>
    rw [if_neg (by simp)]
    dsimp only
    rw [result_bind_ok (result_observe _)]

end Catch

/-! ## finally -/

theorem result_finallyBlock {previous : NodeId}
    (hprevious : (w.forest.seen hold).previousSibling? n = some previous)
    (h : (w.forest.seen hold).hasName "try" previous ∨
      (w.forest.seen hold).hasName "catch" previous ∧ (w.forest.seen hold).follows "try" previous) :
    (finallyBlock engine (.plain "finally" n)).result hold w =
      (execute engine n 0).result hold w := by
  rw [finallyBlock, result_bind_ok (result_observe _), if_pos]
  · rfl
  · dsimp only [Call.plain]
    rw [hprevious]
    simpa using h

end Keyword

end EventTree
