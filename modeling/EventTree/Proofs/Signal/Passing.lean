import EventTree.Proofs.Signal.Nesting

/-!
# Signals on their way outwards

Each construct that executes a body hands on what the body ended with. A loop is put back first, takes
`break` and `continue` for itself, and hands on `return` only.
-/

namespace EventTree

open EventTree.Action Keyword

variable {hold : Hold} {w w' : World}

/-! ## Leaving a loop -/

namespace Pass

variable {pass : Pass} {flow ended : Flow}

section Leaving

variable (wf : w.forest.WellFormed) (hn : w.forest.Has pass.node)

include wf hn

theorem result_tidy : pass.tidy.result hold w = (.ok (), w.on (pass.tidied w.forest)) := by
  rw [tidy, tidied]
  split
  · exact result_restore _ wf hn _
  · rfl

theorem result_close (hends : flow.pastLoop = some ended) :
    (pass.close flow).result hold w = (.ok ended, w.on (pass.tidied w.forest)) := by
  rw [close, result_bind_ok (result_tidy wf hn), hends]
  rfl

theorem tidied_restored : w.forest.Restored pass.node (pass.tidied w.forest) ∨
    pass.tidied w.forest = w.forest := by
  rw [tidied]
  split
  · exact Or.inl (Forest.restored_spec wf hn _)
  · exact Or.inr rfl

theorem wellFormed_tidied : (pass.tidied w.forest).WellFormed := by
  rcases tidied_restored wf hn with h | h
  · exact h.wellFormed
  · rw [h]; exact wf

theorem has_tidied : (pass.tidied w.forest).Has pass.node := by
  rcases tidied_restored wf hn with h | h
  · exact Nat.lt_of_lt_of_le hn h.size_le
  · rw [h]; exact hn

theorem result_leave (hends : flow.pastLoop = some ended) :
    (pass.leave flow).result hold w = (.ok ended, w.on (pass.restored w.forest)) := by
  have hattempt : (attempt (pass.close flow)).result hold w =
      (.ok (.ok ended), w.on (pass.tidied w.forest)) := by
    rw [result_attempt, result_close wf hn hends]
    rfl
  have hrestore : (restore pass.node pass.pristine).result hold (w.on (pass.tidied w.forest)) =
      (.ok (), w.on (pass.restored w.forest)) :=
    result_restore _ (wellFormed_tidied wf hn) (has_tidied wf hn) _
  rw [leave, result_bind_ok hattempt, result_bind_ok hrestore]
  rfl

end Leaving

theorem result_restoring {n pristine : NodeId} {loop : NodeId → Action Flow} {f : Forest}
    (hcopy : w.forest.copy n = (pristine, f)) {tidies : Bool} {rest : Action Flow}
    (hloop : (loop pristine).result hold (w.on f) =
      ((⟨n, pristine, tidies, rest⟩ : Pass).close flow).result hold w') :
    (restoring n loop).result hold w =
      ((⟨n, pristine, tidies, rest⟩ : Pass).leave flow).result hold w' := by
  rw [restoring, result_bind_ok (result_copy _ hcopy), leave, result_bind, result_bind, result_attempt,
    result_attempt, hloop]

end Pass

/-! ## Passes -/

section Passes

variable {engine : Engine} {n pristine : NodeId} {flow : Flow} {w₁ : World}

theorem result_checkCeiling {limit : Option Nat} {passes : Nat}
    (h : ∀ most, limit = some most → passes < most) :
    (checkCeiling limit passes).result hold w = (.ok (), w) := by
  unfold checkCeiling
  cases limit with
  | none => rfl
  | some most =>
    have hlt := h most rfl
    dsimp only
    rw [if_neg (by omega)]
    rfl

theorem result_whilePasses {limit : Option Nat} {fuel passes offset : Nat}
    (htests : Tests engine hold n limit passes w offset w₁)
    (hbody : (execute engine n offset).result hold w₁ = (.ok flow, w')) :
    (whilePasses engine n pristine limit (fuel + 1) passes).result hold w =
      (Pass.close ⟨n, pristine, true, whilePasses engine n pristine limit fuel (passes + 1)⟩
        flow).result hold w' := by
  rw [whilePasses, result_bind_ok htests.condition, if_pos rfl,
    result_bind_ok (result_checkCeiling htests.ceiling), result_bind_ok hbody, Pass.close, Pass.tidy,
    if_pos rfl, result_bind, result_bind]
  cases flow <;> rfl

theorem WhileComes.result {limit : Option Nat} {fuel passes fuel' passes' : Nat}
    (h : WhileComes engine hold n pristine limit fuel passes w fuel' passes' w') :
    (whilePasses engine n pristine limit fuel passes).result hold w =
      (whilePasses engine n pristine limit fuel' passes').result hold w' := by
  induction h with
  | start => rfl
  | pass htests hbody hgoes hrestore _ ih =>
    rw [result_whilePasses htests hbody, Pass.close, Pass.tidy, if_pos rfl, result_bind_ok hrestore,
      hgoes]
    exact ih

theorem itemPasses_cons (item : Option LiveValue) (items : List (Option LiveValue)) :
    itemPasses engine n pristine (item :: items) = (do
      bindItem n pristine item
      let flow ← holding (Value.nodes items) (execute engine n 0)
      Pass.close ⟨n, pristine, false, itemPasses engine n pristine items⟩ flow) := by
  simp only [itemPasses, bindItem, bind_assoc]
  refine bind_congr fun _ => bind_congr fun _ => bind_congr fun _ => bind_congr fun _ =>
    bind_congr fun flow => ?_
  cases flow <;> rfl

theorem result_itemPasses {item : Option LiveValue} {items : List (Option LiveValue)}
    (hbind : (bindItem n pristine item).result hold w = (.ok (), w₁))
    (hbody : (execute engine n 0).result (hold.adding (Value.nodes items)) w₁ = (.ok flow, w')) :
    (itemPasses engine n pristine (item :: items)).result hold w =
      (Pass.close ⟨n, pristine, false, itemPasses engine n pristine items⟩ flow).result hold w' := by
  rw [itemPasses_cons, result_bind_ok hbind, result_bind, result_holding, hbody]
  rfl

theorem ItemsCome.result {items items' : List (Option LiveValue)}
    (h : ItemsCome engine hold n pristine items w items' w') :
    (itemPasses engine n pristine items).result hold w =
      (itemPasses engine n pristine items').result hold w' := by
  induction h with
  | start => rfl
  | pass hbind hbody hgoes _ ih =>
    rw [result_itemPasses hbind hbody, Pass.close, Pass.tidy, if_neg (by simp),
      result_bind_ok (result_pure ()), hgoes]
    exact ih

end Passes

/-! ## Constructs -/

section Constructs

variable {engine : Engine} {n : NodeId} {flow : Flow} {w₁ : World}

theorem result_branch {offset : Nat}
    (hcondition : (evaluateCondition engine n).result hold w = (.ok ⟨true, offset⟩, w₁)) :
    (branch engine n).result hold w = (execute engine n offset).result hold w₁ := by
  rw [branch, result_bind_ok hcondition, if_pos rfl]

theorem result_earlierTaken {taken : Bool}
    (h : (w.forest.seen hold).chainTaken ((w.forest.seen hold).siblingsBefore n) = some taken) :
    (earlierTaken n).result hold w = (.ok taken, w) := by
  rw [earlierTaken, result_bind_ok (result_observe _), h]
  rfl

theorem result_elseIfBranch {offset : Nat}
    (hchain : (w.forest.seen hold).chainTaken ((w.forest.seen hold).siblingsBefore n) = some false)
    (hcondition : (evaluateCondition engine n).result hold w = (.ok ⟨true, offset⟩, w₁)) :
    (elseIfBranch engine (.plain "else-if" n)).result hold w =
      (execute engine n offset).result hold w₁ :=
  (result_bind_ok (result_earlierTaken hchain)).trans (result_branch hcondition)

theorem result_elseBranch (hvalue : w.forest.hasValue n = false)
    (hchain : (w.forest.seen hold).chainTaken ((w.forest.seen hold).siblingsBefore n) = some false) :
    (elseBranch engine (.plain "else" n)).result hold w = (execute engine n 0).result hold w := by
  have hnone : ¬ w.forest.hasValue (Call.plain "else" n).node = true := by simp [Call.plain, hvalue]
  rw [elseBranch, result_bind_ok (result_ask _)]
  dsimp only
  rw [if_neg hnone]
  exact result_bind_ok (result_earlierTaken hchain)

theorem result_switch {body : NodeId} (hfault : w.forest.choiceFault? n = none)
    (hchosen : (w.forest.seen hold).chosenBody? n = some body) :
    (switch engine (.plain "switch" n)).result hold w = (execute engine body 0).result
      (hold.adding (Value.nodes [(w.forest.seen hold).singleValue n])) w := by
  rw [switch, result_bind_ok (result_ask _)]
  dsimp only [Call.plain]
  rw [hfault, result_bind_ok result_failIf_none, result_bind_ok (result_observe _),
    result_bind_ok (result_observe _), hchosen]
  rfl

theorem result_tryBlock_last {onError : Option NodeId}
    (hrescue : rescue (w.forest.seen hold) n = .ok ⟨onError, none⟩) (hflow : flow ≠ .normal)
    (hbody : (execute engine n 0).result hold w = (.ok flow, w')) :
    (tryBlock engine (.plain "try" n)).result hold w = (.ok flow, w') := by
  have hran : Ran engine hold n 0 w (.ok flow) w' := by
    rw [Ran, result_attempt, hbody]
    rfl
  exact (result_tryBlock_flow hrescue hflow hran).trans result_settle_none

theorem result_whileLoop {pristine : NodeId} {f : Forest} {limit : Option Nat}
    {fuel passes offset : Nat} {w₂ : World} (hcopy : w.forest.copy n = (pristine, f))
    (hlimit : ceiling engine.settings.maxIterations f n = limit)
    (hcomes : WhileComes engine hold n pristine limit engine.patience 0 (w.on f) (fuel + 1) passes w₁)
    (htests : Tests engine hold n limit passes w₁ offset w₂)
    (hbody : (execute engine n offset).result hold w₂ = (.ok flow, w')) :
    (whileLoop engine (.plain "while" n)).result hold w =
      (Pass.leave ⟨n, pristine, true, whilePasses engine n pristine limit fuel (passes + 1)⟩
        flow).result hold w' := by
  refine Pass.result_restoring hcopy ?_
  rw [result_bind_ok (result_ask _)]
  dsimp only [Call.plain]
  rw [World.forest_on, hlimit, hcomes.result, result_whilePasses htests hbody]

theorem result_forEachLoop {pristine : NodeId} {f : Forest} {all rest : List (Option LiveValue)}
    {item : Option LiveValue} {w₂ : World} (hitems : items (w.forest.seen hold) n = .ok all)
    (hcopy : w.forest.copy n = (pristine, f))
    (hcome : ItemsCome engine hold n pristine all (w.on f) (item :: rest) w₁)
    (hbind : (bindItem n pristine item).result hold w₁ = (.ok (), w₂))
    (hbody : (execute engine n 0).result (hold.adding (Value.nodes rest)) w₂ = (.ok flow, w')) :
    (forEachLoop engine (.plain "for-each" n)).result hold w =
      (Pass.leave ⟨n, pristine, false, itemPasses engine n pristine rest⟩ flow).result hold w' := by
  rw [forEachLoop, result_bind_ok (result_observe _)]
  dsimp only [Call.plain]
  rw [hitems, result_bind_ok (result_ofExcept_ok all)]
  refine Pass.result_restoring hcopy ?_
  rw [hcome.result, result_itemPasses hbind hbody]

theorem Opens.result {event : String} {frame : Frame} {site : Site}
    (h : Opens engine hold n w event frame site) (hflow : flow ≠ .normal)
    (hbody : (execute engine site.scope site.position).result site.hold site.world = (.ok flow, w')) :
    (inTurn (coreTable.handlersOf event) fun h => h engine (.plain event n)).result hold w =
      (frame.after flow).result hold w' := by
  have hone : ∀ {event : String} (handler : Handler) {r : Except Stop Flow × World},
      coreTable.handlersOf event = [handler] →
      (handler engine (.plain event n)).result hold w = r →
      (inTurn (coreTable.handlersOf event) fun h => h engine (.plain event n)).result hold w = r :=
    fun _ _ hhandlers hr => by rw [hhandlers, result_inTurn_singleton, hr]
  cases h with
  | lambda => exact hone Keyword.lambda rfl hbody
  | ifBranch hcondition =>
    exact hone Keyword.ifBranch rfl ((result_branch hcondition).trans hbody)
  | elseIfBranch hchain hcondition =>
    exact hone Keyword.elseIfBranch rfl
      ((result_elseIfBranch hchain hcondition).trans hbody)
  | elseBranch hvalue hchain =>
    exact hone Keyword.elseBranch rfl ((result_elseBranch hvalue hchain).trans hbody)
  | switch hfault hchosen =>
    exact hone Keyword.switch rfl ((result_switch hfault hchosen).trans hbody)
  | tryBlock hrescue =>
    exact hone Keyword.tryBlock rfl (result_tryBlock_last hrescue hflow hbody)
  | whileLoop hcopy hlimit hcomes htests =>
    exact hone Keyword.whileLoop rfl
      (result_whileLoop hcopy hlimit hcomes htests hbody)
  | forEachLoop hitems hcopy hcome hbind =>
    exact hone Keyword.forEachLoop rfl
      (result_forEachLoop hitems hcopy hcome hbind hbody)

theorem Opens.ne_catchAll {event : String} {frame : Frame} {site : Site}
    (h : Opens engine hold n w event frame site) : event ≠ catchAll := by
  cases h <;> decide

end Constructs

/-! ## Frames -/

namespace Frame

variable {frame : Frame} {flow : Flow}

theorem Lets.ne_normal (h : frame.Lets flow) : flow ≠ .normal := by
  cases frame with
  | passing => exact h
  | looping pass =>
    rintro rfl
    cases h

theorem result_after (hlets : frame.Lets flow) (wf : w.forest.WellFormed)
    (hwithin : frame.Within w.forest) :
    (frame.after flow).result hold w = (.ok flow, frame.left w) := by
  cases frame with
  | passing => rfl
  | looping pass => exact Pass.result_leave wf hwithin hlets

end Frame

section Outcomes

variable {m : Machine} (hm : m.IsCore) {t u s : Moment} {frame : Frame} {flow : Flow}

include hm

/-- An event comes to what its frame makes of the body. Where the frame takes the signal for itself, the
event has to be plain still. -/
theorem Enters.outcome (h : Enters m t frame u) (hu : m.outcome u = (.ok flow, w))
    (hflow : flow ≠ .normal)
    (hplain : ∀ w', (frame.after flow).result (t.hold.adding [t.node]) w = (.ok .normal, w') →
      w'.Plain t.event) :
    m.outcome t = leaving t.event ((frame.after flow).result (t.hold.adding [t.node]) w) := by
  obtain ⟨site, hopens, hreaches⟩ := h.opens
  have hbody := hreaches.result (by rw [hu]; simpa using hflow)
  have hkeywords : (m.keywords u.patience t.event t.node).result (t.hold.adding [t.node])
      t.world.deeper = (frame.after flow).result (t.hold.adding [t.node]) w :=
    hopens.result hflow (hbody.trans hu)
  rw [Machine.outcome, h.admits.patience_eq, Machine.result_raiseFlow hm hopens.ne_catchAll
    h.admits.plain h.admits.depth_lt (hkeywords ▸ hplain), hkeywords]

theorem Enters.outcome_of_lets (h : Enters m t frame u) (hu : m.outcome u = (.ok flow, w))
    (hlets : frame.Lets flow) (wf : w.forest.WellFormed) (hwithin : frame.Within w.forest) :
    m.outcome t = (.ok flow, frame.unwound w) := by
  have hafter : (frame.after flow).result (t.hold.adding [t.node]) w = (.ok flow, frame.left w) :=
    Frame.result_after hlets wf hwithin
  rw [h.outcome hm hu hlets.ne_normal, hafter]
  · rfl
  · -- The signal is not over, so no other handler is looked for.
    rw [hafter]
    rintro w' ⟨⟩
    exact absurd rfl hlets.ne_normal

end Outcomes

end EventTree
