import EventTree.Keyword.Assignment
import EventTree.Keyword.Branch
import EventTree.Keyword.Choice
import EventTree.Keyword.Logic
import EventTree.Keyword.Loop
import EventTree.Proofs.Plot.Keeping

/-!
# Keywords keep to their plot

A handler that is called on a node of a plot keeps to the plot, if the events that it raises do. Here
this is shown of all keywords but those that trap errors or declare events.
-/

namespace EventTree

open Plot

/-- Events raised on a node of a plot keep to the plot. -/
structure Engine.Keeping (engine : Engine) : Prop where
  raiseFlow : ∀ (P : Plot) (held : List NodeId) (bound : Nat) (event : String) (n : NodeId),
    P.Mine bound n → P.Keeps held bound (engine.raiseFlow event n) P.NewFlow
  raiseDirect : ∀ (P : Plot) (held : List NodeId) (bound : Nat) (call : Call),
    P.Mine bound call.node → P.Keeps held bound (engine.raiseDirect call) P.NewFlow

/-- A handler keeps to the plot of the node that it is called on. That node is held. -/
def Handler.Keeping (handler : Handler) : Prop :=
  ∀ (engine : Engine), engine.Keeping → ∀ (P : Plot) (bound : Nat) (call : Call),
    P.Mine bound call.node → P.Keeps [call.node] bound (handler engine call) P.NewFlow

namespace Plot

variable {P : Plot} {held : List NodeId} {bound : Nat} {engine : Engine}

theorem newFlow_normal {bound : Nat} : P.NewFlow bound .normal := by
  rintro n ⟨⟩

theorem NewFlow.mono {bound' : Nat} {flow : Flow} (h : P.NewFlow bound flow) (hle : bound ≤ bound') :
    P.NewFlow bound' flow := fun n hn => (h n hn).mono hle

namespace Keeps

theorem normal : P.Keeps held bound (Pure.pure .normal) P.NewFlow :=
  pure fun _ _ => newFlow_normal

theorem thenNormal {α : Type} {act : Action α} (h : P.Keeps held bound act fun _ _ => True) :
    P.Keeps held bound (act >>= fun _ => Pure.pure .normal) P.NewFlow := h.bind fun _ _ _ _ => normal

theorem any {α : Type} {act : Action α} {post : Nat → α → Prop} (h : P.Keeps held bound act post) :
    P.Keeps held bound act fun _ _ => True := h.mono fun _ _ _ _ => trivial

theorem gatherAny {α β : Type} {items : List α} {act : α → Action β}
    (h : ∀ b item, bound ≤ b → item ∈ items → P.Keeps held b (act item) fun _ _ => True) :
    P.Keeps held bound (Action.gather items act) fun _ _ => True :=
  (gather (fun _ _ _ _ h => h) fun b hb item hm => h b item hb hm).any

theorem refused (cause : Cause) : P.Keeps held bound (Action.fail cause : Action Unit) fun _ _ => True :=
  fail cause

theorem done {α : Type} (a : α) : P.Keeps held bound (Pure.pure a) fun _ _ => True :=
  pure fun _ _ => trivial

/-! ## Reading -/

section Reading

variable {n : NodeId}

theorem askValue (hn : P.Mine bound n) : P.Keeps held bound (Action.ask (·.value n)) P.MineIn :=
  ask fun _ _ hb hg => hg.mineIn_value (hn.mono hb)

theorem askNewChildren (hn : P.New bound n) :
    P.Keeps held bound (Action.ask (·.children n)) fun b cs => ∀ c ∈ cs, P.New b c :=
  askForest fun _ ht _ _ hc => ht.new_child hn.1 hc

theorem askFind (hn : P.Mine bound n) (a : String) :
    P.Keeps held bound (Action.ask (·.find? n a)) fun b r => ∀ c, r = some c → P.Mine b c :=
  ask fun _ _ hb hg _ hc => hg.find? (hn.mono hb) hc

theorem askFindAll (hn : P.Mine bound n) (a : String) :
    P.Keeps held bound (Action.ask (·.findAll n a)) fun b cs => ∀ c ∈ cs, P.Mine b c :=
  ask fun _ _ hb hg _ hc => hg.findAll (hn.mono hb) hc

theorem observeSingleValue (hn : P.Mine bound n) :
    P.Keeps held bound (Action.observe (·.singleValue n)) P.MineIn :=
  observe fun _ _ hb hg => hg.singleValue (hn.mono hb)

theorem observeSelect (hn : P.Mine bound n) (s : Selector) :
    P.Keeps held bound (Action.observe (s.select · n)) fun b found => ∀ c ∈ found.nodes, P.Mine b c :=
  observe fun _ _ hb hg _ hc => hg.select (hn.mono hb) hc

theorem observeParent (hn : P.Mine bound n) :
    P.Keeps held bound (Action.observe (·.parent n)) fun b r => ∀ p, r = some p → P.Mine b p :=
  observe fun _ _ hb hg p hp => hg.parent n p (hn.mono hb) hp

end Reading

/-! ## Boundaries -/

theorem insertAllLast {n : NodeId} (hn : P.Mine bound n) {cs : List NodeId}
    (hc : ∀ c ∈ cs, P.New bound c) :
    P.Keeps held bound (Action.forEach cs fun c => Action.insert n none c) fun _ _ => True :=
  forEach fun _ hb c hm => insert (hn.mono hb) ((hc c hm).mono hb) none

theorem settleOn {n : NodeId} (hn : P.Mine bound n) {flow : Flow} (hf : P.NewFlow bound flow) :
    P.Keeps held bound (settleOn n flow) fun _ _ => True := by
  cases flow with
  | normal => exact done _
  | breaking => exact askAny.bind fun _ _ _ _ => fail _
  | continuing => exact askAny.bind fun _ _ _ _ => fail _
  | returning r =>
    have hr : P.New bound r := hf r rfl
    -- Children come over from the returned node; they are as new as it is.
    have hlast : ∀ b, bound ≤ b → P.Keeps held b
        (do Action.forEach (← Action.ask (·.children r)) fun c => Action.insert n none c)
        fun _ _ => True := fun b hb =>
      (askNewChildren (hr.mono hb)).bind fun b' cs hb' hcs =>
        insertAllLast (hn.mono (Nat.le_trans hb hb')) hcs
    refine (askValue hr.mine).bind fun b v hb hv => ?_
    refine (setTo (hr.mine.mono hb) (by rintro m ⟨⟩)).bind fun b₁ _ hb₁ _ => ?_
    have hle := Nat.le_trans hb hb₁
    cases v with
    | none => exact hlast b₁ hle
    | some v =>
      exact (setValue (hn.mono hle) (hv.mono hb₁)).bind fun b₂ _ hb₂ _ =>
        hlast b₂ (Nat.le_trans hle hb₂)

theorem raise (he : engine.Keeping) (event : String) {n : NodeId} (hn : P.Mine bound n) :
    P.Keeps held bound (engine.raise event n) fun _ _ => True :=
  (he.raiseFlow P held bound event n hn).bind fun _ _ hb hf => settleOn (hn.mono hb) hf

/-! ## Sequences -/

theorem executeFrom (he : engine.Keeping) {scope : NodeId} (fuel position : Nat)
    (hs : P.Mine bound scope) :
    P.Keeps held bound (Keyword.executeFrom engine scope fuel position) P.NewFlow := by
  induction fuel generalizing bound position with
  | zero => exact stall
  | succ fuel ih =>
    have hchild : P.Keeps held bound (Action.ask (·.child? scope position))
        fun b r => ∀ c, r = some c → P.Mine b c :=
      ask fun _ _ hb hg c hc => hg.child? (hs.mono hb) hc
    refine hchild.bind fun b r hb hr => ?_
    cases r with
    | none => exact normal
    | some statement =>
      have hst := hr statement rfl
      refine andThen ?_ fun b' hb' => ?_
      · refine askAny.bind fun b' name hb' _ => ?_
        split
        · exact normal
        · exact he.raiseFlow P held b' name statement (hst.mono hb')
      · exact askAny.bind fun b'' next hb'' _ =>
          ih next (hs.mono (Nat.le_trans hb (Nat.le_trans hb' hb'')))

theorem execute (he : engine.Keeping) {scope : NodeId} (position : Nat) (hs : P.Mine bound scope) :
    P.Keeps held bound (Keyword.execute engine scope position) P.NewFlow :=
  holding (executeFrom he _ _ hs)

theorem evalEach (he : engine.Keeping) {n : NodeId} (hn : P.Mine bound n) (targets : List NodeId) :
    P.Keeps held bound (Keyword.evalEach engine n targets) fun _ _ => True := by
  induction targets generalizing bound with
  | nil => exact done _
  | cons target rest ih =>
    have hfirst : P.Keeps ((target :: rest) ++ held) bound (do
        let body ← Action.copy target
        let flow ← Keyword.execute engine body 0
        EventTree.settleOn n flow) fun _ _ => True := by
      refine (copy target).bind fun b body hb hbody => ?_
      refine (execute he 0 hbody.mine).bind fun b' flow hb' hf => ?_
      exact settleOn (hn.mono (Nat.le_trans hb hb')) hf
    exact (holding hfirst).bind fun b _ hb _ => ih (hn.mono hb)

theorem appendCopies {n : NodeId} (hn : P.Mine bound n) (cs : List NodeId) :
    P.Keeps held bound (Action.forEach cs fun c => do
      let c ← Action.copy c
      Action.insert n none c) fun _ _ => True :=
  forEach fun _ hb c _ => (copy c).bind fun _ _ hb' hc =>
    insert (hn.mono (Nat.le_trans hb hb')) hc none

/-! ## Conditions -/

theorem leadingOperators_cons (f : Forest) (operators : List String) (n : NodeId) (rest : List NodeId) :
    f.leadingOperators operators (n :: rest) =
      if isDataName (f.name n) then
        ((f.leadingOperators operators rest).1, (f.leadingOperators operators rest).2 + 1)
      else if f.name n ∈ operators then
        (n :: (f.leadingOperators operators rest).1, (f.leadingOperators operators rest).2 + 1)
      else ([], 0) := rfl

theorem mem_of_mem_leadingOperators {f : Forest} {operators : List String} {c : NodeId}
    {l : List NodeId} (h : c ∈ (f.leadingOperators operators l).1) : c ∈ l := by
  induction l with
  | nil => cases h
  | cons x l ih =>
    rw [leadingOperators_cons] at h
    split at h
    · exact List.mem_cons_of_mem _ (ih h)
    · split at h
      · rcases List.mem_cons.mp h with rfl | h
        · exact List.mem_cons_self
        · exact List.mem_cons_of_mem _ (ih h)
      · cases h

theorem mem_of_mem_conditions {f : Forest} {operators : List String} {n c : NodeId}
    {conditions : List NodeId} {offset : Nat}
    (h : f.conditionsOf operators n = .ok (conditions, offset)) (hc : c ∈ conditions) :
    c ∈ f.children n := by
  unfold Forest.conditionsOf at h
  dsimp only at h
  split at h
  · have h : f.leadingOperators operators (f.children n) = (conditions, offset) := Except.ok.inj h
    rw [← show (f.leadingOperators operators (f.children n)).1 = conditions by rw [h]] at hc
    exact mem_of_mem_leadingOperators hc
  · split at h
    · cases h
    · rename_i first rest hd
      have hsub : first :: rest ⊆ f.children n := hd ▸ List.dropWhile_subset _
      rw [← (Prod.mk.inj (Except.ok.inj h)).1] at hc
      rcases List.mem_cons.mp hc with rfl | hc
      · exact hsub List.mem_cons_self
      · exact hsub (List.mem_cons_of_mem _ (mem_of_mem_leadingOperators hc))

theorem operatorNames (he : engine.Keeping) :
    P.Keeps held bound (Keyword.operatorNames engine) fun _ _ => True := by
  refine (create _).bind fun b n hb hn => ?_
  exact (raise he _ hn.mine).bind fun _ _ _ _ => askAny

theorem runCondition (he : engine.Keeping) {n condition : NodeId} (hn : P.Mine bound n)
    (hc : P.Mine bound condition) :
    P.Keeps held bound (Keyword.runCondition engine n condition) fun _ _ => True := by
  refine askAny.bind fun b name hb _ => ?_
  refine (raise he name (hc.mono hb)).bind fun b₁ _ hb₁ _ => ?_
  refine (askValue (hc.mono (Nat.le_trans hb hb₁))).bind fun b₂ v hb₂ hv => ?_
  exact setTo (hn.mono (Nat.le_trans (Nat.le_trans hb hb₁) hb₂)) hv

theorem testNode (he : engine.Keeping) {n : NodeId} (hn : P.Mine bound n) :
    P.Keeps held bound (Keyword.testNode engine n) fun _ _ => True := by
  refine (operatorNames he).bind fun b operators hb _ => ?_
  -- The conditions are children of the node.
  have hread : P.Keeps held b (Action.ask (·.conditionsOf operators n)) fun b r =>
      ∀ conditions offset, r = .ok (conditions, offset) → ∀ c ∈ conditions, P.Mine b c :=
    ask fun b' g hb' hg conditions offset hr c hc =>
      hg.child n c (hn.mono (Nat.le_trans hb hb')) (mem_of_mem_conditions hr hc)
  refine hread.bind fun b₁ r hb₁ hr => ?_
  refine (ofExcept r).bind fun b₂ found hb₂ hfound => ?_
  obtain ⟨conditions, offset⟩ := found
  have hle := Nat.le_trans (Nat.le_trans hb hb₁) hb₂
  have hrun : P.Keeps held b₂ (Action.forEach conditions (Keyword.runCondition engine n))
      fun _ _ => True := forEach fun b' hb' c hc =>
    runCondition he (hn.mono (Nat.le_trans hle hb'))
      ((hr conditions offset hfound c hc).mono (Nat.le_trans hb₂ hb'))
  refine hrun.bind fun b₃ _ hb₃ _ => ?_
  refine observeAny.bind fun b₄ v hb₄ _ => ?_
  refine (setBool (hn.mono (Nat.le_trans (Nat.le_trans hle hb₃) hb₄)) v).bind fun _ _ _ _ => ?_
  exact done _

theorem clearMarkers {n : NodeId} (hn : P.Mine bound n) :
    P.Keeps held bound (Keyword.clearMarkers n) fun _ _ => True :=
  (askFindAll hn _).bind fun _ _ _ hm => forEach fun _ hb' m hmem => untie ((hm m hmem).mono hb')

theorem evaluateCondition (he : engine.Keeping) {n : NodeId} (hn : P.Mine bound n) :
    P.Keeps held bound (Keyword.evaluateCondition engine n) fun _ _ => True := by
  refine holding ?_
  refine (attempt (testNode he hn)).bind fun b outcome hb _ => ?_
  refine (attempt (clearMarkers (hn.mono hb))).bind fun b₁ cleared _ _ => ?_
  have hout : P.Keeps ([n] ++ held) b₁ (Action.resume outcome) fun _ _ => True :=
    resume fun _ _ _ _ => trivial
  have hcleared : ∀ b₂, P.Keeps ([n] ++ held) b₂ (Action.resume cleared) fun _ _ => True :=
    fun _ => resume fun _ _ _ _ => trivial
  exact hout.bind fun b₂ _ _ _ => (hcleared b₂).bind fun _ _ _ _ => done _

theorem conditionalParent {n : NodeId} (hn : P.Mine bound n) :
    P.Keeps held bound (Keyword.conditionalParent n) P.Mine := by
  have hread : P.Keeps held bound
      (Action.observe fun f => (f.parent n).filter fun p => f.name p ≠ "")
      fun b r => ∀ p, r = some p → P.Mine b p :=
    observe fun _ _ hb hg p hp => hg.parent n p (hn.mono hb) (Option.filter_eq_some_iff.mp hp).1
  refine hread.bind fun b r hb hr => ?_
  cases r with
  | none => exact askAny.bind fun _ _ _ _ => fail _
  | some p => exact pure fun _ hb' => (hr p rfl).mono hb'

theorem previousCondition {n : NodeId} (hn : P.Mine bound n) :
    P.Keeps held bound (Keyword.previousCondition n) fun b r => P.Mine b r.1 := by
  refine (conditionalParent hn).bind fun b parent hb hp => ?_
  refine askAny.bind fun b₁ hadValue hb₁ _ => ?_
  refine observeAny.bind fun b₂ value hb₂ _ => ?_
  have hp₂ := hp.mono (Nat.le_trans hb₁ hb₂)
  refine (setBool hp₂ value).bind fun b₃ _ hb₃ _ => ?_
  refine observeAny.bind fun b₄ previous hb₄ _ => ?_
  have hp₄ := hp₂.mono (Nat.le_trans hb₃ hb₄)
  cases previous with
  | some previous => exact pure fun _ hb' => hp₄.mono hb'
  | none =>
    dsimp only
    split
    · exact pure fun _ hb' => hp₄.mono hb'
    · exact askAny.bind fun _ _ _ _ => fail _

theorem setMarker {n : NodeId} (hn : P.Mine bound n) (value : Bool) :
    P.Keeps held bound (Keyword.setMarker n value) fun _ _ => True := by
  refine (askFind hn _).bind fun b r hb hr => ?_
  cases r with
  | some marker => exact setBool (hr marker rfl) value
  | none =>
    refine (createWith _ (by rintro m ⟨⟩)).bind fun b₁ marker hb₁ hm => ?_
    exact insert (hn.mono (Nat.le_trans hb hb₁)) hm _

/-! ## Assignments -/

theorem destination (n : NodeId) : P.Keeps held bound (Keyword.destination n) fun _ _ => True := by
  refine askAny.bind fun b v _ _ => ?_
  split
  · exact done _
  · exact askAny.bind fun _ _ _ _ => fail _

theorem mineIn_carried {g : Forest} (hg : P.Closed bound g) {n : NodeId} (hn : P.Mine bound n) :
    P.MineIn bound (Keyword.carried g n) := by
  unfold Keyword.carried
  split
  · rename_i v hv
    exact hv ▸ hg.singleValue hn
  · intro m hm
    obtain ⟨c, hc, hcm⟩ := Option.map_eq_some_iff.mp hm
    obtain rfl := Value.node.inj hcm
    exact hg.child? hn hc

theorem assigned (he : engine.Keeping) {n : NodeId} (hn : P.Mine bound n) :
    P.Keeps held bound (Keyword.assigned engine n) P.MineIn := by
  have hcarried : ∀ {b : Nat} {m : NodeId}, P.Mine b m →
      P.Keeps held b (Action.observe (Keyword.carried · m)) P.MineIn := fun hm =>
    observe fun _ _ hb hg => mineIn_carried hg (hm.mono hb)
  have hnone : ∀ {b : Nat}, P.Keeps held b (Pure.pure none : Action (Option LiveValue)) P.MineIn :=
    pure fun _ _ => by rintro m ⟨⟩
  refine (askFind hn _).bind fun b r hb hr => ?_
  cases r with
  | some source => exact hcarried (hr source rfl)
  | none =>
    have hlast : P.Keeps held b (Action.ask fun f => (f.children n).getLast?)
        fun b r => ∀ c, r = some c → P.Mine b c := ask fun _ _ hb' hg c hc =>
      hg.child n c (hn.mono (Nat.le_trans hb hb')) (List.mem_of_getLast? hc)
    refine hlast.bind fun b₁ r hb₁ hr => ?_
    cases r with
    | none => exact hnone
    | some statement =>
      refine askAny.bind fun b₂ name hb₂ _ => ?_
      have hs := (hr statement rfl).mono hb₂
      split
      · exact hnone
      · exact (raise he name hs).bind fun b₃ _ hb₃ _ => hcarried (hs.mono hb₃)

/-- A copy takes the place of a node. The copy is not above the node, since it is new. -/
theorem copyInPlace {n : NodeId} (hn : P.Mine bound n) (replacement : NodeId) :
    P.Keeps held bound (do
      let other ← Action.copy replacement
      Action.replace n other) fun _ _ => True := by
  refine ⟨fun hold w _ hw hb => ?_⟩
  have hc := Forest.copied hw.tended.wellFormed replacement
  generalize hcopy : w.forest.copy replacement = copied at hc
  obtain ⟨other, g⟩ := copied
  have hg : P.Tended g := hw.tended.grow hc.grown hc.wellFormed
  have hafter : P.After w { w with forest := g } := ⟨hg, hc.grown.size_le, rfl, rfl, rfl⟩
  have hrun : (Action.copy replacement).result hold w = (.ok other, { w with forest := g }) := by
    rw [Action.copy, Action.result_grow, hcopy]
  have hnw : w.forest.Has n := (hn.mono hb).2
  have hne : other ≠ n := fun e => hc.not_has (e ▸ hnw)
  have hna : ¬ g.Above other n := fun h =>
    hc.not_has (hw.tended.wellFormed.has_above (hc.grown.above hw.tended.wellFormed h hnw))
  rw [Action.result_bind_ok hrun]
  refine Fine.after hafter ?_
  unfold Action.replace
  rw [Action.result_bind_ok (Action.result_observe _)]
  cases hf : (g.seen hold).replaceFault? n other with
  | some cause =>
    rw [Action.result_bind_error (Action.result_failIf_some _)]
    exact (hafter.ready hw).after
  | none =>
    rw [Action.result_bind_ok Action.result_failIf_none, Action.result_edit]
    have hpar : ∃ p, g.parent n = some p := by
      unfold Forest.replaceFault? at hf
      split at hf
      · cases hf
      · rename_i p hp
        exact ⟨p, (Forest.seen_pruned hc.wellFormed hold).parent n p hp⟩
    obtain ⟨p, hp⟩ := hpar
    have ht := hg.exchange hn.1 hp ⟨hw.tended.new_of_not_has hc.not_has, hc.has⟩ hne hna
    exact ⟨⟨ht, by simp, rfl, rfl, rfl⟩, trivial⟩

theorem replaceBy {n : NodeId} (hn : P.Mine bound n) (source : Option LiveValue) :
    P.Keeps held bound (Keyword.replaceBy source n) fun _ _ => True := by
  unfold Keyword.replaceBy
  split
  · exact untie hn
  · exact copyInPlace hn _
  · exact askAny.bind fun _ _ _ _ => fail _

theorem contributed {n : NodeId} (hn : P.Mine bound n) :
    P.Keeps held bound (Keyword.contributed n) fun _ _ => True := by
  refine (askValue hn).bind fun b v hb _ => ?_
  split
  · refine (observeSelect (hn.mono hb) _).bind fun b₁ found hb₁ hfound => ?_
    split
    · exact done _
    · have hvalues : P.Keeps held b₁ (Action.ask found.values)
          fun b vs => ∀ v ∈ vs, P.MineIn b v := ask fun _ _ hb' hg v hv =>
        hg.values (fun c hc => (hfound c hc).mono hb') hv
      refine hvalues.bind fun b₂ vs _ hvs => ?_
      have hnew : P.Keeps held b₂
          (Action.gather (vs.filterMap id) fun v => Action.createWith "" (some v))
          fun b ns => ∀ n ∈ ns, P.New b n := by
        refine gather (fun _ _ _ hle h => h.mono hle) fun b₃ hb₃ v hv => createWith _ ?_
        obtain ⟨v', hv', rfl⟩ := List.mem_filterMap.mp hv
        exact (hvs _ hv').mono hb₃
      exact hnew.any
  · exact done _
  · exact askAny

/-! ## Loops -/

theorem restore {n pristine : NodeId} (hn : P.Mine bound n) :
    P.Keeps held bound (Keyword.restore n pristine) fun _ _ => True := by
  have hclear : P.Keeps held bound (Action.edit (·.clear n)) fun _ _ => True :=
    edit fun _ ht _ => ⟨ht.clear hn.1, by simp⟩
  refine hclear.bind fun b _ hb _ => ?_
  refine askAny.bind fun b₁ v hb₁ _ => ?_
  refine (copyValue v).bind fun b₂ v hb₂ hv => ?_
  have hn₂ := hn.mono (Nat.le_trans (Nat.le_trans hb hb₁) hb₂)
  refine (setTo hn₂ hv).bind fun b₃ _ hb₃ _ => ?_
  refine askAny.bind fun b₄ children hb₄ _ => ?_
  exact appendCopies (hn₂.mono (Nat.le_trans hb₃ hb₄)) children

theorem restoring {n : NodeId} (hn : P.Mine bound n) {loop : NodeId → Action Flow}
    (h : ∀ b pristine, bound ≤ b → P.Keeps held b (loop pristine) P.NewFlow) :
    P.Keeps held bound (Keyword.restoring n loop) P.NewFlow := by
  refine (copy n).bind fun b pristine hb _ => ?_
  refine (attempt (h b pristine hb)).bind fun b₁ outcome hb₁ hout => ?_
  refine (restore (hn.mono (Nat.le_trans hb hb₁))).bind fun b₂ _ hb₂ _ => ?_
  exact resume fun b₃ flow hb₃ hflow => (hout flow hflow).mono (Nat.le_trans hb₂ hb₃)

theorem whilePasses (he : engine.Keeping) {n : NodeId} (hn : P.Mine bound n) (pristine : NodeId)
    (ceiling : Option Nat) (fuel passes : Nat) :
    P.Keeps held bound (Keyword.whilePasses engine n pristine ceiling fuel passes) P.NewFlow := by
  induction fuel generalizing bound passes with
  | zero => exact stall
  | succ fuel ih =>
    refine (evaluateCondition he hn).bind fun b condition hb _ => ?_
    split
    · have hceiling : P.Keeps held b (Keyword.checkCeiling ceiling passes) fun _ _ => True := by
        unfold Keyword.checkCeiling
        split
        · exact done _
        · split
          · exact fail _
          · exact done _
      refine hceiling.bind fun b₁ _ hb₁ _ => ?_
      have hn₁ := hn.mono (Nat.le_trans hb hb₁)
      refine (execute he _ hn₁).bind fun b₂ flow hb₂ hflow => ?_
      refine (restore (hn₁.mono hb₂)).bind fun b₃ _ hb₃ _ => ?_
      cases flow with
      | breaking => exact normal
      | returning r => exact pure fun b₄ hb₄ => hflow.mono (Nat.le_trans hb₃ hb₄)
      | normal => exact ih (hn₁.mono (Nat.le_trans hb₂ hb₃)) _
      | continuing => exact ih (hn₁.mono (Nat.le_trans hb₂ hb₃)) _
    · exact normal

theorem itemPasses (he : engine.Keeping) {n : NodeId} (hn : P.Mine bound n) (pristine : NodeId)
    (items : List (Option LiveValue)) :
    P.Keeps held bound (Keyword.itemPasses engine n pristine items) P.NewFlow := by
  induction items generalizing bound with
  | nil => exact normal
  | cons item rest ih =>
    refine (restore hn).bind fun b _ hb _ => ?_
    refine (copyValue item).bind fun b₁ v hb₁ hv => ?_
    refine (createWith _ hv).bind fun b₂ bound hb₂ hbound => ?_
    have hn₂ := hn.mono (Nat.le_trans (Nat.le_trans hb hb₁) hb₂)
    refine (insert hn₂ hbound _).bind fun b₃ _ hb₃ _ => ?_
    refine (holding (execute he 0 (hn₂.mono hb₃))).bind fun b₄ flow hb₄ hflow => ?_
    cases flow with
    | breaking => exact normal
    | returning r => exact pure fun b₅ hb₅ => hflow.mono hb₅
    | normal => exact ih (hn₂.mono (Nat.le_trans hb₃ hb₄))
    | continuing => exact ih (hn₂.mono (Nat.le_trans hb₃ hb₄))

/-! ## Branches -/

theorem earlierTaken (n : NodeId) : P.Keeps held bound (Keyword.earlierTaken n) fun _ _ => True := by
  refine observeAny.bind fun b taken _ _ => ?_
  cases taken with
  | some taken => exact done _
  | none => exact askAny.bind fun _ _ _ _ => fail _

theorem branch (he : engine.Keeping) {n : NodeId} (hn : P.Mine bound n) :
    P.Keeps held bound (Keyword.branch engine n) P.NewFlow := by
  refine (evaluateCondition he hn).bind fun b condition hb _ => ?_
  split
  · exact execute he _ (hn.mono hb)
  · exact normal

theorem addChild {n : NodeId} (hn : P.Mine bound n) (a : String) {v : Option LiveValue}
    (hv : P.MineIn bound v) :
    P.Keeps held bound (Action.grow (·.addChild n a v)) fun _ _ => True := by
  refine grow fun f ht hb => ?_
  have hc := ht.create a
  have hnew : ¬ f.Has ⟨f.size⟩ := Nat.lt_irrefl _
  have hcv : P.Tended ((f.create a).2.setValue ⟨f.size⟩ v) := by
    refine hc.setValue (ht.fenced.unborn _ hnew) (hv.mono ?_)
    rw [Forest.size_create]
    exact Nat.le_succ_of_le hb
  have hadded : P.Tended (f.addChild n a v).2 :=
    hcv.append (ht.wellFormed.attachable_created (hn.mono hb).2 a) hn.1 (ht.new_of_not_has hnew)
  exact ⟨hadded, by simp [Forest.addChild], trivial⟩

theorem mem_of_chosenBody? {f : Forest} {n c : NodeId} (h : f.chosenBody? n = some c) :
    c ∈ f.children n := by
  have hc : c ∈ f.chosenOn n := List.mem_of_find?_eq_some h
  unfold Forest.chosenOn at hc
  split at hc
  · exact List.dropWhile_subset _ hc
  · exact List.dropWhile_subset _ hc

end Keeps

end Plot

/-! ## Handlers -/

namespace Handler.Keeping

open Plot.Keeps

theorem lambda : Handler.Keeping Keyword.lambda := fun _ he _ _ _ hn => execute he 0 hn

theorem eval : Handler.Keeping Keyword.eval := fun _ he _ _ _ hn =>
  observeAny.bind fun _ targets hb _ =>
    thenNormal (evalEach he (hn.mono hb) targets)

theorem returnStatement : Handler.Keeping Keyword.returnStatement := by
  intro engine he P bound call hn
  refine askAny.bind fun b name hb _ => ?_
  refine (create name).bind fun b₁ returned hb₁ hr => ?_
  have hn₁ := hn.mono (Nat.le_trans hb hb₁)
  refine (observeSingleValue hn₁).bind fun b₂ v hb₂ _ => ?_
  refine (copyValue v).bind fun b₃ v hb₃ hv => ?_
  have hr₃ := hr.mono (Nat.le_trans hb₂ hb₃)
  refine (setTo hr₃.mine hv).bind fun b₄ _ hb₄ _ => ?_
  refine askAny.bind fun b₅ children hb₅ _ => ?_
  have hr₅ := hr₃.mono (Nat.le_trans hb₄ hb₅)
  refine (appendCopies hr₅.mine children).bind fun b₆ _ hb₆ _ => ?_
  refine Plot.Keeps.pure fun b₇ hb₇ n hflow => ?_
  obtain rfl := Flow.returning.inj hflow
  exact hr₅.mono (Nat.le_trans hb₆ hb₇)

theorem breakStatement : Handler.Keeping Keyword.breakStatement := fun _ _ _ _ _ _ =>
  Plot.Keeps.pure fun _ _ => by rintro n ⟨⟩

theorem continueStatement : Handler.Keeping Keyword.continueStatement := fun _ _ _ _ _ _ =>
  Plot.Keeps.pure fun _ _ => by rintro n ⟨⟩

theorem set : Handler.Keeping Keyword.set := by
  intro engine he P bound call hn
  refine (destination _).bind fun b selector hb _ => ?_
  refine (assigned he (hn.mono hb)).bind fun b₁ source hb₁ _ => ?_
  refine (observeSelect (hn.mono (Nat.le_trans hb hb₁)) selector).bind fun b₂ found _ hfound => ?_
  have hend : ∀ b, P.Keeps [call.node] b (pure Flow.normal) P.NewFlow := fun _ => normal
  dsimp only
  split
  · refine Plot.Keeps.bind (forEach fun b₃ hb₃ n hm => ?_) fun b₃ _ _ _ => hend b₃
    exact (copyValue source).bind fun b₄ v hb₄ hv =>
      setTo ((hfound n hm).mono (Nat.le_trans hb₃ hb₄)) hv
  · refine askAny.bind fun b₃ name hb₃ _ => ?_
    refine Plot.Keeps.bind (forEach fun b₄ _ n hm => ?_) fun b₄ _ _ _ => hend b₄
    exact edit fun _ ht _ => ⟨ht.setName (hfound n hm).1 name, by simp⟩
  · refine Plot.Keeps.bind (holding (forEach fun b₃ hb₃ n hm => ?_)) fun b₃ _ _ _ => hend b₃
    exact replaceBy ((hfound n hm).mono hb₃) source
  · exact (refused _).bind fun b₃ _ _ _ => hend b₃

theorem add : Handler.Keeping Keyword.add := by
  intro engine he P bound call hn
  refine (destination _).bind fun b selector hb _ => ?_
  refine (observeSelect (hn.mono hb) selector).bind fun b₁ found hb₁ hfound => ?_
  -- Copies of copies are put below each node that was found.
  have hcopies : ∀ b₂, b₁ ≤ b₂ → P.Keeps [call.node] b₂ (do
      let sources ← Action.ask (·.findAll call.node Keyword.sourceName)
      let copies ← Action.gather sources fun source => do
        Action.gather (← Keyword.contributed source) Action.copy
      Action.forEach found.nodes fun destination =>
        Action.forEach copies.flatten fun n => do
          let child ← Action.copy n
          Action.insert destination none child
      return Flow.normal) P.NewFlow := by
    intro b₂ hb₂
    refine (askFindAll (hn.mono (Nat.le_trans (Nat.le_trans hb hb₁) hb₂)) _).bind
      fun b₃ sources hb₃ hsources => ?_
    have hgather : P.Keeps [call.node] b₃ (Action.gather sources fun source => do
        Action.gather (← Keyword.contributed source) Action.copy) fun _ _ => True := by
      refine gatherAny fun b₄ source hb₄ hs => ?_
      refine (contributed ((hsources source hs).mono hb₄)).bind fun b₅ nodes _ _ => ?_
      exact gatherAny fun _ n _ _ => (copy n).any
    refine hgather.bind fun b₄ copies hb₄ _ => ?_
    refine thenNormal (forEach fun b₅ hb₅ d hd => ?_)
    exact appendCopies
      ((hfound d hd).mono (Nat.le_trans (Nat.le_trans hb₂ hb₃) (Nat.le_trans hb₄ hb₅))) _
  dsimp only
  split
  · exact (refused _).bind fun b₂ _ hb₂ _ => hcopies b₂ hb₂
  · exact hcopies b₁ (Nat.le_refl _)

theorem compared (test : Ordering → Bool) : Handler.Keeping (Keyword.compared test) := by
  intro engine he P bound call hn
  refine (conditionalParent hn).bind fun b parent hb _ => ?_
  refine observeAny.bind fun b₁ sides hb₁ _ => askAny.bind fun b₂ order hb₂ _ => thenNormal ?_
  exact setBool (hn.mono (Nat.le_trans hb (Nat.le_trans hb₁ hb₂))) _

theorem containing (wanted : Bool) : Handler.Keeping (Keyword.containing wanted) := by
  intro engine he P bound call hn
  refine (conditionalParent hn).bind fun b parent hb _ => ?_
  refine observeAny.bind fun b₁ found hb₁ _ => thenNormal ?_
  exact setBool (hn.mono (Nat.le_trans hb hb₁)) _

theorem naming (names : List String) : Handler.Keeping (Keyword.naming names) := by
  intro engine he P bound call hn
  refine thenNormal (forEach fun b hb name _ => ?_)
  exact (addChild (hn.mono hb) name (by rintro m ⟨⟩)).bind fun _ _ _ _ => done _

theorem or : Handler.Keeping Keyword.or := by
  intro engine he P bound call hn
  refine (previousCondition hn).bind fun b found hb hparent => ?_
  obtain ⟨parent, previous⟩ := found
  refine askAny.bind fun b₁ isTrue hb₁ _ => ?_
  have hn₁ := hn.mono (Nat.le_trans hb hb₁)
  have hparent₁ : P.Mine b₁ parent := hparent.mono hb₁
  dsimp only
  split
  · exact (setBool hn₁ true).bind fun b₂ _ hb₂ _ => thenNormal (setMarker (hparent₁.mono hb₂) true)
  · refine thenNormal (holding ?_)
    refine (evaluateCondition he hn₁).bind fun b₂ own hb₂ _ => ?_
    split
    · exact setMarker (hparent₁.mono hb₂) false
    · exact clearMarkers (hparent₁.mono hb₂)

theorem and : Handler.Keeping Keyword.and := by
  intro engine he P bound call hn
  refine (previousCondition hn).bind fun b found hb _ => ?_
  obtain ⟨parent, previous⟩ := found
  refine askAny.bind fun b₁ marked hb₁ _ => ?_
  have hn₁ := hn.mono (Nat.le_trans hb hb₁)
  dsimp only
  split
  · exact thenNormal (setBool hn₁ true)
  · refine askAny.bind fun b₂ isTrue hb₂ _ => ?_
    split
    · exact (holding (evaluateCondition he (hn₁.mono hb₂))).bind fun _ _ _ _ => thenNormal (done ())
    · exact thenNormal (setBool (hn₁.mono hb₂) false)

theorem not : Handler.Keeping Keyword.not := by
  intro engine he P bound call hn
  refine askAny.bind fun b misplaced hb _ => ?_
  have hrest : ∀ b', b ≤ b' → P.Keeps [call.node] b' (do
      let found ← Keyword.previousCondition call.node
      Keyword.clearMarkers found.1
      let value ← Keyword.isTrue found.2
      Action.setValue call.node (.bool !value)
      return Flow.normal) P.NewFlow := by
    intro b' hb'
    have hn' := hn.mono (Nat.le_trans hb hb')
    refine (previousCondition hn').bind fun b₁ found hb₁ hparent => ?_
    obtain ⟨parent, previous⟩ := found
    refine (clearMarkers hparent).bind fun b₂ _ hb₂ _ => ?_
    refine askAny.bind fun b₃ value hb₃ _ => thenNormal ?_
    exact setBool (hn'.mono (Nat.le_trans (Nat.le_trans hb₁ hb₂) hb₃)) _
  dsimp only
  split
  · exact (refused _).bind fun b' _ hb' _ => hrest b' hb'
  · exact hrest b (Nat.le_refl _)

theorem ifBranch : Handler.Keeping Keyword.ifBranch := fun _ he _ _ _ hn => branch he hn

theorem elseIfBranch : Handler.Keeping Keyword.elseIfBranch := by
  intro engine he P bound call hn
  refine (earlierTaken _).bind fun b taken hb _ => ?_
  split
  · exact normal
  · exact branch he (hn.mono hb)

theorem elseBranch : Handler.Keeping Keyword.elseBranch := by
  intro engine he P bound call hn
  refine askAny.bind fun b hasValue hb _ => ?_
  have hrest : ∀ b', b ≤ b' → P.Keeps [call.node] b' (do
      if ← Keyword.earlierTaken call.node then return Flow.normal
      else Keyword.execute engine call.node 0) P.NewFlow := by
    intro b' hb'
    refine (earlierTaken _).bind fun b₁ taken hb₁ _ => ?_
    split
    · exact normal
    · exact execute he 0 (hn.mono (Nat.le_trans hb (Nat.le_trans hb' hb₁)))
  dsimp only
  split
  · exact (refused _).bind fun b' _ hb' _ => hrest b' hb'
  · exact hrest b (Nat.le_refl _)

theorem whileLoop : Handler.Keeping Keyword.whileLoop := fun _ he _ _ _ hn =>
  restoring hn fun _ pristine hb => askAny.bind fun _ ceiling hb' _ =>
    whilePasses he (hn.mono (Nat.le_trans hb hb')) pristine ceiling _ 0

theorem forEachLoop : Handler.Keeping Keyword.forEachLoop := by
  intro engine he P bound call hn
  refine observeAny.bind fun b items hb _ => ?_
  refine (ofExcept items).bind fun b₁ items hb₁ _ => ?_
  have hn₁ := hn.mono (Nat.le_trans hb hb₁)
  exact restoring hn₁ fun b₂ pristine hb₂ => itemPasses he (hn₁.mono hb₂) pristine items

theorem switch : Handler.Keeping Keyword.switch := by
  intro engine he P bound call hn
  refine askAny.bind fun b fault hb _ => ?_
  refine (failIf fault).bind fun b₁ _ hb₁ _ => ?_
  refine observeAny.bind fun b₂ value hb₂ _ => ?_
  have hn₂ := hn.mono (Nat.le_trans (Nat.le_trans hb hb₁) hb₂)
  have hbody : P.Keeps [call.node] b₂ (Action.observe (·.chosenBody? call.node))
      fun b r => ∀ c, r = some c → P.Mine b c :=
    observe fun _ _ hb' hg c hc => hg.child _ c (hn₂.mono hb') (mem_of_chosenBody? hc)
  refine hbody.bind fun b₃ body hb₃ hm => ?_
  cases body with
  | some body => exact holding (execute he 0 (hm body rfl))
  | none => exact normal

end Handler.Keeping

end EventTree
