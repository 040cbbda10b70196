import EventTree.Proofs.Core
import EventTree.Proofs.Plot.Traps

/-!
# Core machines keep to a plot

Declared events keep to the plot of their node too, so all handlers of the core do. By induction on
patience every event that a core machine raises keeps to the plot of the node it is raised on.
-/

namespace EventTree

open Plot

namespace Plot.Keeps

variable {P : Plot} {held : List NodeId} {bound : Nat} {engine : Engine}

theorem askBase : P.Keeps held bound (Action.askSession (·.currentBase))
    fun b base => ∀ call, base = some call → P.Mine b call.node :=
  ⟨fun _ _ _ hw _ => ⟨hw.after, hw.base⟩⟩

theorem askBindings (key : String) :
    P.Keeps held bound (Action.askSession (·.bindingsOf key)) fun _ bindings => bindings = [] :=
  ⟨fun _ w _ hw _ => ⟨hw.after, by simp [Session.bindingsOf, hw.bindings]⟩⟩

/-! ## Declared events -/

/-- The base stays on the stack while the bodies run and is taken off whatever became of them. -/
theorem runBodies (he : engine.Keeping) {base : Option Call}
    (hbase : ∀ call, base = some call → P.Mine bound call.node) {bodies : List NodeId}
    (hbodies : ∀ body ∈ bodies, P.Mine bound body) :
    P.Keeps held bound (Keyword.runBodies engine base bodies)
      fun b outcome => ∀ flow, outcome = .ok flow → P.NewFlow b flow := by
  refine ⟨fun hold w hh hw hb => ?_⟩
  let w₁ : World := { w with session := { w.session with bases := base :: w.session.bases } }
  have hw₁ : P.Ready w₁ := ⟨hw.tended, hw.bindings, fun call hc => (hbase call hc).mono hb⟩
  have hrun : P.Keeps held bound (Action.inTurn bodies fun body => engine.raiseFlow "lambda" body)
      P.NewFlow :=
    inTurn fun b hb' body hm => he.raiseFlow P held b _ body ((hbodies body hm).mono hb')
  -- There was one base more on the stack, and only while the bodies ran.
  have hafter : ∀ {w₂ : World}, P.After w₁ w₂ →
      P.After w { w₂ with session := { w₂.session with bases := w₂.session.bases.tail } } :=
    fun h => ⟨h.tended, h.size_le, h.bindings, h.depth, by simp [h.bases, w₁]⟩
  have hrest := hrun.fine hold w₁ hh hw₁ hb
  unfold Keyword.runBodies
  rw [Action.result_bind_ok (Action.result_editSession _), Action.result_bind, Action.result_attempt]
  revert hrest
  match (Action.inTurn bodies fun body => engine.raiseFlow "lambda" body).result hold w₁ with
  | (.ok flow, w₂) => exact fun hrest => ⟨hafter hrest.1, fun flow' h => Except.ok.inj h ▸ hrest.2⟩
  | (.error (.error e), w₂) => exact fun hrest => ⟨hafter hrest, fun _ h => by cases h⟩
  | (.error .stalled, _) => exact fun _ => trivial

theorem untieFrom (n : NodeId) {nodes : List NodeId} (h : ∀ m ∈ nodes, P.Mine bound m) :
    P.Keeps held bound (Keyword.untieFrom n nodes) fun _ _ => True := by
  refine forEach fun b hb m hm => ?_
  refine askAny.bind fun b₁ parent hb₁ _ => ?_
  split
  · exact untie ((h m hm).mono (Nat.le_trans hb hb₁))
  · exact done _

theorem addOverride (base super : String) :
    P.Keeps held bound (Keyword.addOverride base super) fun _ _ => True := by
  refine askStore.bind fun b fault _ _ => ?_
  refine editStore.bind fun b₁ _ _ _ => ?_
  refine (failIf fault).bind fun b₂ _ _ _ => ?_
  refine askSession.bind fun b₃ closes _ _ => ?_
  split
  · exact editStore.bind fun _ _ _ _ => fail _
  · exact editOverrides

theorem listNames {n : NodeId} (hn : P.Mine bound n) (filters : List String) (origin : String)
    (names : List String) :
    P.Keeps held bound (Keyword.listNames n filters origin names) fun _ _ => True := by
  refine forEach fun b hb name _ => ?_
  split
  · exact (addChild (hn.mono hb) origin (by rintro m ⟨⟩)).bind fun _ _ _ _ => done _
  · exact done _

end Plot.Keeps

namespace Handler.Keeping

open Plot.Keeps

theorem declareEvent : Handler.Keeping Keyword.declareEvent := by
  intro engine he P bound call hn
  refine observeAny.bind fun b names _ _ => ?_
  refine (ofExcept names).bind fun b₁ names _ _ => ?_
  refine askAny.bind fun b₂ bodies _ _ => ?_
  have hrest : ∀ b₃, P.Keeps [call.node] b₃ (do
      Action.forEach names fun name => Action.editStore (·.declare name bodies)
      return Flow.normal) P.NewFlow := fun b₃ => thenNormal (forEach fun _ _ _ _ => editStore)
  dsimp only
  split
  · exact (refused _).bind fun b₃ _ _ _ => hrest b₃
  · exact hrest b₂

theorem removeEvent : Handler.Keeping Keyword.removeEvent := by
  intro engine he P bound call hn
  refine observeAny.bind fun b names _ _ => ?_
  refine (ofExcept names).bind fun b₁ names _ _ => thenNormal ?_
  exact forEach fun _ _ _ _ => editStore

theorem node_of_base? {call base : Call} (h : call.base? = some base) : base.node = call.node := by
  unfold Call.base? at h
  split at h
  · cases h
  · rw [← Option.some.inj h]

theorem runDeclared : Handler.Keeping Keyword.runDeclared := by
  intro engine he P bound call hn
  refine askStore.bind fun b bodies hb _ => ?_
  cases bodies with
  | none => exact normal
  | some snapshots =>
    have htrees : P.Keeps [call.node] b (Action.gather snapshots fun t => Action.ofExcept t.readSelectors)
        fun _ _ => True := gatherAny fun _ t _ _ => (Plot.Keeps.ofExcept t.readSelectors).any
    refine htrees.bind fun b₁ trees hb₁ _ => ?_
    refine (gather (fun _ _ _ hle h => h.mono hle) fun _ _ t _ => plant t).bind
      fun b₂ bodies hb₂ hnew => ?_
    have hn₂ := hn.mono (Nat.le_trans (Nat.le_trans hb hb₁) hb₂)
    refine (insertAllLast hn₂ hnew).bind fun b₃ _ hb₃ _ => ?_
    have hbodies : ∀ b', b₂ ≤ b' → ∀ body ∈ bodies, P.Mine b' body := fun b' hb' body hm =>
      ((hnew body hm).mono hb').mine
    refine (runBodies he (fun c hc => ?_) (hbodies b₃ hb₃)).bind fun b₄ outcome hb₄ hout => ?_
    · rw [node_of_base? hc]
      exact hn₂.mono hb₃
    refine (untieFrom _ (hbodies b₄ (Nat.le_trans hb₃ hb₄))).bind fun b₅ _ hb₅ _ => ?_
    have hresume : P.Keeps [call.node] b₅ (Action.resume outcome) P.NewFlow :=
      resume fun b' flow hb' hf => (hout flow hf).mono (Nat.le_trans hb₅ hb')
    refine hresume.bind fun b₆ flow hb₆ hflow => thenNormal ?_
    exact Plot.Keeps.settleOn (hn₂.mono (Nat.le_trans (Nat.le_trans hb₃ hb₄) (Nat.le_trans hb₅ hb₆))) hflow

theorem overrideEvent : Handler.Keeping Keyword.overrideEvent := by
  intro engine he P bound call hn
  refine observeAny.bind fun b pairs _ _ => ?_
  refine (ofExcept pairs).bind fun b₁ pairs _ _ => thenNormal ?_
  exact forEach fun _ _ pair _ => addOverride pair.1 pair.2

theorem removeOverride : Handler.Keeping Keyword.removeOverride := by
  intro engine he P bound call hn
  refine observeAny.bind fun b pairs _ _ => ?_
  refine (ofExcept pairs).bind fun b₁ pairs _ _ => thenNormal ?_
  exact forEach fun _ _ pair _ => editOverrides.bind fun _ _ _ _ => editStore

theorem callBase : Handler.Keeping Keyword.callBase := by
  intro engine he P bound call hn
  refine askBase.bind fun b base _ hbase => ?_
  cases base with
  | some base => exact he.raiseDirect P _ b base (hbase base rfl)
  | none => exact normal

theorem takeOverrides : Handler.Keeping Keyword.takeOverrides := by
  intro engine he P bound call hn
  refine editStore.bind fun b _ _ _ => ?_
  refine askStore.bind fun b₁ overrides _ _ => thenNormal (forEach fun b₂ _ pair _ => ?_)
  refine askSession.bind fun b₃ closes _ _ => ?_
  split
  · exact done _
  · exact editOverrides

theorem listEvents : Handler.Keeping Keyword.listEvents := by
  intro engine he P bound call hn
  refine observeAny.bind fun b filters hb _ => ?_
  refine askSession.bind fun b₁ instances hb₁ _ => ?_
  refine editStore.bind fun b₂ _ hb₂ _ => ?_
  refine askStore.bind fun b₃ declared hb₃ _ => ?_
  have hn₃ := hn.mono (Nat.le_trans (Nat.le_trans hb hb₁) (Nat.le_trans hb₂ hb₃))
  refine (listNames hn₃ _ _ _).bind fun b₄ _ hb₄ _ => ?_
  refine (listNames (hn₃.mono hb₄) _ _ _).bind fun b₅ _ hb₅ _ => ?_
  exact thenNormal (listNames (hn₃.mono (Nat.le_trans hb₄ hb₅)) _ _ _)

end Handler.Keeping

/-! ## The core -/

section Core

open Handler.Keeping

theorem HandlerUnit.ofHandlers_keeping {name : String} {handlers : List (String × Handler)}
    (h : handlers.Forall fun entry => Handler.Keeping entry.2) :
    ∀ entry ∈ (HandlerUnit.ofHandlers name handlers).statics, Handler.Keeping entry.handler := by
  intro entry he
  obtain ⟨pair, hp, rfl⟩ := List.mem_map.mp he
  exact List.forall_iff_forall_mem.mp h pair hp

theorem comparisons_keeping : Keyword.comparisons.Forall fun entry => Handler.Keeping entry.2 :=
  ⟨compared _, compared _, compared _, compared _, compared _, compared _, containing _, containing _⟩

theorem declarationUnit_keeping :
    ∀ entry ∈ Keyword.declarationUnit.statics, Handler.Keeping entry.handler := by
  intro entry he
  rcases List.mem_append.mp he with he | he
  · refine HandlerUnit.ofHandlers_keeping ?_ entry he
    exact ⟨declareEvent, removeEvent, overrideEvent, removeOverride, callBase, listEvents,
      takeOverrides⟩
  · rw [List.mem_singleton.mp he]
    exact runDeclared

theorem coreUnits_keeping : ∀ u ∈ coreUnits, ∀ entry ∈ u.statics, Handler.Keeping entry.handler := by
  have hcomparison : (Keyword.comparisons ++ [(Keyword.operatorsEvent,
      Keyword.naming (Keyword.comparisons.map (·.1)))]).Forall fun entry => Handler.Keeping entry.2 :=
    (List.forall_append ..).mpr ⟨comparisons_keeping, naming _⟩
  refine List.forall_iff_forall_mem.mp ?_
  exact ⟨HandlerUnit.ofHandlers_keeping
      ⟨lambda, eval, returnStatement, breakStatement, continueStatement⟩,
    HandlerUnit.ofHandlers_keeping ⟨set, add⟩,
    HandlerUnit.ofHandlers_keeping hcomparison,
    HandlerUnit.ofHandlers_keeping ⟨or, and, not, naming _⟩,
    HandlerUnit.ofHandlers_keeping ⟨ifBranch, elseIfBranch, elseBranch⟩,
    HandlerUnit.ofHandlers_keeping ⟨whileLoop, forEachLoop⟩,
    HandlerUnit.ofHandlers_keeping ⟨tryBlock, catchBlock, finallyBlock, throwStatement⟩,
    HandlerUnit.ofHandlers_keeping switch,
    declarationUnit_keeping⟩

theorem coreTable_keeping : ∀ entry ∈ coreTable.statics, Handler.Keeping entry.2 := by
  intro entry he
  obtain ⟨u, hu, he⟩ := List.mem_flatMap.mp he
  obtain ⟨static, hs, rfl⟩ := List.mem_map.mp he
  exact coreUnits_keeping u hu static hs

end Core

/-! ## Raising events -/

namespace Plot.Keeps

variable {P : Plot} {held : List NodeId} {bound : Nat}

theorem entering {limit : Nat} {event : String} {act : Action Flow}
    (h : P.Keeps held bound act P.NewFlow) :
    P.Keeps held bound (Action.entering limit event act) P.NewFlow := by
  refine ⟨fun hold w hh hw hb => ?_⟩
  by_cases hlimit : limit ≤ w.session.depth
  · rw [Action.result_entering_of_le hlimit]
    exact hw.after
  · rw [Action.result_entering_of_lt (Nat.lt_of_not_le hlimit)]
    have hdeeper : P.Ready w.deeper := ⟨hw.tended, hw.bindings, hw.base⟩
    have hrest := h.fine hold w.deeper hh hdeeper hb
    have hafter : ∀ {w' : World}, P.After w.deeper w' → P.After w w'.shallower := fun h =>
      ⟨h.tended, h.size_le, h.bindings, by simp [World.shallower, World.deeper, h.depth], h.bases⟩
    revert hrest
    obtain ⟨(e | _) | flow, w'⟩ := act.result hold w.deeper
    · exact fun hrest => hafter hrest
    · exact fun _ => trivial
    · exact fun hrest => ⟨hafter hrest.1, hrest.2⟩

theorem invoke {m : Machine} (hm : ∀ entry ∈ m.table.statics, Handler.Keeping entry.2)
    {engine : Engine} (he : engine.Keeping) {call : Call} (hn : P.Mine bound call.node) :
    P.Keeps held bound (m.invoke engine call) P.NewFlow := by
  refine holding (inTurn fun b hb key _ => andThen (inTurn fun b' hb' handler hh => ?_) fun b' hb' => ?_)
  · have hk : Handler.Keeping handler := by
      obtain ⟨entry, hentry, rfl⟩ := List.mem_map.mp hh
      exact hm entry (List.mem_filter.mp hentry).1
    have hn' := hn.mono (Nat.le_trans hb hb')
    exact (hk engine he P b' call hn').widen (List.subset_append_left _ _)
  · refine (askBindings key).bind fun b'' bindings _ hnone => ?_
    subst hnone
    exact normal

end Plot.Keeps

theorem Machine.perform_keeps {m : Machine} (hm : ∀ entry ∈ m.table.statics, Handler.Keeping entry.2)
    (patience : Nat) (route : Route) (call : Call) {P : Plot} {held : List NodeId} {bound : Nat}
    (hn : P.Mine bound call.node) :
    P.Keeps held bound (m.perform patience route call) P.NewFlow := by
  induction patience generalizing route call P held bound with
  | zero => exact Plot.Keeps.stall
  | succ patience ih =>
    have he : (m.engine patience (m.perform patience)).Keeping :=
      ⟨fun P held bound event n hn => ih _ (.plain event n) hn, fun P held bound call hn => ih _ call hn⟩
    refine Plot.Keeps.entering (Plot.Keeps.askSession.bind fun b supers hb _ => ?_)
    split
    · exact Plot.Keeps.inTurn fun b' hb' super _ =>
        ih _ (call.sentOn super) (hn.mono (Nat.le_trans hb hb'))
    · exact Plot.Keeps.invoke hm he (hn.mono hb)

/-- Every event that a core machine raises keeps to the plot of its node. -/
theorem Machine.IsCore.keeping {m : Machine} (hm : m.IsCore) (patience : Nat) :
    (m.engine patience (m.perform patience)).Keeping := by
  have hh : ∀ entry ∈ m.table.statics, Handler.Keeping entry.2 := hm.table_eq ▸ coreTable_keeping
  exact ⟨fun P held bound event n hn => perform_keeps hh patience _ (.plain event n) hn,
    fun P held bound call hn => perform_keeps hh patience _ call hn⟩

end EventTree
