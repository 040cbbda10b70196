import EventTree.Proofs.Condition.Operands
import EventTree.Proofs.Raising

/-!
# Evaluating conditions

A conditional expression is tested from left to right. After each of its statements the node shows the
reading of all that stands before the next one, so in the end it shows what the expression means.
-/

namespace EventTree

open EventTree.Action Keyword

/-! ## The names of operators -/

namespace Keyword

/-- The names of all operators of conditions. -/
def operators : List String := comparisons.map (·.1) ++ ["or", "and", "not"]

theorem result_naming (names : List String) (engine : Engine) (event : String) (n : NodeId) (hold : Hold)
    (w : World) (f : Forest) :
    (naming names engine (.plain event n)).result hold (w.on f) =
      (.ok .normal, w.on (f.plantBelow n (names.map fun name => ⟨name, none, []⟩))) := by
  have hgrow : ∀ f, (forEach names fun name => do
      let _ ← grow (·.addChild n name none)).result hold (w.on f) =
        (.ok (), w.on (f.plantBelow n (names.map fun name => ⟨name, none, []⟩))) := by
    induction names with
    | nil =>
      intro f
      rw [List.map_nil, Forest.plantBelow]
      rfl
    | cons name names ih =>
      intro f
      have hplant : (Forest.plant ⟨name, none, []⟩ f).2.append n (Forest.plant ⟨name, none, []⟩ f).1 =
          (f.addChild n name none).2 := by
        rw [Forest.plant_eq, Forest.plantBelow, Forest.plantValue]
        rfl
      have hstep : (do let _ ← grow (·.addChild n name none) : Action Unit).result hold (w.on f) =
          (.ok (), w.on (f.addChild n name none).2) := rfl
      rw [forEach, result_bind_ok hstep, ih, List.map_cons, Forest.plantBelow_cons, hplant]
  rw [naming]
  dsimp only [Call.plain]
  rw [result_bind_ok (hgrow f)]
  rfl

theorem handlersOf_operators : coreTable.handlersOf operatorsEvent =
    [naming (comparisons.map (·.1)), naming ["or", "and", "not"]] := rfl

theorem handlersOf_comparison {entry : String × Handler} (h : entry ∈ comparisons) :
    coreTable.handlersOf entry.1 = [entry.2] := by
  have hall : comparisons.Forall fun entry => coreTable.handlersOf entry.1 = [entry.2] :=
    ⟨rfl, rfl, rfl, rfl, rfl, rfl, rfl, rfl⟩
  exact List.forall_iff_forall_mem.mp hall entry h

/-- Nothing stands in for an operator or for the event that names them. -/
def PlainOperators (w : World) : Prop := ∀ event ∈ operatorsEvent :: operators, w.Plain event

theorem PlainOperators.deeper {w : World} (h : PlainOperators w) : PlainOperators w.deeper :=
  fun event he => (h event he).deeper

theorem PlainOperators.on {w : World} (h : PlainOperators w) (f : Forest) : PlainOperators (w.on f) :=
  fun event he => (h event he).of_eq rfl rfl

section Names

variable {m : Machine} (hm : m.IsCore) {w : World} (hw : PlainOperators w)
  (hdepth : w.session.depth < m.settings.maxDepth) {f : Forest} (wf : f.WellFormed) (patience : Nat)
  (hold : Hold)

include hm hw hdepth wf

theorem raise_operators {n : NodeId} (hn : f.Has n) (hnone : f.children n = []) :
    ∃ g, ((m.engine (patience + 1) (m.perform (patience + 1))).raiseFlow operatorsEvent n).result hold
        (w.on f) = (.ok .normal, w.on g) ∧
      f.PlantedBelow n g ∧ (g.children n).map g.name = operators := by
  let leaf : String → Tree Selector := fun name => ⟨name, none, []⟩
  have h₁ := Forest.plantedBelow n ((comparisons.map (·.1)).map leaf) f wf hn
  have h₂ := Forest.plantedBelow n (["or", "and", "not"].map leaf) _ h₁.wellFormed h₁.has
  have hnames := Forest.names_plantBelow h₁.wellFormed (["or", "and", "not"].map leaf) h₁.has
  rw [Forest.names_plantBelow wf _ hn, hnone] at hnames
  -- Comparisons and logic each name their own operators.
  have hkeywords : (m.keywords patience operatorsEvent n).result (hold.adding [n]) (w.on f).deeper =
      (.ok .normal, w.deeper.on (Forest.plantBelow n (["or", "and", "not"].map leaf)
        (Forest.plantBelow n ((comparisons.map (·.1)).map leaf) f))) := by
    rw [World.deeper_on, Machine.keywords, handlersOf_operators, inTurn,
      result_andThen_normal (result_naming _ _ _ _ _ w.deeper f), inTurn,
      result_andThen_normal (result_naming _ _ _ _ _ w.deeper _)]
    rfl
  have hplanted : f.PlantedBelow n (Forest.plantBelow n (["or", "and", "not"].map leaf)
      (Forest.plantBelow n ((comparisons.map (·.1)).map leaf) f)) :=
    ⟨h₂.wellFormed, h₂.has, h₂.parent.trans h₁.parent, fun e he hf =>
      h₂.grown e he (h₁.grown e he hf)⟩
  generalize Forest.plantBelow n (["or", "and", "not"].map leaf) _ = g at hkeywords hnames hplanted
  refine ⟨g, ?_, hplanted, hnames.trans rfl⟩
  rw [Machine.result_raiseFlow hm (by decide) (hw.on f operatorsEvent List.mem_cons_self) hdepth,
    hkeywords]
  · rfl
  · intro w' hw'
    rw [hkeywords] at hw'
    exact (Prod.mk.inj hw').2 ▸ hw.deeper.on _ operatorsEvent List.mem_cons_self

theorem operatorNames_grows :
    ∃ g, (operatorNames (m.engine (patience + 1) (m.perform (patience + 1)))).result hold (w.on f) =
        (.ok operators, w.on g) ∧ f.Grown g ∧ g.WellFormed := by
  have hnew : ¬ f.Has ⟨f.size⟩ := Nat.lt_irrefl _
  have hnone : (f.create operatorsEvent).2.children ⟨f.size⟩ = [] := by
    rw [Forest.children, Forest.cell_create_self]
    rfl
  have hcreate : (create operatorsEvent).result hold (w.on f) =
      (.ok ⟨f.size⟩, w.on (f.create operatorsEvent).2) := rfl
  obtain ⟨g, hraise, hplanted, hnames⟩ := raise_operators hm hw hdepth (wf.create operatorsEvent)
    patience hold Forest.has_create_self hnone
  refine ⟨g, ?_, hplanted.grown f hnew ((Forest.Grown.refl f).create operatorsEvent),
    hplanted.wellFormed⟩
  rw [operatorNames, result_bind_ok hcreate, result_bind_ok (result_raise_normal hraise), result_ask,
    World.forest_on, hnames]

end Names

end Keyword

/-! ## One statement -/

namespace Forest

theorem leadingOperators_eq {f : Forest} {operators : List String} {cs : List NodeId}
    (h : ∀ c ∈ cs, f.isStatement c → f.name c ∈ operators) :
    f.leadingOperators operators cs = (cs.filter f.isStatement, cs.length) := by
  induction cs with
  | nil => rfl
  | cons c cs ih =>
    rw [leadingOperators, ih fun d hd => h d (List.mem_cons_of_mem _ hd)]
    cases hc : isDataName (f.name c) with
    | true => simp [isStatement, hc]
    | false =>
      have hmem := h c List.mem_cons_self (by simp [isStatement, hc])
      simp [isStatement, hc, hmem]

theorem Conditional.name_mem {f : Forest} {height : Nat} {n c : NodeId}
    (h : f.Conditional (height + 1) n) {l rest : List NodeId} (hs : f.children n = l ++ c :: rest)
    (hc : f.isStatement c) : f.name c ∈ operators := by
  rw [operators, List.mem_append]
  rcases h.statement hs hc with h | ⟨h, -⟩ | ⟨h | h, -⟩
  · exact Or.inl h.1
  · exact Or.inr (by simp [h])
  · exact Or.inr (by simp [h])
  · exact Or.inr (by simp [h])

theorem Conditional.conditionsOf_grown {f g : Forest} {height : Nat} {n : NodeId}
    (h : f.Conditional (height + 1) n) (wf : f.WellFormed) (hg : f.Grown g) :
    g.conditionsOf operators n = .ok (f.statements n, (f.children n).length) := by
  obtain ⟨v, hv, -⟩ := h.1
  have hhas := has_of_value hv
  have hvalue : g.hasValue n = true := by
    rw [hasValue, hg.value_eq hhas, hv]
    rfl
  have hstatement : ∀ c ∈ f.children n, g.isStatement c = f.isStatement c := fun c hc => by
    rw [isStatement, hg.name_eq (wf.has_child hc), isStatement]
  have hnames : ∀ c ∈ f.children n, g.isStatement c → g.name c ∈ operators := by
    intro c hc hgc
    obtain ⟨l, rest, hs⟩ := List.append_of_mem hc
    rw [hg.name_eq (wf.has_child hc)]
    exact h.name_mem hs (hstatement c hc ▸ hgc)
  rw [conditionsOf, if_pos hvalue, hg.children_eq hhas, leadingOperators_eq hnames,
    List.filter_congr hstatement, statements]

theorem Progress.start {f g : Forest} (wf : f.WellFormed) {n : NodeId} (hn : f.Constant n)
    (hg : f.Grown g) (hwf : g.WellFormed) : f.Progress n [] [[Value.isTruthy (f.value n)]] g := by
  obtain ⟨v, hv, -⟩ := id hn
  have hhas := has_of_value hv
  have hvalue := hg.value_eq hhas
  refine ⟨⟨none, (Underway.refl wf).grown hg hwf hhas, rfl⟩, by simp, hn.congr hvalue, ?_, ?_, ?_,
    fun _ => ⟨hvalue, rfl⟩, fun hne => absurd rfl hne⟩
  · rw [hvalue]
    simp
  · intro p hfind
    cases hfind
  · exact fun c hc _ k hk => hg.value_eq (hk.has (wf.has_child hc))

section Advance

variable {f g : Forest} {n c : NodeId} {l rest : List NodeId} {r : Reading} (wf : f.WellFormed)
  (hs : f.children n = l ++ c :: rest) (hp : f.Progress n l r g)

include hp

theorem Progress.skip (hc : f.isStatement c = false) : f.Progress n (l ++ [c]) r g where
  underway := hp.underway
  nonempty := hp.nonempty
  constant := hp.constant
  truth := hp.truth
  previous p hfind := by
    rw [List.reverse_append, List.reverse_singleton, List.singleton_append, List.find?_cons_of_neg] at hfind
    · exact hp.previous p hfind
    · simp [hc]
  untouched d hd hnot := hp.untouched d hd fun hmem => hnot (List.mem_append_left _ hmem)
  fresh hnone := hp.fresh (List.append_eq_nil_iff.mp (List.filter_append .. ▸ hnone)).1
  settled hsome := hp.settled fun hnone => hsome (by simp [hnone, hc])

include wf hs

theorem Progress.advance (hc : f.isStatement c) {r' : Reading} (hne : r' ≠ []) {g' : Forest}
    (ho : f.Operated n c r' g g') :
    f.Progress n (l ++ [c]) r' (g'.setValue n (some (.bool r'.value))) := by
  have hparent := wf.parent_of_split hs
  have hn := wf.has_parent hparent
  obtain ⟨marker, hu, hmarked⟩ := ho.underway
  have hset : ∀ m, (g'.setValue n (some (.bool r'.value))).value m =
      if m = n then some (.bool r'.value) else g'.value m := fun m => value_setValue (hu.has hn)
  have hself : (g'.setValue n (some (.bool r'.value))).value n = some (.bool r'.value) := by
    rw [hset, if_pos rfl]
  refine ⟨⟨marker, hu.setValue (Or.inl (Or.inl rfl)) _, ?_⟩, hne, ⟨_, hself, fun s => by simp⟩, ?_, ?_,
    ?_, ?_, fun _ => hself⟩
  · rw [hu.marked_setValue hn, hmarked]
  · rw [hself]
    simp [Value.isTruthy]
  · intro p hfind
    rw [List.reverse_append, List.reverse_singleton, List.singleton_append,
      List.find?_cons_of_pos hc] at hfind
    obtain rfl := Option.some.inj hfind
    rw [hset, if_neg (wf.ne_parent hparent), ho.value_eq]
    simp [Value.isTruthy]
  · intro d hd hnot m hm
    have hdn := (wf.linked n d).mp hd
    have hmn : m ≠ n := by
      rintro rfl
      exact wf.not_within_child hdn hm
    -- A node is within at most one child.
    have hout : ¬ f.Within c m := fun hin =>
      hnot (List.mem_append_right _ (List.mem_singleton.mpr (wf.within_unique hdn hparent hm hin)))
    rw [hset, if_neg hmn, ho.others m (hm.has (has_of_parent hdn)) hmn hout]
    exact hp.untouched d hd (fun hmem => hnot (List.mem_append_left _ hmem)) m hm
  · intro hnone
    simp [hc] at hnone

end Advance

end Forest

namespace Keyword

section Statement

variable {engine : Engine} {w : World} {inside : NodeId → Prop} {height : Nat} {f g : Forest}
  {n c : NodeId} {l rest : List NodeId} {r : Reading} (hn : f.Testable inside (height + 1) n)
  (hs : f.children n = l ++ c :: rest) (hp : f.Progress n l r g) {hold : Hold} (hheld : n ∈ hold.held)

include hn hs hp hheld

/-- A comparison comes first, so the node has the value yet that is compared. -/
theorem comparison_operates {entry : String × Handler} (hentry : entry ∈ comparisons)
    (hnamed : f.name n ≠ "") (hname : f.name c = entry.1) (hconstant : f.Constant c)
    (hfirst : l.filter f.isStatement = []) :
    ∃ g', (entry.2 engine (.plain entry.1 c)).result hold (w.on g) = (.ok .normal, w.on g') ∧
      f.Operated n c (r.next (f.clause (f.meaning height) n c)) g g' := by
  have wf := hn.wellFormed
  have hparent := wf.parent_of_split hs
  have hhas := Forest.has_of_parent hparent
  obtain ⟨marker, hu, hmarked⟩ := hp.underway
  obtain ⟨hfresh, htail⟩ := hp.fresh hfirst
  have hvalue : g.value c = f.value c := hp.untouched_next wf hs c (Or.inl rfl)
  -- No statement came before, so both sides are as the expression has them.
  have hclause : f.clause (f.meaning height) n c =
      .compare (g.comparisonHolds entry.1 (g.value n) (g.value c)) := by
    have hwithin : f.Within n c := Or.inr (Forest.above_of_parent hparent)
    have hholds := Forest.comparisonHolds_congr entry.1
      (hu.snapshotValue_eq wf hn.inside_of_within hn.nested (Or.inl rfl)) (hu.textOf_eq wf n)
      (hu.snapshotValue_eq wf hn.inside_of_within hn.nested hwithin) (hu.textOf_eq wf c)
    rw [Forest.clause_of_comparison (hname ▸ List.mem_map_of_mem hentry), hname, hfresh, hvalue, hholds]
  have hresult := result_comparison hu.wellFormed ((hu.parent_eq c hhas).trans hparent)
    (by rw [hu.name_eq n (wf.has_parent hparent)]; exact hnamed) hp.constant
    (hconstant.congr hvalue) hheld w engine entry.1 hentry
  rw [hclause]
  refine ⟨_, hresult, ⟨marker, hu.setValue (Or.inl (Or.inr (Forest.above_of_parent hparent))) _, ?_⟩, ?_,
    fun m hm hne hout => ?_⟩
  · rw [hu.marked_setValue hhas, hmarked, htail]
    rfl
  · rw [Forest.value_setValue (hu.has hhas), if_pos rfl]
    simp [Reading.next]
  · rw [Forest.value_setValue (hu.has hhas), if_neg fun h => hout (Or.inl h)]

variable (ht : Tests engine w inside height) (hc : f.isStatement c)

include ht hc

theorem statement_operates :
    ∃ handler g', coreTable.handlersOf (f.name c) = [handler] ∧
      (handler engine (.plain (f.name c) c)).result hold (w.on g) = (.ok .normal, w.on g') ∧
      f.Operated n c (r.next (f.clause (f.meaning height) n c)) g g' ∧
      f.Spares (f.passedAt (f.meaning height) (f.passed height) n r c) g' := by
  rcases hn.conditional.statement hs hc with ⟨hname, hconstant, hfirst⟩ | ⟨hname, hchildren, hnone⟩ |
    ⟨hname | hname, hoperand⟩
  · rw [Forest.passedAt, Forest.clause_of_comparison hname]
    obtain ⟨entry, hentry, hentryname⟩ := List.mem_map.mp hname
    obtain ⟨g', hresult, hoperated⟩ :=
      comparison_operates hn hs hp hheld hentry (hn.name_ne hs hc) hentryname.symm hconstant hfirst
    rw [Forest.clause_of_comparison hname] at hoperated
    rw [← hentryname] at hoperated ⊢
    exact ⟨entry.2, g', handlersOf_comparison hentry, hresult, hoperated, fun p hmem => by cases hmem⟩
  · have hvalue : g.value c = none := (hp.untouched_next hn.wellFormed hs c (Or.inl rfl)).trans hnone
    obtain ⟨g', hresult, hoperated⟩ := not_operates hn.wellFormed (hn.name_ne hs hc) hs hp hheld w
      hn.conditional.2.1 engine hchildren hvalue
    have hclause : f.clause (f.meaning height) n c = .not := by simp [Forest.clause, hname]
    rw [Forest.passedAt, hclause, hname]
    exact ⟨_, g', rfl, hresult, hoperated, fun p hmem => by cases hmem⟩
  · rw [hname]
    exact ⟨_, (and_operates ht hn hs hp hoperand hheld hname).imp fun g' h => ⟨rfl, h⟩⟩
  · rw [hname]
    exact ⟨_, (or_operates ht hn hs hp hoperand hheld hname).imp fun g' h => ⟨rfl, h⟩⟩

end Statement

/-! ## All statements -/

section Loop

variable {m : Machine} (hm : m.IsCore) {w : World} (hw : PlainOperators w)
  (hdepth : w.session.depth < m.settings.maxDepth) {patience : Nat} {inside : NodeId → Prop}
  {height : Nat} (ht : Tests (m.engine patience (m.perform patience)) w.deeper inside height)
  {f : Forest} {n : NodeId} (hn : f.Testable inside (height + 1) n) {hold : Hold} (hheld : n ∈ hold.held)

include hm hw hdepth ht hn hheld

theorem runCondition_advances {c : NodeId} {l rest : List NodeId} (hs : f.children n = l ++ c :: rest)
    (hc : f.isStatement c) {r : Reading} {g : Forest} (hp : f.Progress n l r g) :
    ∃ g', (runCondition (m.engine (patience + 1) (m.perform (patience + 1))) n c).result hold (w.on g) =
        (.ok (), w.on g') ∧
      f.Progress n (l ++ [c]) (r.next (f.clause (f.meaning height) n c)) g' ∧
      f.Spares (f.passedAt (f.meaning height) (f.passed height) n r c) g' ∧
      ∀ k, f.Has k → k ≠ n → ¬ f.Within c k → g'.value k = g.value k := by
  have wf := hn.wellFormed
  have hparent := wf.parent_of_split hs
  obtain ⟨_, hu, -⟩ := hp.underway
  have hname : g.name c = f.name c := hu.name_eq c (Forest.has_of_parent hparent)
  have hplain := hn.conditional.name_mem hs hc
  have hevent : ∀ event ∈ operators, event ≠ catchAll := by decide
  have hheld' : n ∈ (hold.adding [c]).held := List.mem_cons_of_mem _ hheld
  obtain ⟨handler, g', hhandler, hresult, hoperated, hspares⟩ := statement_operates hn hs hp hheld' ht hc
  have hraise : ((m.engine (patience + 1) (m.perform (patience + 1))).raiseFlow (f.name c) c).result hold
      (w.on g) = (.ok .normal, w.on g') :=
    Machine.result_raiseKeyword hm hhandler (hevent _ hplain) (hw.on g _ (List.mem_cons_of_mem _ hplain))
      hdepth hresult (hw.deeper.on g' _ (List.mem_cons_of_mem _ hplain))
  have hset : ∀ k, k ≠ n → ∀ v, (g'.setValue n v).value k = g'.value k := by
    intro k hk v
    rw [Forest.value, Forest.setValue, Forest.cell_update_ne hk, Forest.value]
  refine ⟨_, ?_, hp.advance wf hs hc (Reading.next_ne_nil _ _) hoperated, ?_, ?_⟩
  · rw [runCondition, result_bind_ok (result_ask _), World.forest_on, hname,
      result_bind_ok (result_raise_normal hraise), result_bind_ok (result_ask _), World.forest_on,
      hoperated.value_eq]
    rfl
  · refine hspares.of_frame (Forest.within_of_mem_passedAt (wf.above_of_mem_passed height))
      fun k hk => hset k ?_ _
    rintro rfl
    exact wf.not_within_child hparent hk
  · intro k hk hkn hout
    rw [hset k hkn, hoperated.others k hk hkn hout]

/-- The statements of the rest are raised one after the other. What is within one of them is left alone by
the others. -/
theorem runConditions_advance {rest : List NodeId} : ∀ {l : List NodeId} {r : Reading} {g : Forest},
    f.children n = l ++ rest → f.Progress n l r g →
    ∃ g', (forEach (rest.filter f.isStatement)
        (runCondition (m.engine (patience + 1) (m.perform (patience + 1))) n)).result hold (w.on g) =
        (.ok (), w.on g') ∧
      f.Progress n (l ++ rest) (f.reading (f.meaning height) n r (rest.filter f.isStatement)) g' ∧
      f.Spares (f.passedAmong (f.meaning height) (f.passed height) n r (rest.filter f.isStatement)) g' ∧
      ∀ k, f.Has k → k ≠ n → (∀ c ∈ rest, ¬ f.Within c k) → g'.value k = g.value k := by
  have wf := hn.wellFormed
  induction rest with
  | nil =>
    intro l r g _ hp
    refine ⟨g, rfl, ?_, (fun p hmem => by cases hmem), fun _ _ _ _ => rfl⟩
    rw [List.append_nil]
    exact hp
  | cons c rest ih =>
    intro l r g hs hp
    have hparent := wf.parent_of_split hs
    have hs' : f.children n = (l ++ [c]) ++ rest := by rw [hs, List.append_cons]
    cases hc : f.isStatement c with
    | false =>
      obtain ⟨g', hresult, hp', hspares, hframe⟩ := ih hs' (hp.skip hc)
      rw [List.filter_cons_of_neg (by simp [hc]), List.append_cons]
      exact ⟨g', hresult, hp', hspares, fun k hk hkn hout =>
        hframe k hk hkn fun d hd => hout d (List.mem_cons_of_mem _ hd)⟩
    | true =>
      obtain ⟨g₁, hstep, hp₁, hspares₁, hframe₁⟩ :=
        runCondition_advances hm hw hdepth ht hn hheld hs hc hp
      obtain ⟨g', hresult, hp', hspares, hframe⟩ := ih hs' hp₁
      -- What is within `c` is settled: the statements behind it change other parts of the tree.
      have hlater : ∀ k, f.Within c k → g'.value k = g₁.value k := by
        intro k hk
        refine hframe k (hk.has (Forest.has_of_parent hparent)) ?_ (wf.not_within_sibling hs hk)
        rintro rfl
        exact wf.not_within_child hparent hk
      rw [List.filter_cons_of_pos hc, List.append_cons]
      refine ⟨g', ?_, hp', ?_, fun k hk hkn hout => ?_⟩
      · rw [forEach, result_bind_ok hstep, hresult]
      · exact (hspares₁.of_frame (Forest.within_of_mem_passedAt (wf.above_of_mem_passed height))
          hlater).append hspares
      · rw [hframe k hk hkn fun d hd => hout d (List.mem_cons_of_mem _ hd),
          hframe₁ k hk hkn (hout c List.mem_cons_self)]

theorem testNode_tests :
    ∃ marker g, (testNode (m.engine (patience + 1) (m.perform (patience + 1))) n).result hold (w.on f) =
        (.ok ⟨f.meaning (height + 1) n, (f.children n).length⟩, w.on g) ∧
      f.Underway n marker g ∧ g.value n = some (.bool (f.meaning (height + 1) n)) ∧
      f.Spares (f.passed (height + 1) n) g := by
  have wf := hn.wellFormed
  obtain ⟨g₀, hnames, hgrown, hwf⟩ := operatorNames_grows hm hw hdepth wf patience hold
  obtain ⟨g₁, hloop, hp, hspares, -⟩ := runConditions_advance hm hw hdepth ht hn hheld
    (List.nil_append _).symm (Forest.Progress.start wf hn.conditional.1 hgrown hwf)
  obtain ⟨marker, hu, -⟩ := hp.underway
  rw [List.nil_append] at hp
  rw [← Forest.statements] at hloop hp hspares
  have hconditions : (ask (·.conditionsOf operators n)).result hold (w.on g₀) =
      (.ok (.ok (f.statements n, (f.children n).length)), w.on g₀) := by
    rw [result_ask, World.forest_on, hn.conditional.conditionsOf_grown wf hgrown]
  have hset : ∀ k, (g₁.setValue n (some (.bool (f.meaning (height + 1) n)))).value k =
      if k = n then some (.bool (f.meaning (height + 1) n)) else g₁.value k := fun k =>
    Forest.value_setValue (hu.has (Forest.has_of_value hn.conditional.1.choose_spec.1))
  refine ⟨marker, g₁.setValue n (some (.bool (f.meaning (height + 1) n))), ?_,
    hu.setValue (Or.inl (Or.inl rfl)) _, ?_, fun p hmem => ?_⟩
  · rw [testNode, result_bind_ok hnames, result_bind_ok hconditions,
      result_bind_ok (result_ofExcept_ok _)]
    dsimp only
    rw [result_bind_ok hloop, result_bind_ok (result_observe _), World.forest_on]
    -- Without statements the node still has its constant, otherwise the Boolean that the last one left.
    cases hstatements : f.statements n with
    | nil =>
      rw [List.isEmpty_nil, if_pos rfl, Forest.holds_seen hu.wellFormed hp.constant, hp.truth]
      exact result_bind_ok (result_setValue_on _ _ _)
    | cons c cs =>
      have hsettled := hp.settled (by rw [← Forest.statements, hstatements]; simp)
      rw [List.isEmpty_cons, if_neg (by simp), (Forest.seen_pruned hu.wellFormed hold).value_eq, hsettled]
      exact result_bind_ok (result_setValue_on _ _ _)
  · rw [hset, if_pos rfl]
  · have habove := wf.above_of_mem_passed (height + 1) p hmem
    have hne : ∀ k, f.Above n k → k ≠ n := by
      rintro k hk rfl
      exact wf.acyclic k hk
    obtain ⟨hpvalue, hbelow⟩ := hspares p hmem
    refine ⟨?_, fun k hk => ?_⟩
    · rw [hset, if_neg (hne _ habove), hpvalue]
    · rw [hset, if_neg (hne _ (habove.trans hk)), hbelow k hk]

end Loop

/-! ## Expressions of every height -/

theorem result_evaluateCondition {engine : Engine} {hold : Hold} {w w₁ w₂ : World} {n : NodeId}
    {condition : Condition}
    (htest : (testNode engine n).result (hold.adding [n]) w = (.ok condition, w₁))
    (hclear : (clearMarkers n).result (hold.adding [n]) w₁ = (.ok (), w₂)) :
    (evaluateCondition engine n).result hold w = (.ok condition, w₂) := by
  have hattempt : (attempt (testNode engine n)).result (hold.adding [n]) w = (.ok (.ok condition), w₁) := by
    rw [result_attempt, htest]
    rfl
  have hcleared : (attempt (clearMarkers n)).result (hold.adding [n]) w₁ = (.ok (.ok ()), w₂) := by
    rw [result_attempt, hclear]
    rfl
  rw [evaluateCondition, result_holding, result_bind_ok hattempt, result_bind_ok hcleared]
  rfl

theorem tests_succ {m : Machine} (hm : m.IsCore) {w : World} (hw : PlainOperators w)
    (hdepth : w.session.depth < m.settings.maxDepth) {patience : Nat} {inside : NodeId → Prop}
    {height : Nat} (ht : Tests (m.engine patience (m.perform patience)) w.deeper inside height) :
    Tests (m.engine (patience + 1) (m.perform (patience + 1))) w inside (height + 1) := by
  intro f n hold hn
  have hheld : n ∈ (hold.adding [n]).held := List.mem_cons_self
  obtain ⟨marker, g, htest, hu, hvalue, hspares⟩ := testNode_tests hm hw hdepth ht hn hheld
  obtain ⟨g', hclear, hu', hsame⟩ := clearMarkers_underway hu hn.conditional.2.1 hn.wellFormed
    (hold.adding [n]) w hheld
  refine ⟨g', result_evaluateCondition htest hclear, hu', (hsame n).trans hvalue, fun p hmem => ?_⟩
  rw [hsame]
  refine ⟨(hspares p hmem).1, fun k hk => ?_⟩
  rw [hsame, (hspares p hmem).2 k hk]

theorem tests_of_height {m : Machine} (hm : m.IsCore) (inside : NodeId → Prop) (height : Nat) :
    ∀ {patience : Nat} {w : World}, height ≤ patience →
      w.session.depth + height ≤ m.settings.maxDepth → PlainOperators w →
      Tests (m.engine patience (m.perform patience)) w inside height := by
  induction height with
  | zero => exact fun _ _ _ f n hold hn => hn.conditional.elim
  | succ height ih =>
    intro patience w hpatience hdepth hw
    -- Operands are tested within an event: one level deeper, with one unit of patience less.
    obtain ⟨patience, rfl⟩ := Nat.exists_eq_add_of_lt hpatience
    have hdeeper : w.deeper.session.depth = w.session.depth + 1 := rfl
    exact tests_succ hm hw (by omega) (ih (by omega) (by omega) hw.deeper)

end Keyword

end EventTree
