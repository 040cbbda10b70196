import EventTree.Proofs.Condition.Markers
import EventTree.Proofs.Forest.Siblings
import Mathlib.Data.List.Find

/-!
# Operators and readings

Each operator takes the reading of what stands before it to the reading with its own clause. What the
next one looks at shows the reading: the value of the operator before it, or of the conditional node, is
the value of the reading, and the node is marked if a conjunction before the latest is true.
-/

namespace EventTree

open EventTree.Action Keyword

namespace Forest

/-- A node shows in a forest what is read of its children `l`. -/
structure Progress (f : Forest) (n : NodeId) (l : List NodeId) (r : Reading) (g : Forest) : Prop where
  underway : ∃ marker, f.Underway n marker g ∧
    (marker.any fun k => Value.isTruthy (g.value k)) = Reading.value r.tail
  nonempty : r ≠ []
  constant : g.Constant n
  truth : Value.isTruthy (g.value n) = r.value
  previous : ∀ p, l.reverse.find? f.isStatement = some p → Value.isTruthy (g.value p) = r.value
  untouched : ∀ c ∈ f.children n, c ∉ l → ∀ m, f.Within c m → g.value m = f.value m
  fresh : l.filter f.isStatement = [] → g.value n = f.value n ∧ r.tail = []
  settled : l.filter f.isStatement ≠ [] → g.value n = some (.bool r.value)

/-- An operator `c` of `n` took `g` to `g'` and the reading to `r`. -/
structure Operated (f : Forest) (n c : NodeId) (r : Reading) (g g' : Forest) : Prop where
  underway : ∃ marker, f.Underway n marker g' ∧
    (marker.any fun k => Value.isTruthy (g'.value k)) = Reading.value r.tail
  value_eq : g'.value c = some (.bool r.value)
  others : ∀ m, f.Has m → m ≠ n → ¬ f.Within c m → g'.value m = g.value m

theorem holds_seen {f : Forest} (wf : f.WellFormed) {n : NodeId} (h : f.Constant n) (hold : Hold) :
    (f.seen hold).holds n = Value.isTruthy (f.value n) := by
  obtain ⟨v, hv, hselector⟩ := h
  have hseen : (f.seen hold).value n = some v := ((seen_pruned wf hold).value_eq n).trans hv
  rw [holds, hseen, hv]
  cases v with
  | selector s => exact absurd rfl (hselector s)
  | bool | int | float | string | node => rfl

theorem Constant.singleValue_eq {f : Forest} {n : NodeId} (h : f.Constant n) :
    f.singleValue n = f.value n := by
  obtain ⟨v, hv, hselector⟩ := h
  rw [singleValue, hv]
  cases v with
  | selector s => exact absurd rfl (hselector s)
  | bool | int | float | string | node => rfl

theorem singleValue_seen {f : Forest} (wf : f.WellFormed) {n : NodeId} (h : f.Constant n) (hold : Hold) :
    (f.seen hold).singleValue n = f.value n := by
  have hvalue := (seen_pruned wf hold).value_eq n
  exact (h.congr hvalue).singleValue_eq.trans hvalue

theorem allValues_seen {f : Forest} (wf : f.WellFormed) {n : NodeId} (h : f.Constant n) (hold : Hold) :
    (f.seen hold).allValues n = [f.value n] := by
  obtain ⟨v, hv, hselector⟩ := h
  have hseen : (f.seen hold).value n = some v := ((seen_pruned wf hold).value_eq n).trans hv
  rw [allValues, hseen, hv]
  cases v with
  | selector s => exact absurd rfl (hselector s)
  | bool | int | float | string | node => rfl

theorem textOf_seen {f : Forest} (wf : f.WellFormed) (hold : Hold) (v : Option LiveValue) :
    (f.seen hold).textOf v = f.textOf v := by
  have hname : (f.seen hold).name = f.name := funext fun n => (seen_pruned wf hold).name_eq n
  cases v with
  | none => rfl
  | some v => rw [textOf, Option.map_some, text, hname, textOf, Option.map_some, text]

theorem compareSides_values (f : Forest) {a b : Option LiveValue} (ha : a.isSome) :
    f.compareSides [a] [b] = f.compareValues a b := by
  have hsome : ([a].all Option.isNone && [b].all Option.isNone) = false := by
    cases a with
    | none => cases ha
    | some a => rfl
  rw [compareSides, hsome, if_neg (by simp)]
  simp only [List.length_singleton, List.zipWith_cons_cons, List.zipWith_nil_left]
  cases h : f.compareValues a b <;> rfl

theorem isStatement_seen {f : Forest} (wf : f.WellFormed) (hold : Hold) :
    (f.seen hold).isStatement = f.isStatement := by
  funext n
  rw [isStatement, (seen_pruned wf hold).name_eq, isStatement]

/-- The marker is data, so the nearest statement is one of the children that were there. -/
theorem Underway.find?_before {f g : Forest} {n c : NodeId} {marker : Option NodeId}
    (h : f.Underway n marker g) (wf : f.WellFormed) {l rest : List NodeId}
    (hs : f.children n = l ++ c :: rest) {hold : Hold} (hheld : n ∈ hold.held) :
    ((g.seen hold).siblingsBefore c).find? (g.seen hold).isStatement =
      l.reverse.find? f.isStatement := by
  have hsplit : g.children n = (marker.toList ++ l) ++ c :: rest := by
    rw [h.children_eq, hs, List.append_assoc]
  -- A marker is data, and the search is for statements.
  have hmarker : marker.toList.reverse.find? g.isStatement = none := by
    cases hm : marker with
    | none => rfl
    | some k =>
      have hdata : g.isStatement k = false := by
        rw [isStatement, h.marker_name k hm]
        decide
      simp [hdata]
  have hold : l.reverse.find? g.isStatement = l.reverse.find? f.isStatement := by
    refine List.find?_congr fun p hp => ?_
    have hmem : p ∈ f.children n := hs ▸ List.mem_append_left _ (List.mem_reverse.mp hp)
    rw [isStatement, h.name_eq p (wf.has_child hmem), isStatement]
  rw [h.wellFormed.siblingsBefore_seen hheld (h.wellFormed.parent_of_split hsplit),
    h.wellFormed.siblingsBefore_of_split hsplit, isStatement_seen h.wellFormed, List.reverse_append,
    List.find?_append, hmarker, hold, Option.or_none]

end Forest

namespace Keyword

/-! ## What an operator goes on from -/

theorem result_conditionalParent {f : Forest} (wf : f.WellFormed) {n c : NodeId}
    (hc : f.parent c = some n) (hname : f.name n ≠ "") {hold : Hold} (hheld : n ∈ hold.held)
    (w : World) : (conditionalParent c).result hold (w.on f) = (.ok n, w.on f) := by
  have hparent : (((w.on f).forest.seen hold).parent c).filter
      (fun p => ((w.on f).forest.seen hold).name p ≠ "") = some n := by
    rw [World.forest_on, wf.parent_seen hheld hc, Option.filter_some, (Forest.seen_pruned wf hold).name_eq,
      if_pos (decide_eq_true hname)]
  rw [conditionalParent, result_bind_ok (result_observe _), hparent]
  rfl

section Operators

variable {f g : Forest} {n c : NodeId} {l rest : List NodeId} {r : Reading} (wf : f.WellFormed)
  (hname : f.name n ≠ "") (hs : f.children n = l ++ c :: rest) (hp : f.Progress n l r g)
  {hold : Hold} (hheld : n ∈ hold.held) (w : World)

include wf hname hs hp hheld

theorem result_previousCondition :
    ∃ p, (previousCondition c).result hold (w.on g) =
        (.ok (n, p), w.on (g.setValue n (some (.bool r.value)))) ∧
      Value.isTruthy ((g.setValue n (some (.bool r.value))).value p) = r.value := by
  obtain ⟨marker, hu, -⟩ := hp.underway
  have hc := wf.parent_of_split hs
  have hn : g.Has n := hu.has (wf.has_parent hc)
  have hgc : g.parent c = some n := (hu.parent_eq c (Forest.has_of_parent hc)).trans hc
  have hu₁ := hu.setValue (Or.inl (Or.inl rfl)) r.value
  have hvalue : g.hasValue n = true := by
    obtain ⟨v, hv, -⟩ := hp.constant
    rw [Forest.hasValue, hv]
    rfl
  have hholds : (observe (·.holds n)).result hold (w.on g) = (.ok r.value, w.on g) := by
    rw [result_observe, World.forest_on, Forest.holds_seen hu.wellFormed hp.constant, hp.truth]
  have hgname : g.name n ≠ "" := by rwa [hu.name_eq n (wf.has_parent hc)]
  refine ⟨(l.reverse.find? f.isStatement).getD n, ?_, ?_⟩
  · rw [previousCondition, result_bind_ok (result_conditionalParent hu.wellFormed hgc hgname hheld w),
      result_bind_ok (result_ask _), result_bind_ok hholds, result_bind_ok (result_setValue_on _ _ _),
      result_bind_ok (result_observe _), World.forest_on, World.forest_on,
      hu₁.find?_before wf hs hheld]
    -- The first operator goes on from the node, which has a value.
    cases l.reverse.find? f.isStatement with
    | some p => rfl
    | none =>
      dsimp only
      rw [if_pos hvalue]
      rfl
  · rw [Forest.value_setValue hn]
    cases hfind : l.reverse.find? f.isStatement with
    | none => simp [Value.isTruthy]
    | some p =>
      have hmem : p ∈ f.children n := by
        rw [hs]
        exact List.mem_append_left _ (List.mem_reverse.mp (List.mem_of_find?_eq_some hfind))
      have hne : p ≠ n := wf.ne_parent ((wf.linked n p).mp hmem)
      rw [Option.getD_some, if_neg hne]
      exact hp.previous p hfind

omit hname hheld in
theorem coerced_underway :
    ∃ marker, f.Underway n marker (g.setValue n (some (.bool r.value))) ∧
      (marker.any fun k => Value.isTruthy ((g.setValue n (some (.bool r.value))).value k)) =
        Reading.value r.tail ∧
      ∀ m, m ≠ n → (g.setValue n (some (.bool r.value))).value m = g.value m := by
  obtain ⟨marker, hu, hmarked⟩ := hp.underway
  have hn : f.Has n := wf.has_parent (wf.parent_of_split hs)
  refine ⟨marker, hu.setValue (Or.inl (Or.inl rfl)) r.value, ?_, fun m hm => ?_⟩
  · rw [hu.marked_setValue hn, hmarked]
  · rw [Forest.value_setValue (hu.has hn), if_neg hm]

/-! ## or -/

variable (hunmarked : ∀ c ∈ f.children n, f.name c ≠ markerName) (engine : Engine)

include hunmarked

theorem or_passesOver (hr : r.value = true) (b : Bool) :
    ∃ g', (Keyword.or engine (.plain "or" c)).result hold (w.on g) = (.ok .normal, w.on g') ∧
      f.Operated n c (r.next (.or b)) g g' ∧
      ∀ m, f.Has m → m ≠ n → m ≠ c → g'.value m = g.value m := by
  obtain ⟨p, hprevious, htruth⟩ := result_previousCondition wf hname hs hp hheld w
  obtain ⟨marker, hu, -, hothers⟩ := coerced_underway wf hs hp
  have hc := wf.parent_of_split hs
  have hhas := Forest.has_of_parent hc
  generalize g.setValue n (some (.bool r.value)) = g₁ at hprevious htruth hu hothers
  have hu₁ := hu.setValue (Or.inl (Or.inr (Forest.above_of_parent hc))) true
  obtain ⟨k, g', hmark, hu', hk, hold'⟩ :=
    setMarker_underway hu₁ hunmarked wf (wf.has_parent hc) hold w true
  have hvalue : ∀ m, f.Has m → g'.value m = if m = c then some (.bool true) else g₁.value m := by
    intro m hm
    rw [hold' m hm, Forest.value_setValue (hu.has hhas)]
  refine ⟨g', ?_, ⟨⟨some k, hu', ?_⟩, ?_, ?_⟩, ?_⟩
  · rw [Keyword.or]
    dsimp only [Call.plain]
    rw [result_bind_ok hprevious]
    dsimp only
    rw [isTrue, result_bind_ok (result_ask _), World.forest_on, htruth, hr,
      if_pos rfl, result_bind_ok (result_setValue_on _ _ _), result_bind_ok hmark]
    rfl
  · simp [hk, Value.isTruthy, Reading.next, hr]
  · rw [hvalue c hhas, if_pos rfl]
    simp [Reading.next, hr]
  · intro m hm hne hout
    rw [hvalue m hm, if_neg fun h => hout (Or.inl h), hothers m hne]
  · intro m hm hne hmc
    rw [hvalue m hm, if_neg hmc, hothers m hne]

/-- The outcome of an operand becomes the outcome of all, since nothing before it is true. -/
theorem or_evaluates (hr : r.value = false) {b : Bool} {offset : Nat} {g₂ : Forest}
    (heval : (evaluateCondition engine c).result (hold.adding [n])
      (w.on (g.setValue n (some (.bool r.value)))) = (.ok ⟨b, offset⟩, w.on g₂))
    (hu₂ : (g.setValue n (some (.bool r.value))).Underway c none g₂)
    (hv₂ : g₂.value c = some (.bool b)) :
    ∃ g', (Keyword.or engine (.plain "or" c)).result hold (w.on g) = (.ok .normal, w.on g') ∧
      f.Operated n c (r.next (.or b)) g g' ∧ ∀ m, f.Has m → g'.value m = g₂.value m := by
  obtain ⟨p, hprevious, htruth⟩ := result_previousCondition wf hname hs hp hheld w
  obtain ⟨marker, hu, -, hothers⟩ := coerced_underway wf hs hp
  have hc := wf.parent_of_split hs
  generalize g.setValue n (some (.bool r.value)) = g₁ at hprevious htruth hu hothers heval hu₂
  have hnested := hu.nested wf hc hu₂
  have hn : n ∈ (hold.adding [n]).held := List.mem_cons_self
  obtain ⟨g', marker', hend, hu', hmarked, hvalue⟩ :=
    unsetMarker_underway hnested hunmarked wf (wf.has_parent hc) (hold.adding [n]) w hn b
  -- Nothing before the operand is true, so no marker or a false one says all there is to say.
  refine ⟨g', ?_, ⟨⟨marker', hu', ?_⟩, ?_, ?_⟩, hvalue⟩
  · rw [Keyword.or]
    dsimp only [Call.plain]
    rw [result_bind_ok hprevious]
    dsimp only
    rw [isTrue, result_bind_ok (result_ask _), World.forest_on, htruth, hr, if_neg (by simp)]
    have hrest : (holding [n] (do
        let own ← evaluateCondition engine c
        if own.value then setMarker n false else clearMarkers n)).result hold (w.on g₁) =
          (.ok (), w.on g') := by
      rw [result_holding, result_bind_ok heval]
      exact hend
    rw [result_bind_ok hrest]
    rfl
  · rw [hmarked, Reading.next, List.tail_cons, hr]
  · rw [hvalue c (Forest.has_of_parent hc), hv₂]
    simp [Reading.next, hr]
  · intro m hm hne hout
    rw [hvalue m hm, hu.value_nested wf hu₂ hm hout, hothers m hne]

/-! ## and -/

theorem and_passesOver {b : Bool} (hr : r.passesOver (.and b) = true) :
    ∃ g', (Keyword.and engine (.plain "and" c)).result hold (w.on g) = (.ok .normal, w.on g') ∧
      f.Operated n c (r.next (.and b)) g g' ∧
      ∀ m, f.Has m → m ≠ n → m ≠ c → g'.value m = g.value m := by
  obtain ⟨p, hprevious, htruth⟩ := result_previousCondition wf hname hs hp hheld w
  obtain ⟨marker, hu, hmarked, hothers⟩ := coerced_underway wf hs hp
  have hc := wf.parent_of_split hs
  have hhas := Forest.has_of_parent hc
  obtain ⟨group, r, rfl⟩ := List.exists_cons_of_ne_nil hp.nonempty
  generalize g.setValue n (some (.bool (Reading.value (group :: r)))) = g₁ at *
  rw [List.tail_cons] at hmarked
  have hset : ∀ m, (g₁.setValue c (some (.bool (Reading.value r)))).value m =
      if m = c then some (.bool (Reading.value r)) else g₁.value m := fun m =>
    Forest.value_setValue (hu.has hhas)
  refine ⟨g₁.setValue c (some (.bool (Reading.value r))), ?_, ⟨⟨marker,
    hu.setValue (Or.inl (Or.inr (Forest.above_of_parent hc))) _, ?_⟩, ?_, ?_⟩, ?_⟩
  · rw [Keyword.and]
    dsimp only [Call.plain]
    rw [result_bind_ok hprevious]
    dsimp only
    rw [result_bind_ok (result_marked hu hunmarked wf hold w), hmarked]
    -- Either a conjunction before is true, or the latest is false already.
    cases hr' : Reading.value r with
    | true =>
      rw [if_pos rfl, result_bind_ok (result_setValue_on _ _ _)]
      rfl
    | false =>
      have hfalse : Reading.value (group :: r) = false := by
        simpa [Reading.passesOver, hr'] using hr
      rw [if_neg (by simp), isTrue, result_bind_ok (result_ask _), World.forest_on, htruth, hfalse,
        if_neg (by simp), result_bind_ok (result_setValue_on _ _ _)]
      rfl
  · rw [hu.marked_setValue hhas, hmarked]
    rfl
  · rw [hset, if_pos rfl, Reading.value_next_and hr]
  · intro m hm hne hout
    rw [hset, if_neg fun h => hout (Or.inl h), hothers m hne]
  · intro m hm hne hmc
    rw [hset, if_neg hmc, hothers m hne]

theorem and_evaluates {b : Bool} (hr : r.passesOver (.and b) = false) {offset : Nat} {g₂ : Forest}
    (heval : (evaluateCondition engine c).result (hold.adding [n])
      (w.on (g.setValue n (some (.bool r.value)))) = (.ok ⟨b, offset⟩, w.on g₂))
    (hu₂ : (g.setValue n (some (.bool r.value))).Underway c none g₂)
    (hv₂ : g₂.value c = some (.bool b)) :
    ∃ g', (Keyword.and engine (.plain "and" c)).result hold (w.on g) = (.ok .normal, w.on g') ∧
      f.Operated n c (r.next (.and b)) g g' ∧ ∀ m, f.Has m → g'.value m = g₂.value m := by
  obtain ⟨p, hprevious, htruth⟩ := result_previousCondition wf hname hs hp hheld w
  obtain ⟨marker, hu, hmarked, hothers⟩ := coerced_underway wf hs hp
  have hc := wf.parent_of_split hs
  obtain ⟨group, r, rfl⟩ := List.exists_cons_of_ne_nil hp.nonempty
  obtain ⟨htail, hgroup⟩ : Reading.value r = false ∧ group.all id = true := by
    simpa [Reading.passesOver] using hr
  have hvalue : Reading.value (group :: r) = true := by rw [Reading.value_cons, hgroup, Bool.true_or]
  generalize g.setValue n (some (.bool (Reading.value (group :: r)))) = g₁ at *
  rw [List.tail_cons, htail] at hmarked
  refine ⟨g₂, ?_, ⟨⟨marker, hu.nested wf hc hu₂, ?_⟩, ?_, ?_⟩, fun _ _ => rfl⟩
  · rw [Keyword.and]
    dsimp only [Call.plain]
    rw [result_bind_ok hprevious]
    dsimp only
    rw [result_bind_ok (result_marked hu hunmarked wf hold w), hmarked, if_neg (by simp), isTrue,
      result_bind_ok (result_ask _), World.forest_on, htruth, hvalue, if_pos rfl,
      result_bind_ok ((result_holding _ _).trans heval)]
    rfl
  · rw [hu.marked_nested hc hu₂, hmarked]
    simp [Reading.next, htail]
  · rw [hv₂]
    simp [Reading.next, htail, hgroup]
  · intro m hm hne hout
    rw [hu.value_nested wf hu₂ hm hout, hothers m hne]

/-! ## not -/

theorem not_operates (hchildren : f.children c = []) (hvalue : g.value c = none) :
    ∃ g', (Keyword.not engine (.plain "not" c)).result hold (w.on g) = (.ok .normal, w.on g') ∧
      f.Operated n c (r.next .not) g g' := by
  obtain ⟨p, hprevious, htruth⟩ := result_previousCondition wf hname hs hp hheld w
  obtain ⟨marker, hu, -, hothers⟩ := coerced_underway wf hs hp
  have hc := wf.parent_of_split hs
  have hhas := Forest.has_of_parent hc
  have hplaced : (ask fun f => !(f.children c).isEmpty ||
      (f.value c).any fun v => v.asBool?.isNone).result hold (w.on g) = (.ok false, w.on g) := by
    obtain ⟨_, hu, -⟩ := hp.underway
    rw [result_ask, World.forest_on, hu.children_ne c hhas (wf.ne_parent hc), hchildren, hvalue]
    rfl
  generalize g.setValue n (some (.bool r.value)) = g₁ at *
  obtain ⟨g₂, hclear, hu₂, hvalue₂⟩ := clearMarkers_underway hu hunmarked wf hold w hheld
  have hset : ∀ m, (g₂.setValue c (some (.bool !r.value))).value m =
      if m = c then some (.bool !r.value) else g₂.value m := fun m =>
    Forest.value_setValue (hu₂.has hhas)
  refine ⟨g₂.setValue c (some (.bool !r.value)), ?_, ⟨none,
    hu₂.setValue (Or.inl (Or.inr (Forest.above_of_parent hc))) _, rfl⟩, ?_, ?_⟩
  · rw [Keyword.not]
    dsimp only [Call.plain]
    rw [result_bind_ok hplaced, if_neg (by simp), result_bind_ok hprevious]
    dsimp only
    rw [result_bind_ok hclear, isTrue, result_bind_ok (result_ask _), World.forest_on, hvalue₂ p, htruth,
      result_bind_ok (result_setValue_on _ _ _)]
    rfl
  · rw [hset, if_pos rfl]
    simp [Reading.next]
  · intro m hm hne hout
    rw [hset, if_neg fun h => hout (Or.inl h), hvalue₂ m, hothers m hne]

end Operators

/-! ## Comparisons -/

section Comparisons

variable {f : Forest} (wf : f.WellFormed) {n c : NodeId} (hc : f.parent c = some n)
  (hname : f.name n ≠ "") (hn : f.Constant n) (hv : f.Constant c) {hold : Hold} (hheld : n ∈ hold.held)
  (w : World) (engine : Engine) (event : String)

include wf hc hname hn hv hheld

theorem result_compared (test : Ordering → Bool) :
    (compared test engine (.plain event c)).result hold (w.on f) =
      (.ok .normal, w.on (f.setValue c (some (.bool (test (f.compareValues (f.value n) (f.value c))))))) := by
  have hsides : (observe fun f => (f.allValues n, f.allValues c)).result hold (w.on f) =
      (.ok ([f.value n], [f.value c]), w.on f) := by
    rw [result_observe, World.forest_on, Forest.allValues_seen wf hn, Forest.allValues_seen wf hv]
  have hsome : (f.value n).isSome := by
    obtain ⟨v, hv, -⟩ := hn
    rw [hv]
    rfl
  rw [compared]
  dsimp only [Call.plain]
  rw [result_bind_ok (result_conditionalParent wf hc hname hheld w), result_bind_ok hsides,
    result_bind_ok (result_ask _), World.forest_on, f.compareSides_values hsome,
    result_bind_ok (result_setValue_on _ _ _)]
  rfl

theorem result_containing (wanted : Bool) :
    (containing wanted engine (.plain event c)).result hold (w.on f) =
      (.ok .normal, w.on (f.setValue c (some (.bool
        (Text.contains (f.textOf (f.value n)) (f.textOf (f.value c)) == wanted))))) := by
  have hfound : (observe fun f => Text.contains (f.textOf (f.singleValue n))
      (f.textOf (f.singleValue c))).result hold (w.on f) =
        (.ok (Text.contains (f.textOf (f.value n)) (f.textOf (f.value c))), w.on f) := by
    rw [result_observe, World.forest_on, Forest.singleValue_seen wf hn, Forest.singleValue_seen wf hv,
      Forest.textOf_seen wf, Forest.textOf_seen wf]
  rw [containing]
  dsimp only [Call.plain]
  rw [result_bind_ok (result_conditionalParent wf hc hname hheld w), result_bind_ok hfound,
    result_bind_ok (result_setValue_on _ _ _)]
  rfl

theorem result_comparison {entry : String × Handler} (hentry : entry ∈ comparisons) :
    (entry.2 engine (.plain event c)).result hold (w.on f) =
      (.ok .normal, w.on (f.setValue c (some (.bool
        (f.comparisonHolds entry.1 (f.value n) (f.value c)))))) := by
  have hcompared := result_compared wf hc hname hn hv hheld w engine event
  have hcontaining := result_containing wf hc hname hn hv hheld w engine event
  -- Six of them compare values, the last two look for a text.
  have hall : comparisons.Forall fun entry => (entry.2 engine (.plain event c)).result hold (w.on f) =
      (.ok .normal, w.on (f.setValue c (some (.bool
        (f.comparisonHolds entry.1 (f.value n) (f.value c)))))) := by
    refine ⟨hcompared _, hcompared _, hcompared _, hcompared _, hcompared _, hcompared _,
      (hcontaining true).trans ?_, (hcontaining false).trans ?_⟩
    · simp [Forest.comparisonHolds]
    · simp [Forest.comparisonHolds]
  exact List.forall_iff_forall_mem.mp hall entry hentry

end Comparisons

end Keyword

end EventTree
