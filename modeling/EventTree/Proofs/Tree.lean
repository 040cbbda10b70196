import EventTree.Tree

/-!
# Trees and their selectors

Reading the selectors of a snapshot comes down to reading a list of texts: those of the value of a node,
then those of its children. The snapshot of what was read is the snapshot again, and a tree whose
selectors were read from texts is read back from its snapshot.
-/

namespace EventTree

namespace Selector

/-- A selector that was read from a text. There is no other way to one. -/
def IsRead (s : Selector) : Prop := ∃ source, parse source = .ok s

theorem source_of_parse {source : String} {s : Selector} (h : parse source = .ok s) :
    s.source = source := by
  unfold parse at h
  dsimp only at h
  split at h
  · cases h
  · cases h
  · split at h
    · cases h
      rfl
    · cases h

theorem malformed_of_parse {source : String} {cause : Cause} (h : parse source = .error cause) :
    ∃ rest flaw, cause = .malformedSelector source rest flaw := by
  unfold parse at h
  dsimp only at h
  split at h
  · cases h
    exact ⟨_, _, rfl⟩
  · cases h
    exact ⟨_, _, rfl⟩
  · split at h
    · cases h
    · cases h
      exact ⟨_, _, rfl⟩

theorem IsRead.parse_source {s : Selector} (h : s.IsRead) : parse s.source = .ok s := by
  obtain ⟨source, h⟩ := h
  rw [source_of_parse h]
  exact h

end Selector

namespace Tree

/-! ## What is in a tree -/

section Values

variable {σ : Type}

mutual

/-- All values in a tree: that of the node, those nested in it, then those of the children. -/
def values : Tree σ → List (Value (Tree σ) σ)
  | ⟨_, value, children⟩ => valuesOf value ++ valuesAll children

def valuesOf : Option (Value (Tree σ) σ) → List (Value (Tree σ) σ)
  | none => []
  | some (.node t) => .node t :: values t
  | some v => [v]

def valuesAll : List (Tree σ) → List (Value (Tree σ) σ)
  | [] => []
  | t :: ts => values t ++ valuesAll ts

end

def selectors (t : Tree σ) : List σ := t.values.filterMap Value.asSelector?

def selectorsOf (v : Option (Value (Tree σ) σ)) : List σ := (valuesOf v).filterMap Value.asSelector?

def selectorsAll (ts : List (Tree σ)) : List σ := (valuesAll ts).filterMap Value.asSelector?

mutual

/-- How many nodes lie one below the other, through children and nested values. -/
def height : Tree σ → Nat
  | ⟨_, value, children⟩ => max (heightOf value) (heightAll children) + 1

def heightOf : Option (Value (Tree σ) σ) → Nat
  | some (.node t) => height t
  | _ => 0

def heightAll : List (Tree σ) → Nat
  | [] => 0
  | t :: ts => max (height t) (heightAll ts)

end

theorem height_le_heightAll {t : Tree σ} {ts : List (Tree σ)} (h : t ∈ ts) :
    t.height ≤ heightAll ts := by
  induction ts with
  | nil => cases h
  | cons u us ih =>
    rw [heightAll]
    rcases List.mem_cons.mp h with rfl | h
    · exact Nat.le_max_left _ _
    · exact Nat.le_trans (ih h) (Nat.le_max_right _ _)

end Values

/-! ## Reading selectors -/

section Selectors

variable {σ : Type}

theorem selectors_mk (name : String) (v : Option (Value (Tree σ) σ)) (ts : List (Tree σ)) :
    selectors ⟨name, v, ts⟩ = selectorsOf v ++ selectorsAll ts := by
  rw [selectors, values, List.filterMap_append, selectorsOf, selectorsAll]

theorem selectorsOf_node (t : Tree σ) : selectorsOf (some (.node t)) = t.selectors := by
  rw [selectorsOf, valuesOf, List.filterMap_cons_none rfl, selectors]

theorem selectorsAll_cons (t : Tree σ) (ts : List (Tree σ)) :
    selectorsAll (t :: ts) = t.selectors ++ selectorsAll ts := by
  rw [selectorsAll, valuesAll, List.filterMap_append, selectors, selectorsAll]

theorem mem_selectorsAll {s : σ} {ts : List (Tree σ)} (h : s ∈ selectorsAll ts) :
    ∃ t ∈ ts, s ∈ t.selectors := by
  induction ts with
  | nil => cases h
  | cons t ts ih =>
    rw [selectorsAll_cons, List.mem_append] at h
    rcases h with h | h
    · exact ⟨t, List.mem_cons_self, h⟩
    · obtain ⟨u, hu, h⟩ := ih h
      exact ⟨u, List.mem_cons_of_mem _ hu, h⟩

end Selectors

mutual

theorem selectors_readSelectors (s : Snapshot) :
    (readSelectors s).map selectors = s.selectors.mapM Selector.parse := by
  match s with
  | ⟨name, value, children⟩ =>
    rw [selectors_mk, List.mapM_append, ← selectors_readSelectorsValue value,
      ← selectors_readSelectorsAll children, readSelectors]
    cases readSelectorsValue value with
    | error cause => rfl
    | ok v =>
      cases readSelectorsAll children with
      | error cause => rfl
      | ok ts => exact congrArg Except.ok (selectors_mk name v ts)

theorem selectors_readSelectorsValue (v : Option (Value Snapshot String)) :
    (readSelectorsValue v).map selectorsOf = (selectorsOf v).mapM Selector.parse := by
  match v with
  | some (.node t) =>
    rw [selectorsOf_node, ← selectors_readSelectors t, readSelectorsValue]
    cases readSelectors t with
    | error cause => rfl
    | ok t => exact congrArg Except.ok (selectorsOf_node t)
  | some (.selector s) =>
    have hone : (selectorsOf (some (.selector s))).mapM Selector.parse =
        (Selector.parse s).map fun found => [found] := by
      have hlist : selectorsOf (some (.selector s)) = [s] := by
        simp [selectorsOf, valuesOf, Value.asSelector?]
      rw [hlist, List.mapM_cons]
      cases Selector.parse s with
      | error cause => rfl
      | ok found => rfl
    rw [hone, readSelectorsValue]
    cases Selector.parse s with
    | error cause => rfl
    | ok s => rfl
  | none | some (.bool _) | some (.int _) | some (.float _) | some (.string _) => rfl

theorem selectors_readSelectorsAll (ts : List Snapshot) :
    (readSelectorsAll ts).map selectorsAll = (selectorsAll ts).mapM Selector.parse := by
  match ts with
  | [] => rfl
  | t :: ts =>
    rw [selectorsAll_cons, List.mapM_append, ← selectors_readSelectors t, ← selectors_readSelectorsAll ts,
      readSelectorsAll]
    cases readSelectors t with
    | error cause => rfl
    | ok t =>
      cases readSelectorsAll ts with
      | error cause => rfl
      | ok ts => exact congrArg Except.ok (selectorsAll_cons t ts)

end

/-- The first of some texts that cannot be read as a selector, and why. -/
structure FirstMalformed (sources : List String) (source : String) (cause : Cause) : Prop where
  first : ∃ before after, sources = before ++ source :: after ∧
    ∀ text ∈ before, ∃ s, Selector.parse text = .ok s
  cause : Selector.parse source = .error cause

theorem readAll_cases (sources : List String) :
    (∃ found, sources.mapM Selector.parse = .ok found ∧
      ∀ source ∈ sources, ∃ s, Selector.parse source = .ok s) ∨
    ∃ source cause, sources.mapM Selector.parse = .error cause ∧
      FirstMalformed sources source cause := by
  induction sources with
  | nil => exact .inl ⟨[], rfl, by simp⟩
  | cons text rest ih =>
    rw [List.mapM_cons]
    cases htext : Selector.parse text with
    | error cause => exact .inr ⟨text, cause, rfl, ⟨[], rest, rfl, by simp⟩, htext⟩
    | ok s =>
      rcases ih with ⟨found, hfound, hall⟩ | ⟨source, cause, hcause, ⟨before, after, rfl, hbefore⟩, hsource⟩
      · rw [hfound]
        exact .inl ⟨s :: found, rfl, List.forall_mem_cons.mpr ⟨⟨s, htext⟩, hall⟩⟩
      · rw [hcause]
        exact .inr ⟨source, cause, rfl,
          ⟨text :: before, after, rfl, List.forall_mem_cons.mpr ⟨⟨s, htext⟩, hbefore⟩⟩, hsource⟩

theorem FirstMalformed.not_read {sources : List String} {source : String} {cause : Cause}
    (h : FirstMalformed sources source cause) :
    ¬ ∀ source ∈ sources, ∃ s, Selector.parse source = .ok s := by
  intro hall
  obtain ⟨before, after, rfl, -⟩ := h.first
  obtain ⟨s, hs⟩ := hall source (by simp)
  rw [h.cause] at hs
  cases hs

theorem firstMalformed_of_readSelectors {s : Snapshot} {cause : Cause}
    (h : readSelectors s = .error cause) : ∃ source, FirstMalformed s.selectors source cause := by
  have hall := selectors_readSelectors s
  rw [h] at hall
  rcases readAll_cases s.selectors with ⟨found, hfound, -⟩ | ⟨source, first, hfirst, hmalformed⟩
  · rw [← hall] at hfound
    cases hfound
  · rw [← hall] at hfirst
    cases hfirst
    exact ⟨source, hmalformed⟩

theorem readSelectors_ok_iff {s : Snapshot} :
    (∃ t, readSelectors s = .ok t) ↔
      ∀ source ∈ s.selectors, ∃ selector, Selector.parse source = .ok selector := by
  constructor
  · rintro ⟨t, ht⟩
    have hall := selectors_readSelectors s
    rw [ht] at hall
    rcases readAll_cases s.selectors with ⟨_, -, hread⟩ | ⟨source, first, hfirst, -⟩
    · exact hread
    · rw [← hall] at hfirst
      cases hfirst
  · intro h
    cases ht : readSelectors s with
    | ok t => exact ⟨t, rfl⟩
    | error cause =>
      obtain ⟨source, hfirst⟩ := firstMalformed_of_readSelectors ht
      exact absurd h hfirst.not_read

/-! ## What was read -/

mutual

theorem snapshot_of_readSelectors {s : Snapshot} {t : Tree Selector} (h : readSelectors s = .ok t) :
    t.snapshot = s := by
  match s with
  | ⟨name, value, children⟩ =>
    rw [readSelectors] at h
    cases hv : readSelectorsValue value with
    | error cause => rw [hv] at h; cases h
    | ok v =>
      cases hc : readSelectorsAll children with
      | error cause => rw [hv, hc] at h; cases h
      | ok ts =>
        rw [hv, hc] at h
        cases h
        rw [snapshot, mapSelectors, snapshot_of_readSelectorsValue hv, snapshot_of_readSelectorsAll hc]

theorem snapshot_of_readSelectorsValue {v : Option (Value Snapshot String)}
    {u : Option (Value (Tree Selector) Selector)} (h : readSelectorsValue v = .ok u) :
    mapSelectorsValue Selector.source u = v := by
  match v with
  | some (.node t) =>
    rw [readSelectorsValue] at h
    cases ht : readSelectors t with
    | error cause => rw [ht] at h; cases h
    | ok u =>
      have hs := snapshot_of_readSelectors ht
      rw [ht] at h
      cases h
      rw [mapSelectorsValue, ← snapshot, hs]
  | some (.selector s) =>
    rw [readSelectorsValue] at h
    cases hs : Selector.parse s with
    | error cause => rw [hs] at h; cases h
    | ok u =>
      have hsource := Selector.source_of_parse hs
      rw [hs] at h
      cases h
      rw [mapSelectorsValue, hsource]
  | none | some (.bool _) | some (.int _) | some (.float _) | some (.string _) =>
    rw [readSelectorsValue] at h
    cases h
    rw [mapSelectorsValue]

theorem snapshot_of_readSelectorsAll {ss : List Snapshot} {ts : List (Tree Selector)}
    (h : readSelectorsAll ss = .ok ts) : mapSelectorsAll Selector.source ts = ss := by
  match ss with
  | [] =>
    rw [readSelectorsAll] at h
    cases h
    rw [mapSelectorsAll]
  | s :: ss =>
    rw [readSelectorsAll] at h
    cases hs : readSelectors s with
    | error cause => rw [hs] at h; cases h
    | ok t =>
      cases hss : readSelectorsAll ss with
      | error cause => rw [hs, hss] at h; cases h
      | ok us =>
        have ht := snapshot_of_readSelectors hs
        have hts := snapshot_of_readSelectorsAll hss
        rw [hs, hss] at h
        cases h
        rw [mapSelectorsAll, ← snapshot, ht, hts]

end

/-! ## Reading back a tree -/

mutual

theorem readSelectors_snapshot {t : Tree Selector} (h : ∀ s ∈ t.selectors, s.IsRead) :
    readSelectors t.snapshot = .ok t := by
  match t with
  | ⟨name, value, children⟩ =>
    rw [selectors_mk, List.forall_mem_append] at h
    rw [snapshot, mapSelectors, readSelectors, readSelectorsValue_snapshot h.1,
      readSelectorsAll_snapshot h.2]
    rfl

theorem readSelectorsValue_snapshot {v : Option (Value (Tree Selector) Selector)}
    (h : ∀ s ∈ selectorsOf v, s.IsRead) :
    readSelectorsValue (mapSelectorsValue Selector.source v) = .ok v := by
  match v with
  | some (.node t) =>
    rw [selectorsOf_node] at h
    have ht := readSelectors_snapshot h
    rw [snapshot] at ht
    rw [mapSelectorsValue, readSelectorsValue, ht]
    rfl
  | some (.selector s) =>
    have hs : s.IsRead := h s (by simp [selectorsOf, valuesOf, Value.asSelector?])
    rw [mapSelectorsValue, readSelectorsValue, hs.parse_source]
    rfl
  | none | some (.bool _) | some (.int _) | some (.float _) | some (.string _) =>
    rw [mapSelectorsValue, readSelectorsValue]

theorem readSelectorsAll_snapshot {ts : List (Tree Selector)}
    (h : ∀ s ∈ selectorsAll ts, s.IsRead) :
    readSelectorsAll (mapSelectorsAll Selector.source ts) = .ok ts := by
  match ts with
  | [] => rw [mapSelectorsAll, readSelectorsAll]
  | t :: ts =>
    rw [selectorsAll_cons, List.forall_mem_append] at h
    have ht := readSelectors_snapshot h.1
    rw [snapshot] at ht
    rw [mapSelectorsAll, readSelectorsAll, ht, readSelectorsAll_snapshot h.2]
    rfl

end

/-! ## A tree is equal to itself in the order -/

mutual

theorem compare_self (s : Snapshot) : compare s s = .eq := by
  match s with
  | ⟨name, value, children⟩ =>
    rw [compare, compareValues_self, compareAll_self, Std.compare_self, Std.compare_self]
    rfl

theorem compareValues_self (v : Option (Value Snapshot String)) : compareValues v v = .eq := by
  match v with
  | some (.node t) => rw [compareValues, compare_self]
  | none => rw [compareValues]
  | some (.bool _) | some (.int _) | some (.string _) | some (.selector _) =>
    rw [compareValues, Std.compare_self]
  | some (.float _) => rw [compareValues, Double.compare, Std.compare_self]

theorem compareAll_self (ts : List Snapshot) : compareAll ts ts = .eq := by
  match ts with
  | [] => rw [compareAll]; simp
  | t :: ts =>
    rw [compareAll, compare_self, compareAll_self]
    rfl

end

end Tree

end EventTree
