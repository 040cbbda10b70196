import EventTree.Proofs.Selection.Lasting

/-!
# Sources and destinations of assignments

What `set` and `add` read before they write: the selector of the statement, the value that a source carries,
and the nodes and values that sources contribute. All of it comes from nodes of the forest, and what is
contributed stays the same as long as nodes are only added.
-/

namespace EventTree

/-! ## Contributions -/

/-- What a source contributes: a node, or a value, which stands on a node without a name. -/
inductive Contribution
  | node (n : NodeId)
  | value (v : LiveValue)
  deriving DecidableEq

namespace Contribution

/-- The tree that is copied. -/
def tree (f : Forest) : Contribution → Tree Selector
  | node n => f.view n
  | value v => ⟨"", f.viewValue (some v), []⟩

/-- The node whose tree is copied, unless it is a plain value. -/
def root? : Contribution → Option NodeId
  | node n | value (.node n) => some n
  | value _ => none

/-- Its tree, through children and nested values, is finite. -/
def IsFinite (c : Contribution) (f : Forest) : Prop := ∀ n, c.root? = some n → f.IsFinite n

end Contribution

namespace Forest

open Keyword

/-- What a source contributes, in order. -/
def contributions (f : Forest) (hold : Hold) (source : NodeId) : List Contribution :=
  match f.value source with
  | some (.selector s) =>
    if s.kind = .node then (s.select (f.seen hold) source).nodes.map .node
    else (((s.select (f.seen hold) source).values f).filterMap id).map .value
  | some (.node n) => [.node n]
  | _ => (f.children source).map .node

/-- What all sources of an `add` contribute, in order. -/
def additions (f : Forest) (hold : Hold) (n : NodeId) : List Contribution :=
  (f.findAll n sourceName).flatMap (f.contributions hold)

section Contributions

variable {f : Forest} (wf : f.WellFormed) {hold : Hold} {source : NodeId} (hs : f.Has source)

include wf hs

theorem has_contribution {c : Contribution} (hc : c ∈ f.contributions hold source) {n : NodeId}
    (hn : c.root? = some n) : f.Has n := by
  unfold contributions at hc
  split at hc
  · rename_i s _
    split at hc
    · obtain ⟨m, hm, rfl⟩ := List.mem_map.mp hc
      cases hn
      exact wf.has_select hold hs hm
    · obtain ⟨v, hv, rfl⟩ := List.mem_map.mp hc
      have hv : some v ∈ (s.select (f.seen hold) source).values f := by simpa using hv
      have hmine := (Plot.whole wf).tended_start.closed.values
        (fun m hm => ⟨trivial, wf.has_select hold hs hm⟩) hv
      have hnode : v = .node n := by
        cases v <;> simp_all [Contribution.root?]
      exact (hmine n (congrArg some hnode)).2
  · rename_i m hm
    rw [List.mem_singleton.mp hc] at hn
    cases hn
    exact wf.held source _ hm
  · obtain ⟨m, hm, rfl⟩ := List.mem_map.mp hc
    cases hn
    exact wf.has_child hm

theorem has_carried {r : NodeId} (hr : carried (f.seen hold) source = some (.node r)) : f.Has r :=
  (Plot.Keeps.mineIn_carried ((Plot.whole wf).tended_start.closed_seen hold) ⟨trivial, hs⟩ r hr).2

theorem Untouched.contributions_eq {g : Forest} (h : f.Untouched g) :
    g.contributions hold source = f.contributions hold source := by
  have hselect : ∀ s : Selector, s.select (g.seen hold) source = s.select (f.seen hold) source := fun s =>
    (h.seen wf hold).select_eq ((seen_pruned wf hold).has.mpr hs) (seen_pruned wf hold).wellFormed s
  unfold contributions
  rw [h.value_eq hs]
  split
  · rename_i s _
    rw [hselect, h.values_eq fun n hn => wf.has_select hold hs hn]
  · rfl
  · rw [h.children_eq hs]

end Contributions

end Forest

namespace Keyword

open EventTree.Action

/-! ## Selectors of statements -/

section Destination

variable {hold : Hold} {w : World} {n : NodeId}

theorem result_destination {s : Selector} (hs : w.forest.value n = some (.selector s)) :
    (destination n).result hold w = (.ok s, w) := by
  rw [destination, result_bind_ok (result_ask _), hs]
  rfl

theorem result_destination_of_other (h : ∀ s, w.forest.value n ≠ some (.selector s)) :
    (destination n).result hold w =
      (.error (.error (.ofCause (.noDestination (w.forest.name n)))), w) := by
  rw [destination, result_bind_ok (result_ask _)]
  split
  · rename_i s hs
    exact absurd hs (h s)
  · rw [result_bind_ok (result_ask _), result_fail]

end Destination

end Keyword

end EventTree
