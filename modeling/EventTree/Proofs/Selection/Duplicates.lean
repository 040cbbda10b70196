import EventTree.Selection
import Mathlib.Data.List.Induction
import Mathlib.Data.List.Nodup

/-!
# Duplicates among the nodes found

Each step of a selector drops the nodes that it has reached before. Main statement: no node is found
twice, and unless a range counts the nodes in between, dropping them at every step gives the same nodes in
the same order as following all steps from every node and dropping what came before once at the end.
-/

namespace EventTree

/-! ## Lists without duplicates -/

section Lists

variable {α β : Type} [BEq α] [LawfulBEq α] [BEq β] [LawfulBEq β]

theorem removeAll_congr {l k k' : List α} (h : ∀ a, a ∈ k ↔ a ∈ k') : l.removeAll k = l.removeAll k' := by
  refine List.filter_congr fun a _ => ?_
  rw [Bool.eq_iff_iff, Bool.not_eq_true', Bool.not_eq_true', ← Bool.not_eq_true, ← Bool.not_eq_true,
    List.elem_iff, List.elem_iff, h]

theorem removeAll_eq_nil {l k : List α} (h : ∀ a ∈ l, a ∈ k) : l.removeAll k = [] :=
  List.filter_eq_nil_iff.mpr fun a ha => by simpa using h a ha

theorem eraseDups_concat_of_mem {l : List α} {a : α} (h : a ∈ l) :
    (l ++ [a]).eraseDups = l.eraseDups := by
  have hnone : [a].removeAll l = [] := removeAll_eq_nil (by simpa using h)
  rw [List.eraseDups_append, hnone, List.eraseDups_nil, List.append_nil]

theorem eraseDups_concat_of_not_mem {l : List α} {a : α} (h : a ∉ l) :
    (l ++ [a]).eraseDups = l.eraseDups ++ [a] := by
  have hself : [a].removeAll l = [a] := by simpa [List.removeAll] using h
  rw [List.eraseDups_append, hself]
  rfl

theorem nodup_eraseDups (l : List α) : l.eraseDups.Nodup := by
  induction l using List.reverseRecOn with
  | nil => exact List.nodup_nil
  | append_singleton l a ih =>
    by_cases ha : a ∈ l
    · rwa [eraseDups_concat_of_mem ha]
    · rw [eraseDups_concat_of_not_mem ha]
      exact List.nodup_append.mpr ⟨ih, List.nodup_singleton a, fun b hb c hc e =>
        ha (List.mem_eraseDups.mp (List.mem_singleton.mp hc ▸ e ▸ hb))⟩

theorem eraseDups_sublist (l : List α) : l.eraseDups.Sublist l := by
  induction l using List.reverseRecOn with
  | nil => exact .slnil
  | append_singleton l a ih =>
    by_cases ha : a ∈ l
    · rw [eraseDups_concat_of_mem ha]
      exact ih.trans (List.sublist_append_left l [a])
    · rw [eraseDups_concat_of_not_mem ha]
      exact ih.append (List.Sublist.refl [a])

theorem eraseDups_of_nodup {l : List α} (h : l.Nodup) : l.eraseDups = l := by
  induction l using List.reverseRecOn with
  | nil => rfl
  | append_singleton l a ih =>
    have ha : a ∉ l := fun hm => (List.nodup_append.mp h).2.2 a hm a List.mem_cons_self rfl
    rw [eraseDups_concat_of_not_mem ha, ih (List.nodup_append.mp h).1]

/-- What comes of an item that was there before came before too. -/
theorem eraseDups_flatMap_eraseDups (l : List α) (g : α → List β) :
    (l.eraseDups.flatMap g).eraseDups = (l.flatMap g).eraseDups := by
  induction l using List.reverseRecOn with
  | nil => rfl
  | append_singleton l a ih =>
    have hright : ((l ++ [a]).flatMap g).eraseDups =
        (l.eraseDups.flatMap g).eraseDups ++ ((g a).removeAll (l.flatMap g)).eraseDups := by
      rw [List.flatMap_append, List.flatMap_singleton, List.eraseDups_append, ih]
    rw [hright]
    by_cases ha : a ∈ l
    · have hnone : (g a).removeAll (l.flatMap g) = [] :=
        removeAll_eq_nil fun b hb => List.mem_flatMap.mpr ⟨a, ha, hb⟩
      rw [eraseDups_concat_of_mem ha, hnone, List.eraseDups_nil, List.append_nil]
    · have hsame : ∀ b, b ∈ l.eraseDups.flatMap g ↔ b ∈ l.flatMap g := fun b => by
        simp only [List.mem_flatMap, List.mem_eraseDups]
      rw [eraseDups_concat_of_not_mem ha, List.flatMap_append, List.flatMap_singleton,
        List.eraseDups_append, removeAll_congr hsame]

end Lists

namespace Forest

/-! ## Following steps -/

/-- Where steps lead from one node, along every way and with nothing dropped. -/
def images (f : Forest) : List Step → NodeId → List NodeId
  | [], n => [n]
  | step :: steps, n => (f.image step n).flatMap (f.images steps)

theorem follow_cons (f : Forest) (step : Step) (steps : List Step) (nodes : List NodeId) :
    f.follow (step :: steps) nodes = f.follow steps (f.advance step nodes).eraseDups := rfl

theorem nodup_follow (f : Forest) (steps : List Step) {nodes : List NodeId} (h : nodes.Nodup) :
    (f.follow steps nodes).Nodup := by
  induction steps generalizing nodes with
  | nil => exact h
  | cons step steps ih => exact ih (nodup_eraseDups _)

theorem advance_of_not_range (f : Forest) {step : Step} (h : ∀ start stop, step ≠ .range start stop)
    (nodes : List NodeId) : f.advance step nodes = nodes.flatMap (f.image step) := by
  cases step with
  | range start stop => exact absurd rfl (h start stop)
  | _ => rfl

theorem eraseDups_follow (f : Forest) {steps : List Step} (h : ∀ start stop, .range start stop ∉ steps)
    (nodes : List NodeId) :
    (f.follow steps nodes).eraseDups = (nodes.flatMap (f.images steps)).eraseDups := by
  induction steps generalizing nodes with
  | nil =>
    have hself : nodes.flatMap (f.images []) = nodes := List.flatMap_singleton' nodes
    rw [hself]
    rfl
  | cons step steps ih =>
    have hstep : ∀ start stop, step ≠ .range start stop := fun start stop e =>
      h start stop (e ▸ List.mem_cons_self)
    have hrest : ∀ start stop, .range start stop ∉ steps := fun start stop hm =>
      h start stop (List.mem_cons_of_mem _ hm)
    -- What is dropped here would be dropped at the end, with all that comes of it.
    rw [follow_cons, ih hrest, f.advance_of_not_range hstep, eraseDups_flatMap_eraseDups,
      List.flatMap_assoc]
    rfl

end Forest

theorem Selector.nodup_select (s : Selector) (f : Forest) (origin : NodeId) :
    (s.select f origin).nodes.Nodup := f.nodup_follow s.steps (List.nodup_singleton origin)

/-! ## The main statement -/

/-- No node is found twice. Without ranges, what is found is what all steps together lead to, each node
where it comes first. -/
theorem Selector.select_drops_duplicates (s : Selector) (f : Forest) (origin : NodeId) :
    (s.select f origin).nodes.Nodup ∧
    ((∀ start stop, .range start stop ∉ s.steps) →
      (s.select f origin).nodes = (f.images s.steps origin).eraseDups) := by
  have hnodup := s.nodup_select f origin
  refine ⟨hnodup, fun hrange => ?_⟩
  have hdropped := f.eraseDups_follow hrange [origin]
  rw [List.flatMap_singleton] at hdropped
  exact (eraseDups_of_nodup hnodup).symm.trans hdropped

/-- Two children lead to their parent and from there to themselves again, each of them twice. -/
theorem Selector.select_drops_duplicates_of_return :
    let f := (Forest.plant ⟨"root", none, [⟨"_data", none, [⟨"a", none, []⟩, ⟨"b", none, []⟩]⟩]⟩ .empty).2
    let s : Selector := ⟨"/_data/*/./*", [.named "_data", .children, .parent, .children], .node⟩
    (∀ start stop, .range start stop ∉ s.steps) ∧
      f.images s.steps ⟨0⟩ = [⟨2⟩, ⟨3⟩, ⟨2⟩, ⟨3⟩] ∧ (s.select f ⟨0⟩).nodes = [⟨2⟩, ⟨3⟩] := by
  intro f s
  have hrange : ∀ start stop, Step.range start stop ∉ s.steps := by simp [s]
  have himages : f.images s.steps ⟨0⟩ = [⟨2⟩, ⟨3⟩, ⟨2⟩, ⟨3⟩] := by decide
  refine ⟨hrange, himages, ?_⟩
  rw [(s.select_drops_duplicates f ⟨0⟩).2 hrange, himages]
  decide

end EventTree
