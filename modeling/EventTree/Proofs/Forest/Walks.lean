import EventTree.Proofs.Forest.Paths

/-!
# Walks in document order

`nextNode?` goes down to the first child or up to the nearest next sibling, `previousNode?` down to the
last descendant of the previous sibling or up to the parent. Main statement: the two undo each other, and
from a root `nextNode?` goes through the whole subtree, each node once, and `previousNode?` the same way
back.
-/

namespace EventTree.Forest

/-- Steps lead from each item of a list to the one after it, and from the last one to `beyond`. -/
def Leads (step : NodeId → Option NodeId) (beyond : Option NodeId) : List NodeId → Prop
  | [] => True
  | n :: rest => step n = rest.head?.or beyond ∧ Leads step beyond rest

section Leads

variable {step back : NodeId → Option NodeId} {beyond before : Option NodeId} {l l' : List NodeId}

theorem leads_append :
    Leads step beyond (l ++ l') ↔ Leads step (l'.head?.or beyond) l ∧ Leads step beyond l' := by
  induction l with
  | nil => simp [Leads]
  | cons n l ih =>
    rw [List.cons_append, Leads, Leads, ih, List.head?_append, Option.or_assoc, and_assoc]

theorem Leads.reverse (h : Leads step beyond l) (hback : ∀ a b, step a = some b → back b = some a)
    (hfirst : ∀ n ∈ l.head?, back n = before) : Leads back before l.reverse := by
  induction l generalizing before with
  | nil => trivial
  | cons n l ih =>
    obtain ⟨hstep, hrest⟩ := h
    rw [List.reverse_cons, leads_append]
    refine ⟨ih hrest fun m hm => hback n m ?_, hfirst n rfl, trivial⟩
    rw [hstep, Option.mem_def.mp hm]
    rfl

end Leads

theorem previousNode?_of_root {f : Forest} {n : NodeId} (h : f.parent n = none) :
    f.previousNode? n = none := by
  have hsibling : f.previousSibling? n = none := by rw [previousSibling?, h]; rfl
  rw [previousNode?, hsibling, h]

theorem head?_subtrees (f : Forest) (l : List NodeId) : (l.flatMap f.subtree).head? = l.head? := by
  cases l <;> rfl

namespace WellFormed

variable {f : Forest} (wf : f.WellFormed)

include wf

/-! ## Beyond a subtree -/

theorem nextBeyond?_of_root {n : NodeId} (h : f.parent n = none) : f.nextBeyond? n = none := by
  have hsibling : f.nextSibling? n = none := by rw [nextSibling?, h]; rfl
  rw [wf.loopsEnd.nextBeyond?, hsibling, h]
  rfl

theorem nextBeyond?_of_split {p n : NodeId} {l r : List NodeId} (h : f.children p = l ++ n :: r) :
    f.nextBeyond? n = r.head?.or (f.nextBeyond? p) := by
  rw [wf.loopsEnd.nextBeyond?, wf.nextSibling?_of_split h, wf.parent_of_split h]
  cases r <;> rfl

theorem nextNode?_eq (n : NodeId) :
    f.nextNode? n = (f.children n).head?.or (f.nextBeyond? n) := by
  rw [wf.loopsEnd.nextNode?]
  cases f.children n <;> rfl

/-- The last descendant is a leaf, and the walk leaves the subtree from there. -/
theorem nextNode?_lastBelow (n : NodeId) :
    f.nextNode? (f.lastBelow f.size n) = f.nextBeyond? n := by
  induction n using wf.wellFounded_children.induction with
  | _ n ih =>
    rcases List.eq_nil_or_concat (f.children n) with hnil | ⟨l, c, hlast⟩
    · rw [wf.lastBelow_of_leaf hnil, wf.nextNode?_eq, hnil]
      rfl
    · rw [List.concat_eq_append] at hlast
      have hc : c ∈ f.children n := hlast ▸ List.mem_append_right l List.mem_cons_self
      rw [wf.lastBelow_of_last hlast, ih c hc, wf.nextBeyond?_of_split hlast]
      rfl

/-! ## Forwards -/

theorem leads_subtree (n : NodeId) : Leads f.nextNode? (f.nextBeyond? n) (f.subtree n) := by
  induction n using wf.wellFounded_children.induction with
  | _ n ih =>
    -- One subtree leads to the next sibling, and that of the last child to what is beyond `n`.
    have hbelow : ∀ l r, f.children n = l ++ r →
        Leads f.nextNode? (f.nextBeyond? n) (r.flatMap f.subtree) := by
      intro l r
      induction r generalizing l with
      | nil => exact fun _ => trivial
      | cons c r ihr =>
        intro hsplit
        have hc : c ∈ f.children n := hsplit ▸ List.mem_append_right l List.mem_cons_self
        rw [List.flatMap_cons, leads_append, head?_subtrees, ← wf.nextBeyond?_of_split hsplit]
        exact ⟨ih c hc, ihr (l ++ [c]) (by rw [hsplit, List.append_assoc]; rfl)⟩
    rw [subtree, wf.descendants_eq]
    refine ⟨?_, hbelow [] _ rfl⟩
    rw [head?_subtrees, wf.nextNode?_eq]

/-! ## Backwards -/

theorem nextNode?_of_previousNode? {a b : NodeId} (h : f.previousNode? b = some a) :
    f.nextNode? a = some b := by
  cases hp : f.parent b with
  | none =>
    rw [previousNode?_of_root hp] at h
    cases h
  | some p =>
    obtain ⟨l, r, hsplit⟩ := List.append_of_mem ((wf.linked p b).mpr hp)
    rw [previousNode?, wf.previousSibling?_of_split hsplit, hp] at h
    rcases List.eq_nil_or_concat l with rfl | ⟨l, s, rfl⟩
    · -- A first child comes right after its parent.
      cases h
      rw [wf.nextNode?_eq, hsplit]
      rfl
    · -- After the last descendant of a sibling comes what is beyond that sibling.
      rw [List.concat_eq_append] at hsplit h
      rw [List.getLast?_concat] at h
      cases h
      rw [List.append_assoc] at hsplit
      rw [wf.nextNode?_lastBelow, wf.nextBeyond?_of_split hsplit]
      rfl

/-- What comes beyond a subtree has the last node of the subtree right before it. The induction goes up
along last children, whose subtrees end with one and the same node. -/
theorem previousNode?_of_nextBeyond? {n b : NodeId} (h : f.nextBeyond? n = some b) :
    f.previousNode? b = some (f.lastBelow f.size n) := by
  induction n using wf.wellFounded.induction with
  | _ n ih =>
    cases hp : f.parent n with
    | none =>
      rw [wf.nextBeyond?_of_root hp] at h
      cases h
    | some p =>
      obtain ⟨l, r, hsplit⟩ := List.append_of_mem ((wf.linked p n).mpr hp)
      rw [wf.nextBeyond?_of_split hsplit] at h
      cases r with
      | nil =>
        rw [← wf.lastBelow_of_last hsplit]
        exact ih p hp h
      | cons s r =>
        cases h
        have hnext : f.children p = (l ++ [n]) ++ b :: r := by rw [hsplit, List.append_assoc]; rfl
        rw [previousNode?, wf.previousSibling?_of_split hnext, List.getLast?_concat]

theorem previousNode?_of_nextNode? {a b : NodeId} (h : f.nextNode? a = some b) :
    f.previousNode? b = some a := by
  rw [wf.nextNode?_eq] at h
  cases hc : f.children a with
  | nil =>
    rw [hc] at h
    rw [wf.previousNode?_of_nextBeyond? h, wf.lastBelow_of_leaf hc]
  | cons c r =>
    rw [hc] at h
    cases h
    have hsplit : f.children a = [] ++ b :: r := hc
    rw [previousNode?, wf.previousSibling?_of_split hsplit]
    exact wf.parent_of_split hsplit

end WellFormed

/-! ## The main statement -/

/-- From a root the next nodes are all that is below it, each of them once, and the previous nodes are the
same in reverse. -/
theorem walk_visits_subtree {f : Forest} (wf : f.WellFormed) :
    (∀ r, f.parent r = none →
      Leads f.nextNode? none (r :: f.descendants r) ∧
      (r :: f.descendants r).Nodup ∧
      (∀ m, m ∈ r :: f.descendants r ↔ f.root m = r) ∧
      Leads f.previousNode? none (r :: f.descendants r).reverse) ∧
    ∀ a b, f.nextNode? a = some b ↔ f.previousNode? b = some a := by
  refine ⟨fun r hr => ?_, fun a b =>
    ⟨wf.previousNode?_of_nextNode?, wf.nextNode?_of_previousNode?⟩⟩
  have hforwards : Leads f.nextNode? none (f.subtree r) := by
    rw [← wf.nextBeyond?_of_root hr]
    exact wf.leads_subtree r
  refine ⟨hforwards, wf.nodup_subtree r, fun m => ⟨fun hm => ?_, fun hm => ?_⟩, ?_⟩
  · rw [wf.root_of_mem_subtree hm, wf.root_of_root hr]
  · rw [← hm]
    exact wf.mem_subtree_root m
  · refine hforwards.reverse (fun a b => wf.previousNode?_of_nextNode?) fun n hn => ?_
    cases hn
    exact previousNode?_of_root hr

/-- A walk down two branches, up over two levels at once, and back. -/
theorem walk_visits_subtree_of_branches :
    let f := Forest.empty.perform [.new "r", .addChild ⟨0⟩ "a", .addChild ⟨1⟩ "b",
      .addChild ⟨2⟩ "c", .addChild ⟨0⟩ "d", .addChild ⟨4⟩ "e", .new "other"]
    f.WellFormed ∧ f.parent ⟨0⟩ = none ∧ f.descendants ⟨0⟩ = [⟨1⟩, ⟨2⟩, ⟨3⟩, ⟨4⟩, ⟨5⟩] ∧
      Leads f.nextNode? none [⟨0⟩, ⟨1⟩, ⟨2⟩, ⟨3⟩, ⟨4⟩, ⟨5⟩] ∧
      Leads f.previousNode? none [⟨5⟩, ⟨4⟩, ⟨3⟩, ⟨2⟩, ⟨1⟩, ⟨0⟩] ∧
      (f.nextNode? ⟨3⟩ = some ⟨4⟩ ↔ f.previousNode? ⟨4⟩ = some ⟨3⟩) := by
  intro f
  have wf : f.WellFormed := wellFormed_empty.perform (by decide)
  have hroot : f.parent ⟨0⟩ = none := by decide
  have hbelow : f.descendants ⟨0⟩ = [⟨1⟩, ⟨2⟩, ⟨3⟩, ⟨4⟩, ⟨5⟩] := by decide
  obtain ⟨hwalk, hback⟩ := walk_visits_subtree wf
  obtain ⟨hforwards, -, -, hbackwards⟩ := hwalk ⟨0⟩ hroot
  rw [hbelow] at hforwards hbackwards
  exact ⟨wf, hroot, hbelow, hforwards, hbackwards, hback ⟨3⟩ ⟨4⟩⟩

end EventTree.Forest
