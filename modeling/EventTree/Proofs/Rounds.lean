import EventTree.Proofs.Results

/-!
# Rounds

A loop executes its body for one item after the other, and a declared event runs one body after the
other. What is done for one item is a round. Rounds are taken up to the first that ends them all.
-/

namespace EventTree

/-- Something that was run: the world it began in, how it ended, and the world that it left. -/
structure Round where
  start : World
  outcome : Except Error Flow
  left : World

/-- Rounds taken for items from a world on, how it all ends, and the world that is left. `takes` says what
the round of an item is, given the items after it and the world that it is taken in; `ends` says how it all
ends after a round, if it does. -/
inductive Taken {α : Type} (takes : α → List α → World → Round → Prop)
    (ends : Round → Option (Except Error Flow)) :
    List α → World → List Round → Except Error Flow → World → Prop
  | done {w : World} : Taken takes ends [] w [] (.ok .normal) w
  | last {item : α} {rest : List α} {w : World} {r : Round} {ended : Except Error Flow} :
    takes item rest w r → ends r = some ended →
      Taken takes ends (item :: rest) w [r] ended r.left
  | next {item : α} {rest : List α} {w w' : World} {r : Round} {rounds : List Round}
    {ended : Except Error Flow} :
    takes item rest w r → ends r = none → Taken takes ends rest r.left rounds ended w' →
      Taken takes ends (item :: rest) w (r :: rounds) ended w'

namespace Taken

variable {α : Type} {takes : α → List α → World → Round → Prop}
  {ends : Round → Option (Except Error Flow)} {items : List α} {w w' : World} {rounds : List Round}
  {ended : Except Error Flow} (h : Taken takes ends items w rounds ended w')

include h

theorem length_eq (hgoes : ∀ r ∈ rounds, ends r = none) :
    rounds.length = items.length ∧ ended = .ok .normal := by
  induction h with
  | done => simp
  | last _ hends =>
    rw [hgoes _ (List.mem_singleton_self _)] at hends
    cases hends
  | next _ _ _ ih =>
    obtain ⟨hlength, hended⟩ := ih fun r hr => hgoes r (List.mem_cons_of_mem _ hr)
    exact ⟨by simp [hlength], hended⟩

theorem ends_at {k : Nat} {r : Round} {past : Except Error Flow} (hk : rounds[k]? = some r)
    (hends : ends r = some past) : rounds.length = k + 1 ∧ ended = past := by
  induction h generalizing k with
  | done => simp at hk
  | last _ hlast =>
    cases k with
    | zero =>
      obtain rfl := Option.some.inj hk
      rw [hends] at hlast
      cases hlast
      simp
    | succ k => simp at hk
  | next _ hgoes _ ih =>
    cases k with
    | zero =>
      obtain rfl := Option.some.inj hk
      rw [hends] at hgoes
      cases hgoes
    | succ k =>
      obtain ⟨hlength, hended⟩ := ih hk
      exact ⟨by simp [hlength], hended⟩

/-- What holds of each round, and of the world in which the next is taken, holds of all rounds. -/
theorem forall_rounds {inv : World → Prop} {post : α → Round → Prop}
    (hstep : ∀ {item rest v r}, inv v → takes item rest v r → post item r ∧ inv r.left)
    (hw : inv w) {k : Nat} {r : Round} (hk : rounds[k]? = some r) :
    ∃ item, items[k]? = some item ∧ post item r := by
  -- The invariant is handed on from the world of one round to that of the next.
  induction h generalizing k with
  | done => simp at hk
  | last htakes _ =>
    cases k with
    | zero =>
      obtain rfl := Option.some.inj hk
      exact ⟨_, rfl, (hstep hw htakes).1⟩
    | succ k => simp at hk
  | next htakes _ _ ih =>
    cases k with
    | zero =>
      obtain rfl := Option.some.inj hk
      exact ⟨_, rfl, (hstep hw htakes).1⟩
    | succ k => exact ih (hstep hw htakes).2 hk

end Taken

end EventTree
