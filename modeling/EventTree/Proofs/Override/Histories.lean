import EventTree.Proofs.Override.Removal

/-!
# Override graphs over time

A search for a way takes one pending event after the other, in whatever order, and each override is
followed at most once. So it ends, and what it finds does not depend on the order. A graph that is changed
only by adding and removing overrides therefore never has a cycle.
-/

namespace EventTree

open Relation

namespace OverrideGraph

/-! ## Rounds of a search -/

/-- A search under way: the events that are pending, maybe several times, and those that were visited. -/
structure Search where
  pending : List String
  visited : List String

/-- A search that begins at an event. -/
def Search.start (name : String) : Search := ⟨[name], []⟩

/-- A round of a search that goes on: some pending event that is not the target is taken. If it was visited
before, that is all; otherwise its supers become pending. -/
inductive Round (g : OverrideGraph) (target : String) : Search → Search → Prop
  | again {name : String} {pending rest visited : List String} :
      pending.Perm (name :: rest) → name ≠ target → name ∈ visited →
      Round g target ⟨pending, visited⟩ ⟨rest, visited⟩
  | first {name : String} {pending rest next visited : List String} :
      pending.Perm (name :: rest) → name ≠ target → name ∉ visited →
      next.Perm (g.supersOf name ++ rest) →
      Round g target ⟨pending, visited⟩ ⟨next, name :: visited⟩

/-- A search answers when it takes the target, or when nothing is pending. -/
inductive Search.Answers (target : String) : Search → Bool → Prop
  | found {s : Search} : target ∈ s.pending → Answers target s true
  | exhausted {s : Search} : s.pending = [] → Answers target s false

section Rounds

variable {g : OverrideGraph} {target : String} {s s' : Search}

/-- What a search may still look at: the pending events and the overrides of events that were not visited. -/
def Search.left (g : OverrideGraph) (s : Search) : Nat := s.pending.length + g.unseen s.visited

theorem Search.left_start (g : OverrideGraph) (name : String) :
    (Search.start name).left g = g.edgeCount + 1 := by
  rw [edgeCount_eq, Nat.add_comm]
  rfl

theorem Round.left_lt (h : g.Round target s s') : s'.left g < s.left g := by
  cases h with
  | again hpending _ _ =>
    have hlength := hpending.length_eq
    simp only [Search.left, List.length_cons] at hlength ⊢
    omega
  | first hpending _ hnew hnext =>
    have hlength := hpending.length_eq
    have hlength' := hnext.length_eq
    have hseen := g.supersOf_add_unseen hnew
    simp only [Search.left, List.length_cons, List.length_append] at hlength hlength' ⊢
    omega

/-- Each round leaves less to look at, so there are no more rounds than there was at first. -/
theorem length_rounds_le {states : List Search} (h : (s :: states).IsChain (g.Round target)) :
    states.length ≤ s.left g := by
  induction states generalizing s with
  | nil => exact Nat.zero_le _
  | cons s' states ih =>
    obtain ⟨hround, hrest⟩ := List.isChain_cons_cons.mp h
    have hlt := hround.left_lt
    have hle := ih hrest
    rw [List.length_cons]
    omega

theorem round_or_answers (g : OverrideGraph) (target : String) (s : Search) :
    (∃ s', g.Round target s s') ∨ ∃ found, s.Answers target found := by
  obtain ⟨pending, visited⟩ := s
  cases pending with
  | nil => exact .inr ⟨false, .exhausted rfl⟩
  | cons name rest =>
    by_cases htarget : name = target
    · exact .inr ⟨true, .found (htarget ▸ List.mem_cons_self)⟩
    by_cases hvisited : name ∈ visited
    · exact .inl ⟨_, .again (.refl _) htarget hvisited⟩
    · exact .inl ⟨_, .first (.refl _) htarget hvisited (.refl _)⟩

/-- What holds all through a search from an event: all that was come to can be reached, all supers of
visited events were come to, and the target is not among the visited. -/
structure Search.Sound (g : OverrideGraph) (start target : String) (s : Search) : Prop where
  begun : start ∈ s.visited ∨ start ∈ s.pending
  reached : ∀ name, name ∈ s.visited ∨ name ∈ s.pending → ReflTransGen g.Sends start name
  closed : ∀ name ∈ s.visited, ∀ super, g.Sends name super → super ∈ s.visited ∨ super ∈ s.pending
  missed : target ∉ s.visited

theorem Search.sound_start (g : OverrideGraph) (start target : String) :
    (Search.start start).Sound g start target where
  begun := .inr List.mem_cons_self
  reached name h := by
    obtain rfl : name = start := by simpa [Search.start] using h
    exact .refl
  closed name h := by cases h
  missed h := by cases h

theorem Round.sound {start : String} (h : g.Round target s s') (hs : s.Sound g start target) :
    s'.Sound g start target := by
  cases h with
  | @again name pending rest visited hpending _ hvisited =>
    have hknown : ∀ n, n ∈ visited ∨ n ∈ pending ↔ n ∈ visited ∨ n ∈ rest := by
      intro n
      rw [hpending.mem_iff, List.mem_cons]
      exact ⟨fun h => h.elim .inl (·.elim (fun e => .inl (e ▸ hvisited)) .inr), Or.imp_right .inr⟩
    exact ⟨(hknown _).mp hs.begun, fun n hn => hs.reached n ((hknown n).mpr hn),
      fun n hn super hsends => (hknown super).mp (hs.closed n hn super hsends), hs.missed⟩
  | @first name pending rest next visited hpending hne _ hnext =>
    have hname : ReflTransGen g.Sends start name :=
      hs.reached name (.inr (hpending.mem_iff.mpr List.mem_cons_self))
    -- What was come to stays so: `name` itself is visited from now on.
    have hkept : ∀ n, n ∈ visited ∨ n ∈ pending → n ∈ name :: visited ∨ n ∈ next := by
      intro n hn
      rw [hpending.mem_iff, List.mem_cons] at hn
      rw [hnext.mem_iff, List.mem_append, List.mem_cons]
      tauto
    refine ⟨hkept _ hs.begun, fun n hn => ?_, fun n hn super hsends => ?_, ?_⟩
    · rw [hnext.mem_iff, List.mem_append, List.mem_cons] at hn
      rcases hn with (rfl | hn) | hn | hn
      · exact hname
      · exact hs.reached n (.inl hn)
      · exact hname.tail hn
      · exact hs.reached n (.inr (hpending.mem_iff.mpr (List.mem_cons_of_mem _ hn)))
    · rcases List.mem_cons.mp hn with rfl | hn
      · exact .inr (hnext.mem_iff.mpr (List.mem_append_left _ hsends))
      · exact hkept super (hs.closed n hn super hsends)
    · exact List.not_mem_cons_of_ne_of_not_mem hne.symm hs.missed

theorem Search.Sound.of_rounds {start : String} (hs : s.Sound g start target)
    (h : ReflTransGen (g.Round target) s s') : s'.Sound g start target := by
  induction h with
  | refl => exact hs
  | tail _ hround ih => exact hround.sound ih

/-- An answer is right, in whatever order the search has come to it. -/
theorem Search.Sound.answer {start : String} {found : Bool} (hs : s.Sound g start target)
    (h : s.Answers target found) : g.reaches start target = found := by
  cases h with
  | found hmem => exact (g.reaches_iff start target).mpr (hs.reached target (.inr hmem))
  | exhausted hnone =>
    -- With nothing pending, no override leads out of the visited events.
    have hclosed : ∀ name ∈ s.visited, ∀ super, g.Sends name super → super ∈ s.visited := by
      simpa [hnone] using hs.closed
    have hstart : start ∈ s.visited := by simpa [hnone] using hs.begun
    rw [Bool.eq_false_iff, ne_eq, reaches_iff]
    exact fun hpath => hs.missed (mem_of_reflTransGen hclosed hstart hpath)

end Rounds

/-! ## Histories -/

/-- A call that changes a graph. -/
inductive GraphCall where
  | add (base super : String)
  | remove (base super : String)

/-- The graph after a call. A call that fails leaves it as it was. -/
def after (g : OverrideGraph) : GraphCall → OverrideGraph
  | .add base super => (g.add base super).toOption.getD g
  | .remove base super => g.remove base super

def perform (g : OverrideGraph) (calls : List GraphCall) : OverrideGraph := calls.foldl after g

section Calls

variable {g : OverrideGraph}

theorem add_of_reachable {base super : String} (h : ReflTransGen g.Sends super base) :
    g.add base super = .error (.overrideCycle base super) := by
  rw [add, if_pos ((closesCycle_iff g base super).mpr h)]

theorem add_of_not_reachable {base super : String} (h : ¬ ReflTransGen g.Sends super base) :
    g.add base super = .ok (g.push base super) := by
  rw [add, if_neg (mt (closesCycle_iff g base super).mp h)]

theorem after_add_of_reachable {base super : String} (h : ReflTransGen g.Sends super base) :
    g.after (.add base super) = g := by
  rw [after, add_of_reachable h]
  rfl

theorem after_add_of_not_reachable {base super : String} (h : ¬ ReflTransGen g.Sends super base) :
    g.after (.add base super) = g.push base super := by
  rw [after, add_of_not_reachable h]
  rfl

theorem Proper.sends_of_remove (h : g.Proper) (base super : String) {name next : String}
    (hsends : (g.remove base super).Sends name next) : g.Sends name next :=
  h.sends_of_removeAll [(base, super)] hsends

/-- Every overridden event is there once and has a super, and there is no cycle. -/
structure Valid (g : OverrideGraph) : Prop where
  proper : g.Proper
  acyclic : Acyclic g.Sends

theorem Valid.after (h : g.Valid) (call : GraphCall) : (g.after call).Valid := by
  cases call with
  | add base super =>
    by_cases hback : ReflTransGen g.Sends super base
    · rw [after_add_of_reachable hback]
      exact h
    · rw [after_add_of_not_reachable hback]
      refine ⟨h.proper.push base super, (acyclic_insert_iff.mpr ⟨h.acyclic, hback⟩).mono ?_⟩
      exact fun x y => (sends_push ..).mp
  | remove base super =>
    exact ⟨h.proper.remove base super, h.acyclic.mono fun _ _ => h.proper.sends_of_remove base super⟩

theorem Valid.perform (h : g.Valid) (calls : List GraphCall) : (g.perform calls).Valid := by
  induction calls generalizing g with
  | nil => exact h
  | cons call rest ih => exact ih (h.after call)

theorem valid_empty : empty.Valid := ⟨proper_empty, acyclic_empty⟩

theorem contains_iff (g : OverrideGraph) (base super : String) :
    g.contains base super = true ↔ super ∈ g.supersOf base := by
  simp [contains, supersOf]

theorem contains_push (g : OverrideGraph) (base super : String) :
    (g.push base super).contains base super = true := by
  rw [contains_iff, supersOf_push, if_pos rfl]
  exact List.mem_append_right _ List.mem_cons_self

theorem remove_of_not_mem {base super : String} (h : super ∉ g.supersOf base) :
    g.contains base super = false ∧ g.remove base super = g := by
  have hfalse : g.contains base super = false := by
    rw [Bool.eq_false_iff, ne_eq, contains_iff]
    exact h
  refine ⟨hfalse, ?_⟩
  rw [remove, hfalse]
  rfl

theorem Proper.supers?_ne_nil (h : g.Proper) (base : String) : g.supers? base ≠ some [] := by
  rw [h.supers?_eq]
  split
  · exact nofun
  · rename_i hne
    exact fun heq => hne (Option.some.inj heq)

theorem Proper.supers?_remove (h : g.Proper) (base super other : String) :
    (g.remove base super).supers? other =
      if other = base then
        if eraseLast super (g.supersOf base) = [] then none else some (eraseLast super (g.supersOf base))
      else g.supers? other := by
  rw [(h.remove base super).supers?_eq, h.supersOf_remove]
  split
  · rfl
  · exact (h.supers?_eq other).symm

theorem Proper.remove_of_split (h : g.Proper) {base super : String} {l r : List String}
    (hsplit : g.supersOf base = l ++ super :: r) (hr : super ∉ r) :
    g.contains base super = true ∧
      (g.remove base super).supers? base = (if l ++ r = [] then none else some (l ++ r)) ∧
      ∀ other, other ≠ base → (g.remove base super).supers? other = g.supers? other := by
  have hlast : eraseLast super (g.supersOf base) = l ++ r := by
    rw [hsplit, List.append_cons, eraseLast_append_of_not_mem hr, eraseLast_append_singleton]
  refine ⟨(contains_iff ..).mpr (by simp [hsplit]), ?_, fun other hother => ?_⟩
  · rw [h.supers?_remove, if_pos rfl, hlast]
  · rw [h.supers?_remove, if_neg hother]

end Calls

/-- A graph that calls have made of the empty one. The search for a way ends after at most as many rounds as
there are overrides, and one, whatever the order, and finds a way if and only if there is one. An override
that closes a cycle is refused and any other goes to the end of the supers of its base; there is never a
cycle, nor an event with an empty list of supers. Removing takes out the last of equal overrides, and tells
whether there was one; after an addition it leads back to the graph before that. -/
theorem search_and_changes_exact (calls : List GraphCall) :
    let g := empty.perform calls
    (∀ start target,
      (∀ states, (Search.start start :: states).IsChain (g.Round target) →
        states.length ≤ g.edgeCount + 1) ∧
      (∀ s, ReflTransGen (g.Round target) (.start start) s →
        ((∃ s', g.Round target s s') ∨ ∃ found, s.Answers target found) ∧
        ∀ found, s.Answers target found → g.reaches start target = found) ∧
      (∀ fuel, g.edgeCount < fuel → g.search target fuel [start] [] = g.reaches start target) ∧
      (g.reaches start target = true ↔ ReflTransGen g.Sends start target)) ∧
    (∀ base super,
      (ReflTransGen g.Sends super base → g.add base super = .error (.overrideCycle base super) ∧
        g.after (.add base super) = g) ∧
      (¬ ReflTransGen g.Sends super base → ∃ g', g.add base super = .ok g' ∧
        g'.supers? base = some (g.supersOf base ++ [super]) ∧
        (∀ other, other ≠ base → g'.supers? other = g.supers? other) ∧
        g'.contains base super = true ∧ g'.remove base super = g)) ∧
    Acyclic g.Sends ∧ (∀ base, g.supers? base ≠ some []) ∧
    ∀ base super,
      (super ∉ g.supersOf base → g.contains base super = false ∧ g.remove base super = g) ∧
      ∀ l r, g.supersOf base = l ++ super :: r → super ∉ r → g.contains base super = true ∧
        (g.remove base super).supers? base = (if l ++ r = [] then none else some (l ++ r)) ∧
        ∀ other, other ≠ base → (g.remove base super).supers? other = g.supers? other := by
  intro g
  obtain ⟨hproper, hacyclic⟩ : g.Valid := valid_empty.perform calls
  refine ⟨fun start target => ⟨fun states hstates => ?_, fun s hs => ⟨g.round_or_answers target s, ?_⟩,
    fun fuel hfuel => ?_, g.reaches_iff start target⟩, fun base super => ⟨fun hback => ?_, fun hback => ?_⟩,
    hacyclic, hproper.supers?_ne_nil, fun base super => ⟨remove_of_not_mem, fun l r => ?_⟩⟩
  · rw [← Search.left_start g start]
    exact length_rounds_le hstates
  · exact fun found => ((Search.sound_start g start target).of_rounds hs).answer
  · rw [Bool.eq_iff_iff, g.search_iff start target hfuel, g.reaches_iff]
  · exact ⟨add_of_reachable hback, after_add_of_reachable hback⟩
  · refine ⟨_, add_of_not_reachable hback, ?_, fun other hother => ?_, g.contains_push base super,
      hproper.remove_push base super⟩
    · rw [supers?_push, if_pos rfl]
    · rw [supers?_push, if_neg hother]
  · exact hproper.remove_of_split

end OverrideGraph

end EventTree
