import EventTree.EventStore
import EventTree.Proofs.Lookup
import Mathlib.Algebra.GroupWithZero.Nat
import Mathlib.Algebra.Order.BigOperators.Group.List
import Mathlib.Algebra.Order.Group.Nat
import Mathlib.Logic.Relation

/-!
# Override graphs

What the operations of a graph do to the supers of each event, and that the search for a way finds one
whenever there is one. So overrides can be added one after the other exactly if they make no cycle.
-/

namespace EventTree

open Relation

theorem eraseLast_append_singleton {α : Type} [BEq α] [LawfulBEq α] (a : α) (l : List α) :
    eraseLast a (l ++ [a]) = l := by
  simp [eraseLast]

theorem eraseLast_of_not_mem {α : Type} [BEq α] [LawfulBEq α] {a : α} {l : List α} (h : a ∉ l) :
    eraseLast a l = l := by
  simp [eraseLast, List.erase_of_not_mem (by simpa using h : a ∉ l.reverse)]

theorem mem_of_mem_eraseLast {α : Type} [BEq α] [LawfulBEq α] {a b : α} {l : List α}
    (h : b ∈ eraseLast a l) : b ∈ l := by
  rw [eraseLast, List.mem_reverse] at h
  exact List.mem_reverse.mp (List.mem_of_mem_erase h)

namespace OverrideGraph

variable {g : OverrideGraph} {base super target : String}

/-- The supers of an event in order; an event that is not overridden has none. -/
def supersOf (g : OverrideGraph) (base : String) : List String := (g.supers? base).getD []

/-- An event is sent on to another. -/
def Sends (g : OverrideGraph) (base super : String) : Prop := super ∈ g.supersOf base

theorem supersOf_of_none (h : g.supers? base = none) : g.supersOf base = [] := by
  simp [supersOf, h]

theorem supersOf_of_some {supers : List String} (h : g.supers? base = some supers) :
    g.supersOf base = supers := by
  simp [supersOf, h]

theorem not_sends (h : g.supers? base = none) (super : String) : ¬ g.Sends base super := by
  simp [Sends, supersOf_of_none h]

theorem sends_iff {supers : List String} (h : g.supers? base = some supers) (super : String) :
    g.Sends base super ↔ super ∈ supers := by
  rw [Sends, supersOf_of_some h]

theorem Sends.exists_mem (h : g.Sends base super) :
    ∃ supers, (base, supers) ∈ g.edges ∧ super ∈ supers := by
  cases hs : g.supers? base with
  | none => exact absurd h (not_sends hs super)
  | some supers =>
    obtain ⟨before, after, hedges, -⟩ := List.lookup_eq_some_iff.mp hs
    exact ⟨supers, by simp [hedges], (sends_iff hs super).mp h⟩

/-! ## Searching -/

/-- How many overrides have a base that was not visited. -/
def unseen (g : OverrideGraph) (visited : List String) : Nat :=
  (g.edges.map fun edge => if edge.1 ∈ visited then 0 else edge.2.length).sum

theorem edgeCount_eq (g : OverrideGraph) : g.edgeCount = g.unseen [] := by
  simp [edgeCount, unseen, List.length_flatMap]

theorem supersOf_add_unseen (g : OverrideGraph) {name : String} {visited : List String}
    (hv : name ∉ visited) :
    (g.supersOf name).length + g.unseen (name :: visited) ≤ g.unseen visited := by
  obtain ⟨edges⟩ := g
  simp only [supersOf, supers?, unseen]
  induction edges with
  | nil => simp
  | cons edge rest ih =>
    obtain ⟨key, supers⟩ := edge
    rw [List.lookup_cons, List.map_cons, List.map_cons, List.sum_cons, List.sum_cons]
    by_cases hk : name = key
    · subst hk
      -- This entry has the supers. Further entries of the same event can only lower the sum.
      have hle : (rest.map fun edge => if edge.1 ∈ name :: visited then 0 else edge.2.length).sum ≤
          (rest.map fun edge => if edge.1 ∈ visited then 0 else edge.2.length).sum := by
        refine List.sum_le_sum fun edge _ => ?_
        by_cases he : edge.1 ∈ visited
        · simp [he]
        · rw [if_neg he]
          split <;> omega
      simpa [hv] using hle
    · have hbeq : (name == key) = false := beq_eq_false_iff_ne.mpr hk
      have hmem : key ∈ name :: visited ↔ key ∈ visited := by simp [Ne.symm hk]
      simp only [hbeq, hmem]
      omega

theorem reflTransGen_of_search {fuel : Nat} {pending visited : List String}
    (h : g.search target fuel pending visited = true) :
    ∃ name ∈ pending, ReflTransGen g.Sends name target := by
  induction fuel generalizing pending visited with
  | zero => simp [search] at h
  | succ fuel ih =>
    cases pending with
    | nil => simp [search] at h
    | cons name pending =>
      rw [search] at h
      split at h
      · rename_i heq
        exact ⟨name, List.mem_cons_self, heq ▸ .refl⟩
      · split at h
        · obtain ⟨other, hm, hpath⟩ := ih h
          exact ⟨other, List.mem_cons_of_mem _ hm, hpath⟩
        · obtain ⟨other, hm, hpath⟩ := ih h
          rcases List.mem_append.mp hm with hm | hm
          · exact ⟨name, List.mem_cons_self, .head hm hpath⟩
          · exact ⟨other, List.mem_cons_of_mem _ hm, hpath⟩

theorem mem_of_reflTransGen {visited : List String}
    (hclosed : ∀ name ∈ visited, ∀ super, g.Sends name super → super ∈ visited) {name : String}
    (hname : name ∈ visited) (h : ReflTransGen g.Sends name target) : target ∈ visited := by
  induction h with
  | refl => exact hname
  | tail _ hsends ih => exact hclosed _ ih _ hsends

/-- A search that finds nothing has looked everywhere: when nothing is pending, the visited events are
closed under overrides. -/
theorem not_reflTransGen_of_search {fuel : Nat} {pending visited : List String}
    (hfuel : pending.length + g.unseen visited ≤ fuel)
    (hclosed : ∀ name ∈ visited, ∀ super, g.Sends name super → super ∈ visited ∨ super ∈ pending)
    (htarget : target ∉ visited) (h : g.search target fuel pending visited = false) {name : String}
    (hname : name ∈ visited ∨ name ∈ pending) : ¬ ReflTransGen g.Sends name target := by
  induction fuel generalizing pending visited with
  | zero =>
    obtain rfl : pending = [] := List.eq_nil_of_length_eq_zero (by omega)
    simp only [List.not_mem_nil, or_false] at hclosed hname
    exact fun hpath => htarget (mem_of_reflTransGen hclosed hname hpath)
  | succ fuel ih =>
    cases pending with
    | nil =>
      simp only [List.not_mem_nil, or_false] at hclosed hname
      exact fun hpath => htarget (mem_of_reflTransGen hclosed hname hpath)
    | cons next pending =>
      rw [search] at h
      rw [List.length_cons] at hfuel
      split at h
      · cases h
      · rename_i hne
        split at h
        · rename_i hseen
          have hknown : ∀ n, n ∈ visited ∨ n ∈ next :: pending → n ∈ visited ∨ n ∈ pending := by grind
          exact ih (by omega) (fun n hn s hs => hknown s (hclosed n hn s hs)) htarget h (hknown name hname)
        · rename_i hnew
          have hknown : ∀ n, n ∈ visited ∨ n ∈ next :: pending →
              n ∈ next :: visited ∨ n ∈ g.supersOf next ++ pending := by grind
          -- The supers of `next` are pending now, but no longer unseen, so the fuel lasts.
          have hseen := g.supersOf_add_unseen hnew
          refine ih ?_ (fun n hn s hs => ?_) (by simp [Ne.symm hne, htarget]) h (hknown name hname)
          · change (g.supersOf next ++ pending).length + _ ≤ _
            rw [List.length_append]
            omega
          · rcases List.mem_cons.mp hn with rfl | hn
            · exact .inr (List.mem_append_left _ hs)
            · exact hknown s (hclosed n hn s hs)

/-- Fuel for each override, and one, is enough. -/
theorem search_iff (g : OverrideGraph) (start target : String) {fuel : Nat} (hfuel : g.edgeCount < fuel) :
    g.search target fuel [start] [] = true ↔ ReflTransGen g.Sends start target := by
  constructor
  · intro h
    obtain ⟨name, hname, hpath⟩ := reflTransGen_of_search h
    rwa [List.mem_singleton.mp hname] at hpath
  · intro hpath
    by_contra h
    refine not_reflTransGen_of_search ?_ ?_ ?_ (Bool.eq_false_iff.mpr h) (.inr List.mem_cons_self) hpath
    · rw [← edgeCount_eq, List.length_singleton]
      omega
    · simp
    · simp

theorem reaches_iff (g : OverrideGraph) (start target : String) :
    g.reaches start target = true ↔ ReflTransGen g.Sends start target :=
  g.search_iff start target (Nat.lt_succ_self _)

theorem closesCycle_iff (g : OverrideGraph) (base super : String) :
    g.closesCycle base super = true ↔ ReflTransGen g.Sends super base := by
  rw [closesCycle, Bool.or_eq_true, reaches_iff, decide_eq_true_eq]
  constructor
  · rintro (rfl | h)
    · exact .refl
    · exact h
  · exact .inr

/-! ## Adding and removing -/

/-- Every overridden event is there once, with at least one super. -/
structure Proper (g : OverrideGraph) : Prop where
  nodup : (g.edges.map (·.1)).Nodup
  nonempty : ∀ edge ∈ g.edges, edge.2 ≠ []

theorem proper_empty : empty.Proper := ⟨List.nodup_nil, fun _ h => by cases h⟩

theorem Proper.supers?_eq (h : g.Proper) (base : String) :
    g.supers? base = if g.supersOf base = [] then none else some (g.supersOf base) := by
  cases hs : g.supers? base with
  | none => rw [supersOf_of_none hs, if_pos rfl]
  | some supers =>
    obtain ⟨before, after, hedges, -⟩ := List.lookup_eq_some_iff.mp hs
    rw [supersOf_of_some hs, if_neg (h.nonempty (base, supers) (by simp [hedges]))]

theorem edges_push (g : OverrideGraph) (base super : String) :
    (g.push base super).edges = extendAt g.edges base [super] := by
  unfold push extendAt
  split
  · rename_i h
    exact (if_pos h).symm
  · rename_i h
    exact (if_neg h).symm

theorem supers?_push (g : OverrideGraph) (base super other : String) :
    (g.push base super).supers? other =
      if other = base then some (g.supersOf base ++ [super]) else g.supers? other := by
  rw [supers?, edges_push, lookup_extendAt]
  rfl

theorem supersOf_push (g : OverrideGraph) (base super other : String) :
    (g.push base super).supersOf other =
      if other = base then g.supersOf base ++ [super] else g.supersOf other := by
  rw [supersOf, supers?_push]
  split <;> rfl

theorem sends_push (g : OverrideGraph) (base super name next : String) :
    (g.push base super).Sends name next ↔ g.Sends name next ∨ name = base ∧ next = super := by
  rw [Sends, Sends, supersOf_push]
  by_cases h : name = base
  · simp [h]
  · simp [h]

theorem Proper.push (h : g.Proper) (base super : String) : (g.push base super).Proper := by
  obtain ⟨hnodup, hnonempty⟩ := Orderly.extendAt ⟨h.nodup, h.nonempty⟩ base (List.cons_ne_nil super [])
  rw [← edges_push] at hnodup hnonempty
  exact ⟨hnodup, hnonempty⟩

theorem Proper.supersOf_remove (h : g.Proper) (base super other : String) :
    (g.remove base super).supersOf other =
      if other = base then eraseLast super (g.supersOf base) else g.supersOf other := by
  unfold remove
  split
  · have hnodup : ((changeAt g.edges base (eraseLast super)).map (·.1)).Nodup :=
      keys_changeAt g.edges base (eraseLast super) ▸ h.nodup
    refine (getD_lookup_occupied hnodup other).trans ?_
    rw [lookup_changeAt]
    split
    · rw [supersOf, supers?]
      cases g.edges.lookup base <;> rfl
    · rfl
  · rename_i hc
    have hnot : super ∉ g.supersOf base := by simpa [contains, supersOf] using hc
    rw [eraseLast_of_not_mem hnot]
    split
    · rename_i ho
      rw [ho]
    · rfl

theorem Proper.remove (h : g.Proper) (base super : String) : (g.remove base super).Proper := by
  unfold OverrideGraph.remove
  split
  · have hkeys := keys_changeAt g.edges base (eraseLast super) ▸ h.nodup
    exact ⟨(orderly_occupied hkeys).nodup, (orderly_occupied hkeys).nonempty⟩
  · exact h

end OverrideGraph

/-! ## Cycles -/

/-- No way leads back to where it began. -/
def Acyclic (sends : String → String → Prop) : Prop := ∀ name, ¬ TransGen sends name name

theorem Acyclic.mono {sends sends' : String → String → Prop} (h : Acyclic sends)
    (hmono : ∀ name next, sends' name next → sends name next) : Acyclic sends' := fun name hcycle =>
  h name (TransGen.mono hmono _ _ hcycle)

theorem acyclic_of_not_sends {sends : String → String → Prop} (h : ∀ name next, ¬ sends name next) :
    Acyclic sends := by
  intro name hcycle
  obtain ⟨next, hnext, -⟩ := TransGen.head'_iff.mp hcycle
  exact h name next hnext

section Insert

variable {sends : String → String → Prop} {base super name next : String}

/-- A way that may use one more override does not use it, or leads to its base and on from its super. -/
theorem transGen_or_of_insert
    (h : TransGen (fun x y => sends x y ∨ x = base ∧ y = super) name next) :
    TransGen sends name next ∨ ReflTransGen sends name base ∧ ReflTransGen sends super next := by
  induction h with
  | single hstep =>
    rcases hstep with hstep | ⟨rfl, rfl⟩
    · exact .inl (.single hstep)
    · exact .inr ⟨.refl, .refl⟩
  | tail _ hstep ih =>
    rcases hstep with hstep | ⟨rfl, rfl⟩
    · exact ih.imp (·.tail hstep) fun h => ⟨h.1, h.2.tail hstep⟩
    · exact .inr ⟨ih.elim (·.to_reflTransGen) (·.1), .refl⟩

theorem acyclic_insert_iff :
    Acyclic (fun x y => sends x y ∨ x = base ∧ y = super) ↔
      Acyclic sends ∧ ¬ ReflTransGen sends super base := by
  constructor
  · intro h
    refine ⟨h.mono fun _ _ => .inl, fun hback => h base ?_⟩
    exact .head' (.inr ⟨rfl, rfl⟩) (ReflTransGen.mono (fun _ _ => .inl) _ _ hback)
  · rintro ⟨h, hback⟩ name hcycle
    rcases transGen_or_of_insert hcycle with hcycle | ⟨hto, hfrom⟩
    · exact h name hcycle
    · exact hback (hfrom.trans hto)

end Insert

/-! ## Stored overrides -/

/-- The supers of an event among pairs of a base and a super, in order. -/
def supersIn (pairs : List (String × String)) (base : String) : List String :=
  pairs.filterMap fun pair => if pair.1 = base then some pair.2 else none

theorem supersIn_append (pairs pairs' : List (String × String)) (base : String) :
    supersIn (pairs ++ pairs') base = supersIn pairs base ++ supersIn pairs' base :=
  List.filterMap_append

theorem supersIn_cons (base super : String) (rest : List (String × String)) (other : String) :
    supersIn ((base, super) :: rest) other =
      if other = base then super :: supersIn rest other else supersIn rest other := by
  by_cases h : other = base
  · simp [supersIn, h]
  · simp [supersIn, h, Ne.symm h]

theorem mem_supersIn_iff (pairs : List (String × String)) (base super : String) :
    super ∈ supersIn pairs base ↔ (base, super) ∈ pairs := by
  simp [supersIn]

theorem supersIn_reverse (pairs : List (String × String)) (base : String) :
    supersIn pairs.reverse base = (supersIn pairs base).reverse := List.filterMap_reverse

theorem supersIn_erase (pairs : List (String × String)) (base super other : String) :
    supersIn (pairs.erase (base, super)) other =
      if other = base then (supersIn pairs base).erase super else supersIn pairs other := by
  induction pairs with
  | nil => simp [supersIn]
  | cons pair rest ih =>
    obtain ⟨base', super'⟩ := pair
    by_cases hpair : (base', super') = (base, super)
    · obtain ⟨rfl, rfl⟩ := Prod.mk.inj hpair
      rw [List.erase_cons_head, supersIn_cons, supersIn_cons]
      split
      · rename_i ho
        simp [ho]
      · rfl
    · rw [List.erase_cons_tail (by simpa using hpair), supersIn_cons, supersIn_cons, supersIn_cons, ih]
      by_cases hb : base = base'
      · subst hb
        have hsuper : super' ≠ super := fun e => hpair (by rw [e])
        by_cases ho : other = base
        · simp [ho, List.erase_cons_tail (by simpa using hsuper : ¬ (super' == super) = true)]
        · simp [ho]
      · by_cases ho : other = base
        · simp [ho, hb]
        · simp [ho]

theorem supersIn_eraseLast (pairs : List (String × String)) (base super other : String) :
    supersIn (eraseLast (base, super) pairs) other =
      if other = base then eraseLast super (supersIn pairs base) else supersIn pairs other := by
  rw [eraseLast, supersIn_reverse, supersIn_erase, supersIn_reverse, supersIn_reverse]
  split
  · rfl
  · exact List.reverse_reverse _

namespace OverrideGraph

theorem addAll_cons (g : OverrideGraph) (base super : String) (rest : List (String × String)) :
    g.addAll ((base, super) :: rest) =
      if g.closesCycle base super then .error (.overrideCycle base super)
      else (g.push base super).addAll rest := by
  rw [addAll, add]
  split <;> rfl

/-- A graph with more overrides, whether or not they close cycles. -/
def pushAll (g : OverrideGraph) (pairs : List (String × String)) : OverrideGraph :=
  pairs.foldl (fun g pair => g.push pair.1 pair.2) g

theorem sends_pushAll (g : OverrideGraph) (pairs : List (String × String)) (name next : String) :
    (g.pushAll pairs).Sends name next ↔ g.Sends name next ∨ (name, next) ∈ pairs := by
  induction pairs generalizing g with
  | nil => simp [pushAll]
  | cons pair rest ih =>
    obtain ⟨base, super⟩ := pair
    refine (ih (g.push base super)).trans ?_
    rw [sends_push, List.mem_cons, Prod.mk.injEq, or_assoc]

theorem supersOf_pushAll (g : OverrideGraph) (pairs : List (String × String)) (base : String) :
    (g.pushAll pairs).supersOf base = g.supersOf base ++ supersIn pairs base := by
  induction pairs generalizing g with
  | nil => exact (List.append_nil _).symm
  | cons pair rest ih =>
    obtain ⟨base', super⟩ := pair
    refine (ih (g.push base' super)).trans ?_
    rw [supersOf_push, supersIn_cons]
    split
    · rename_i h
      rw [h, List.append_assoc, List.singleton_append]
    · rfl

theorem Proper.pushAll {g : OverrideGraph} (h : g.Proper) (pairs : List (String × String)) :
    (g.pushAll pairs).Proper := by
  induction pairs generalizing g with
  | nil => exact h
  | cons pair rest ih => exact ih (h.push pair.1 pair.2)

theorem addAll_append (g : OverrideGraph) (pairs pairs' : List (String × String)) :
    g.addAll (pairs ++ pairs') = (g.addAll pairs).bind (·.addAll pairs') := by
  induction pairs generalizing g with
  | nil => rfl
  | cons pair rest ih =>
    obtain ⟨base, super⟩ := pair
    rw [List.cons_append, addAll_cons, addAll_cons]
    split
    · rfl
    · exact ih _

theorem eq_pushAll_of_addAll {g g' : OverrideGraph} {pairs : List (String × String)}
    (h : g.addAll pairs = .ok g') : g' = g.pushAll pairs := by
  induction pairs generalizing g with
  | nil => exact (Except.ok.inj h).symm
  | cons pair rest ih =>
    obtain ⟨base, super⟩ := pair
    rw [addAll_cons] at h
    split at h
    · cases h
    · exact ih h

theorem addAll_supers {g g' : OverrideGraph} {pairs : List (String × String)} (hg : g.Proper)
    (h : g.addAll pairs = .ok g') :
    g'.Proper ∧ ∀ base, g'.supersOf base = g.supersOf base ++ supersIn pairs base := by
  obtain rfl := eq_pushAll_of_addAll h
  exact ⟨hg.pushAll pairs, g.supersOf_pushAll pairs⟩

theorem exists_addAll_iff {g : OverrideGraph} (hg : Acyclic g.Sends) (pairs : List (String × String)) :
    (∃ g', g.addAll pairs = .ok g') ↔
      Acyclic fun base super => g.Sends base super ∨ (base, super) ∈ pairs := by
  induction pairs generalizing g with
  | nil => simpa [addAll] using hg
  | cons pair rest ih =>
    obtain ⟨base, super⟩ := pair
    rw [addAll_cons]
    have hsends : ∀ x y, (g.push base super).Sends x y ∨ (x, y) ∈ rest ↔
        g.Sends x y ∨ (x, y) ∈ (base, super) :: rest := fun x y => by
      rw [sends_push, List.mem_cons, Prod.mk.injEq, or_assoc]
    by_cases hcloses : g.closesCycle base super
    · rw [if_pos hcloses]
      refine ⟨fun ⟨_, h⟩ => (by cases h), fun h => ?_⟩
      have hinsert : Acyclic fun x y => g.Sends x y ∨ x = base ∧ y = super :=
        h.mono fun x y hxy => hxy.imp_right fun ⟨hx, hy⟩ => by simp [hx, hy]
      exact absurd ((closesCycle_iff g base super).mp hcloses) (acyclic_insert_iff.mp hinsert).2
    · rw [if_neg hcloses]
      have hpush : Acyclic (g.push base super).Sends := by
        refine (acyclic_insert_iff.mpr ⟨hg, fun hback => hcloses ?_⟩).mono fun x y => (sends_push ..).mp
        exact (closesCycle_iff g base super).mpr hback
      rw [ih hpush]
      exact ⟨fun h => h.mono fun x y => (hsends x y).mpr, fun h => h.mono fun x y => (hsends x y).mp⟩

theorem not_sends_empty (base super : String) : ¬ empty.Sends base super :=
  not_sends rfl super

theorem acyclic_empty : Acyclic empty.Sends := acyclic_of_not_sends not_sends_empty

end OverrideGraph

theorem sends_iff_of_addAll {g : OverrideGraph} {pairs : List (String × String)}
    (h : OverrideGraph.empty.addAll pairs = .ok g) (base super : String) :
    g.Sends base super ↔ (base, super) ∈ pairs := by
  rw [OverrideGraph.Sends, (OverrideGraph.addAll_supers OverrideGraph.proper_empty h).2]
  exact mem_supersIn_iff pairs base super

theorem exists_addAll_empty_iff (pairs : List (String × String)) :
    (∃ g, OverrideGraph.empty.addAll pairs = .ok g) ↔
      Acyclic fun base super => (base, super) ∈ pairs := by
  rw [OverrideGraph.exists_addAll_iff OverrideGraph.acyclic_empty]
  have hsends : (fun base super => OverrideGraph.empty.Sends base super ∨ (base, super) ∈ pairs) =
      fun base super => (base, super) ∈ pairs := by
    funext base super
    simp [OverrideGraph.not_sends_empty]
  rw [hsends]

namespace EventStore

variable {s : EventStore} {base super : String}

theorem overrides_addOverride_of_some {cause : Cause} (h : s.overrideFault? base super = some cause) :
    (s.addOverride base super).overrides = s.overrides := by
  have hnoting : (s.noting .addOverride).overrideFault? base super = some cause := h
  rw [addOverride, hnoting]
  rfl

theorem overrides_addOverride_of_none (h : s.overrideFault? base super = none) :
    (s.addOverride base super).overrides = s.overrides ++ [(base, super)] := by
  have hnoting : (s.noting .addOverride).overrideFault? base super = none := h
  rw [addOverride, hnoting]
  rfl

theorem overrideFault?_eq {g : OverrideGraph} (h : OverrideGraph.empty.addAll s.overrides = .ok g)
    (base super : String) :
    s.overrideFault? base super =
      if g.closesCycle base super then some (.overrideCycle base super) else none := by
  have hadd : OverrideGraph.empty.addAll (s.overrides ++ [(base, super)]) = g.addAll [(base, super)] := by
    rw [OverrideGraph.addAll_append, h]
    rfl
  rw [overrideFault?, hadd, OverrideGraph.addAll_cons]
  cases g.closesCycle base super <;> rfl

theorem overrideFault?_eq_none_iff : s.overrideFault? base super = none ↔
    Acyclic fun base' super' => (base', super') ∈ s.overrides ++ [(base, super)] := by
  rw [← exists_addAll_empty_iff, overrideFault?]
  cases OverrideGraph.empty.addAll (s.overrides ++ [(base, super)]) <;> simp

end EventStore

end EventTree
