import EventTree.Proofs.Fence

/-!
# Plots

A plot is the part of a forest that a program may work on: nodes from which no link leads to a node
outside, and all nodes still to come. A forest is tended from a plot as long as the nodes outside are
as they were, no link leads out, and no node that was there at the start has got another parent.

Every edit that a program makes tends the forest. That is why a program that runs on a plot can change
nothing else.
-/

namespace EventTree

/-- The nodes that a program may work on, and the forest that it starts with. -/
structure Plot where
  owned : NodeId → Prop
  start : Forest
  fenced : Fenced owned start

namespace Plot

/-- An owned node among the first `bound` ones. The bound is how many nodes there are at some time, so
the node is there from then on. -/
def Mine (P : Plot) (bound : Nat) (n : NodeId) : Prop := P.owned n ∧ n.index < bound

/-- A node among the first `bound` ones that was not there at the start. -/
def New (P : Plot) (bound : Nat) (n : NodeId) : Prop := ¬ P.start.Has n ∧ n.index < bound

/-- Nodes in a value are owned. -/
def MineIn (P : Plot) (bound : Nat) (v : Option LiveValue) : Prop :=
  ∀ m, v = some (.node m) → P.Mine bound m

section Mono

variable {P : Plot} {bound bound' : Nat} {n : NodeId}

theorem Mine.mono (h : P.Mine bound n) (hle : bound ≤ bound') : P.Mine bound' n :=
  ⟨h.1, Nat.lt_of_lt_of_le h.2 hle⟩

theorem New.mono (h : P.New bound n) (hle : bound ≤ bound') : P.New bound' n :=
  ⟨h.1, Nat.lt_of_lt_of_le h.2 hle⟩

theorem New.mine (h : P.New bound n) : P.Mine bound n := ⟨P.fenced.unborn n h.1, h.2⟩

theorem MineIn.mono {v : Option LiveValue} (h : P.MineIn bound v) (hle : bound ≤ bound') :
    P.MineIn bound' v := fun m hm => (h m hm).mono hle

end Mono

/-- What the work on a plot makes of the forest. -/
structure Tended (P : Plot) (f : Forest) : Prop where
  fenced : Fenced P.owned f
  size_le : P.start.size ≤ f.size
  outside : ∀ n, ¬ P.owned n → f.cell n = P.start.cell n
  /-- Whoever was there at the start may lose a parent but gets no other. -/
  parent : ∀ n p, P.start.Has n → f.parent n = some p → P.start.parent n = some p

theorem tended_start (P : Plot) : P.Tended P.start :=
  ⟨P.fenced, Nat.le_refl _, fun _ _ => rfl, fun _ _ _ h => h⟩

namespace Tended

variable {P : Plot} {f g : Forest}

theorem wellFormed (ht : P.Tended f) : f.WellFormed := ht.fenced.wellFormed

theorem new_of_not_has (ht : P.Tended f) {n : NodeId} (h : ¬ f.Has n) : ¬ P.start.Has n :=
  fun hs => h (Nat.lt_of_lt_of_le hs ht.size_le)

theorem new_child (ht : P.Tended f) {n c : NodeId} (hn : ¬ P.start.Has n)
    (hc : c ∈ f.children n) : P.New f.size c := by
  refine ⟨fun hs => hn ?_, ht.wellFormed.has_child hc⟩
  have hp := ht.parent c n hs ((ht.wellFormed.linked n c).mp hc)
  exact P.fenced.wellFormed.has_parent hp

theorem start_has_above (ht : P.Tended f) {a n : NodeId} (hn : P.start.Has n) (ha : f.Above a n) :
    P.start.Has a := by
  have hstep : ∀ {p c : NodeId}, P.start.Has c → f.parent c = some p → P.start.Has p := fun hc hp =>
    P.fenced.wellFormed.has_parent (ht.parent _ _ hc hp)
  induction ha with
  | single hp => exact hstep hn hp
  | tail _ hp ih => exact ih (hstep hn hp)

/-- Work inside the fence tends the forest if it gives no new parent to a node that was there. -/
theorem step (ht : P.Tended f) (h : Tilled P.owned f g)
    (hparent : ∀ n p, P.start.Has n → g.parent n = some p → f.parent n = some p) : P.Tended g where
  fenced := h.fenced
  size_le := Nat.le_trans ht.size_le h.size_le
  outside n hn := by rw [h.outside n hn, ht.outside n hn]
  parent n p hs hp := ht.parent n p hs (hparent n p hs hp)

/-! ## Edits -/

theorem create (ht : P.Tended f) (a : String) : P.Tended (f.create a).2 :=
  ht.step (ht.fenced.create a) fun n p _ hp => by rwa [Forest.parent_create] at hp

theorem setName (ht : P.Tended f) {n : NodeId} (hn : P.owned n) (a : String) :
    P.Tended (f.setName n a) :=
  ht.step (ht.fenced.setName hn a) fun m p _ hp => by rwa [Forest.parent_setName] at hp

theorem setValue (ht : P.Tended f) {n : NodeId} (hn : P.owned n) {v : Option LiveValue}
    (hv : P.MineIn f.size v) : P.Tended (f.setValue n v) :=
  ht.step (ht.fenced.setValue hn hv) fun m p _ hp => by rwa [Forest.parent_setValue] at hp

theorem detach (ht : P.Tended f) {n : NodeId} (hn : P.owned n) : P.Tended (f.detach n) :=
  ht.step (ht.fenced.detach hn) fun _ _ _ hp => Forest.parent_of_parent_detach hp

theorem attach (ht : P.Tended f) {p c : NodeId} (ha : f.Attachable p c) (hp : P.owned p)
    (hc : ¬ P.start.Has c) {change : List NodeId → List NodeId}
    (hperm : (change (f.children p)).Perm (c :: f.children p)) :
    P.Tended ((f.setParent c (some p)).setChildren p change) := by
  refine ht.step (ht.fenced.attach ha hp (P.fenced.unborn c hc) hperm) fun m q hs hq => ?_
  rw [ha.parent_attach, if_neg] at hq
  · exact hq
  · rintro rfl
    exact hc hs

theorem append (ht : P.Tended f) {p c : NodeId} (ha : f.Attachable p c) (hp : P.owned p)
    (hc : ¬ P.start.Has c) : P.Tended (f.append p c) :=
  ht.attach ha hp hc (List.perm_append_singleton c _)

theorem moveTo (ht : P.Tended f) {p c : NodeId} {position : Option Nat} (hp : P.Mine f.size p)
    (hc : P.New f.size c) (h : f.insertFault? p position c = none) :
    P.Tended (f.moveTo p position c) := by
  have ha := ht.wellFormed.attachable_of_insertFault? hp.2 hc.2 h
  refine (ht.detach hc.mine.1).attach ha hp.1 hc.1 (List.perm_insertIdx c _ ?_)
  rw [ht.wellFormed.length_children_detach]
  exact Forest.position_le_of_insertFault? h

theorem clear (ht : P.Tended f) {n : NodeId} (hn : P.owned n) : P.Tended (f.clear n) := by
  refine ht.step (ht.fenced.clear hn) fun m p _ hp => ?_
  rw [Forest.parent_clear] at hp
  split at hp
  · cases hp
  · exact hp

theorem exchange (ht : P.Tended f) {n other p : NodeId} (hn : P.owned n)
    (hp : f.parent n = some p) (ho : P.New f.size other) (hne : other ≠ n)
    (hna : ¬ f.Above other n) : P.Tended (f.exchange n other) := by
  obtain ⟨i, heq, hle⟩ := ht.wellFormed.exchange_eq_link hp hne ho.2 hna
  rw [heq]
  exact ((ht.detach ho.mine.1).detach hn).attach
    (ht.wellFormed.attachable_exchange hp hne ho.2 hna) (ht.fenced.parent n p hn hp) ho.1
    (List.perm_insertIdx other _ hle)

theorem grow (ht : P.Tended f) (hg : f.Grown g) (wf : g.WellFormed) : P.Tended g := by
  refine ht.step (ht.fenced.grow hg wf) fun n p hs hp => ?_
  rwa [hg.parent_eq (Nat.lt_of_lt_of_le hs ht.size_le)] at hp

end Tended

end Plot

end EventTree
