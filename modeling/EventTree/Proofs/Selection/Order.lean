import EventTree.Proofs.Forest.Paths
import EventTree.Proofs.Selection.Duplicates

/-!
# Nodes found in document order

Steps to the root, to parents, to siblings and to children lead from nodes at one depth to nodes at one
depth, and what comes earlier leads to what comes earlier or is the same. So the nodes are found in
document order without ever being sorted, up to one last step to all descendants. Main statement: whatever
such steps a selector is made of, its nodes are in the tree of the node that it starts from, and their paths
increase.
-/

namespace EventTree

namespace Step

/-- Keeps some of the nodes. -/
def isFilter : Step → Bool
  | range _ _ | valueIs _ => true
  | _ => false

/-- Leads from one depth to one depth. -/
def isLevel : Step → Bool
  | root | parent | children | previous | next | range _ _ | valueIs _ | named _ => true
  | descendants | reference | ancestor _ => false

end Step

namespace Forest

/-! ## Paths of one length -/

theorem PathBefore.append {p q : List Nat} (h : PathBefore p q) (hlength : p.length = q.length)
    (r s : List Nat) : PathBefore (p ++ r) (q ++ s) := by
  induction h with
  | nil => cases hlength
  | cons _ ih => exact .cons (ih (Nat.succ.inj hlength))
  | rel h => exact .rel h

theorem pathBefore_concat_iff {p q : List Nat} (hlength : p.length = q.length) {i j : Nat} :
    PathBefore (p ++ [i]) (q ++ [j]) ↔ PathBefore p q ∨ p = q ∧ i < j := by
  constructor
  · intro h
    induction p generalizing q with
    | nil =>
      obtain rfl := List.length_eq_zero_iff.mp hlength.symm
      exact Or.inr ⟨rfl, List.lex_singleton_iff i j |>.mp h⟩
    | cons k p ih =>
      cases q with
      | nil => cases hlength
      | cons l q =>
        cases h with
        | rel hlt => exact Or.inl (.rel hlt)
        | cons h =>
          rcases ih (Nat.succ.inj hlength) h with h | ⟨rfl, hlt⟩
          · exact Or.inl (.cons h)
          · exact Or.inr ⟨rfl, hlt⟩
  · rintro (h | ⟨rfl, hlt⟩)
    · exact h.append hlength _ _
    · exact List.Lex.append_left _ (.rel hlt) p

/-- One node comes before another in document order. -/
def Precedes (f : Forest) (a b : NodeId) : Prop := PathBefore (f.path a) (f.path b)

namespace WellFormed

variable {f : Forest} (wf : f.WellFormed)

include wf

theorem eq_of_path {a b : NodeId} (hroot : f.root a = f.root b) (hpath : f.path a = f.path b) :
    a = b := by
  have ha := wf.nodeAt?_root_path a
  rw [hroot, hpath, wf.nodeAt?_root_path b] at ha
  exact (Option.some.inj ha).symm

theorem parent_root (n : NodeId) : f.parent (f.root n) = none := by
  induction n using wf.wellFounded.induction with
  | _ n ih =>
    cases hp : f.parent n with
    | none => rwa [wf.root_of_root hp]
    | some p =>
      rw [wf.root_of_child hp]
      exact ih p hp

theorem path_root (n : NodeId) : f.path (f.root n) = [] := wf.path_of_root (wf.parent_root n)

theorem path_of_neighbours {p a b : NodeId} {l r : List NodeId} (h : f.children p = l ++ a :: b :: r) :
    f.root a = f.root b ∧ f.path a = f.path p ++ [l.length] ∧
      f.path b = f.path p ++ [l.length + 1] := by
  have ha : f.child? p l.length = some a := child?_of_split h
  have hb : f.child? p (l ++ [a]).length = some b :=
    child?_of_split (r := r) (by rw [h, List.append_assoc]; rfl)
  obtain ⟨hpa, hpatha⟩ := wf.path_of_child? ha
  obtain ⟨hpb, hpathb⟩ := wf.path_of_child? hb
  rw [List.length_append, List.length_singleton] at hpathb
  exact ⟨by rw [wf.root_of_child hpa, wf.root_of_child hpb], hpatha, hpathb⟩

theorem neighbours_of_previousSibling? {n m : NodeId} (h : f.previousSibling? n = some m) :
    ∃ p l r, f.children p = l ++ m :: n :: r := by
  cases hp : f.parent n with
  | none => simp [Forest.previousSibling?, hp] at h
  | some p =>
    obtain ⟨l, r, hsplit⟩ := List.append_of_mem ((wf.linked p n).mpr hp)
    rw [wf.previousSibling?_of_split hsplit] at h
    obtain ⟨l', rfl⟩ := List.getLast?_eq_some_iff.mp h
    exact ⟨p, l', r, by rw [hsplit, List.append_assoc]; rfl⟩

theorem neighbours_of_nextSibling? {n m : NodeId} (h : f.nextSibling? n = some m) :
    ∃ p l r, f.children p = l ++ n :: m :: r := by
  cases hp : f.parent n with
  | none => simp [Forest.nextSibling?, hp] at h
  | some p =>
    obtain ⟨l, r, hsplit⟩ := List.append_of_mem ((wf.linked p n).mpr hp)
    rw [wf.nextSibling?_of_split hsplit] at h
    obtain ⟨r', rfl⟩ := List.head?_eq_some_iff.mp h
    exact ⟨p, l, r', hsplit⟩

end WellFormed

/-! ## Orderly images -/

/-- From nodes at one depth, what comes earlier leads to what comes earlier or is the same. -/
structure Orderly (f : Forest) (depth : Nat) (image : NodeId → List NodeId) : Prop where
  root : ∀ n m, m ∈ image n → f.root m = f.root n
  single : ∀ n, (image n).Pairwise f.Precedes
  mono : ∀ a b, f.root a = f.root b → (f.path a).length = depth → (f.path b).length = depth →
    f.Precedes a b → ∀ x ∈ image a, ∀ y ∈ image b, x = y ∨ f.Precedes x y

theorem pairwise_toList {R : NodeId → NodeId → Prop} (o : Option NodeId) : o.toList.Pairwise R := by
  cases o <;> simp

namespace Orderly

variable {f : Forest} {depth : Nat}

theorem sublist {image image' : NodeId → List NodeId} (h : f.Orderly depth image)
    (hsub : ∀ n, (image' n).Sublist (image n)) : f.Orderly depth image' where
  root n m hm := h.root n m ((hsub n).subset hm)
  single n := (h.single n).sublist (hsub n)
  mono a b hroot ha hb hab x hx y hy :=
    h.mono a b hroot ha hb hab x ((hsub a).subset hx) y ((hsub b).subset hy)

theorem self : f.Orderly depth fun n => [n] where
  root n m hm := by rw [List.mem_singleton.mp hm]
  single n := List.pairwise_singleton _ n
  mono a b _ _ _ hab x hx y hy := by
    rw [List.mem_singleton.mp hx, List.mem_singleton.mp hy]
    exact Or.inr hab

theorem toBeside {image : NodeId → List NodeId} (moved : Nat → Nat → Prop)
    (hmoved : ∀ {i j i' j'}, moved i i' → moved j j' → i < j → i' < j')
    (hbeside : ∀ n m, m ∈ image n → f.root m = f.root n ∧ ∃ p i i', f.path n = f.path p ++ [i] ∧
      f.path m = f.path p ++ [i'] ∧ moved i i')
    (hsingle : ∀ n, (image n).Pairwise f.Precedes) : f.Orderly depth image where
  root n m hm := (hbeside n m hm).1
  single := hsingle
  mono a b _ ha hb hab x hx y hy := by
    obtain ⟨-, p, i, i', hpa, hpx, hi⟩ := hbeside a x hx
    obtain ⟨-, q, j, j', hpb, hpy, hj⟩ := hbeside b y hy
    -- Nodes at one depth have parents at one depth, so their paths differ in the parents or in the last
    -- place.
    have hlength : (f.path p).length = (f.path q).length := by
      rw [hpa, List.length_append] at ha
      rw [hpb, List.length_append] at hb
      simp only [List.length_singleton] at ha hb
      omega
    rw [Precedes, hpa, hpb, pathBefore_concat_iff hlength] at hab
    rw [Precedes, hpx, hpy, pathBefore_concat_iff hlength]
    exact Or.inr (hab.imp id fun ⟨hpq, hij⟩ => ⟨hpq, hmoved hi hj hij⟩)

variable (wf : f.WellFormed)

include wf

theorem toRoot : f.Orderly depth fun n => [f.root n] where
  root n m hm := by rw [List.mem_singleton.mp hm, wf.root_of_root (wf.parent_root n)]
  single n := List.pairwise_singleton _ _
  mono a b hroot _ _ _ x hx y hy := by
    rw [List.mem_singleton.mp hx, List.mem_singleton.mp hy]
    exact Or.inl hroot

theorem toParent : f.Orderly depth fun n => (f.parent n).toList where
  root n m hm := (wf.root_of_child (Option.mem_toList.mp hm)).symm
  single n := pairwise_toList _
  mono a b hroot ha hb hab x hx y hy := by
    have hx := Option.mem_toList.mp hx
    have hy := Option.mem_toList.mp hy
    obtain ⟨i, -, hpa⟩ := wf.child?_of_parent hx
    obtain ⟨j, -, hpb⟩ := wf.child?_of_parent hy
    rw [hpa, List.length_append] at ha
    rw [hpb, List.length_append] at hb
    rw [Precedes, hpa, hpb, pathBefore_concat_iff (by simp at ha hb; omega)] at hab
    -- Nodes below one parent lead to the same node.
    rcases hab with hab | ⟨heq, -⟩
    · exact Or.inr hab
    · rw [wf.root_of_child hx, wf.root_of_child hy] at hroot
      exact Or.inl (wf.eq_of_path hroot heq)

theorem toBelow {image : NodeId → List NodeId} (hbelow : ∀ n m, m ∈ image n → f.Above n m)
    (hsingle : ∀ n, (image n).Pairwise f.Precedes) : f.Orderly depth image where
  root n m hm := wf.root_of_above (hbelow n m hm)
  single := hsingle
  mono a b _ ha hb hab x hx y hy := by
    obtain ⟨i, r, hpx⟩ := wf.path_of_above (hbelow a x hx)
    obtain ⟨j, s, hpy⟩ := wf.path_of_above (hbelow b y hy)
    rw [Precedes, hpx, hpy]
    exact Or.inr (PathBefore.append hab (ha.trans hb.symm) _ _)

theorem toDescendants : f.Orderly depth f.descendants :=
  toBelow wf (fun _ _ => wf.mem_descendants.mp) fun n =>
    (List.pairwise_cons.mp (wf.pairwise_subtree n)).2

theorem toChildren : f.Orderly depth f.children := by
  refine toBelow wf (fun n m hm => above_of_parent ((wf.linked n m).mp hm)) fun n => ?_
  refine List.pairwise_iff_getElem.mpr fun i j hi hj hij => ?_
  obtain ⟨-, hpi⟩ := wf.path_of_child? (List.getElem?_eq_getElem hi)
  obtain ⟨-, hpj⟩ := wf.path_of_child? (List.getElem?_eq_getElem hj)
  rw [Precedes, hpi, hpj]
  exact List.Lex.append_left _ (.rel hij) _

theorem toPrevious : f.Orderly depth fun n => (f.previousSibling? n).toList := by
  refine toBeside (fun i i' => i = i' + 1) (by omega) (fun n m hm => ?_) fun n => pairwise_toList _
  obtain ⟨p, l, r, h⟩ := wf.neighbours_of_previousSibling? (Option.mem_toList.mp hm)
  obtain ⟨hroot, hpm, hpn⟩ := wf.path_of_neighbours h
  exact ⟨hroot, p, _, _, hpn, hpm, rfl⟩

theorem toNext : f.Orderly depth fun n => (f.nextSibling? n).toList := by
  refine toBeside (fun i i' => i' = i + 1) (by omega) (fun n m hm => ?_) fun n => pairwise_toList _
  obtain ⟨p, l, r, h⟩ := wf.neighbours_of_nextSibling? (Option.mem_toList.mp hm)
  obtain ⟨hroot, hpn, hpm⟩ := wf.path_of_neighbours h
  exact ⟨hroot.symm, p, _, _, hpn, hpm, rfl⟩

theorem image {step : Step} (h : step.isLevel ∨ step = .descendants) :
    f.Orderly depth (f.image step) := by
  have hkept : ∀ text, f.Orderly depth (f.image (.valueIs text)) := fun text =>
    self.sublist fun n => by
      rw [Forest.image]
      split <;> simp
  cases step with
  | root => exact toRoot wf
  | parent => exact toParent wf
  | children => exact toChildren wf
  | descendants => exact toDescendants wf
  | previous => exact toPrevious wf
  | next => exact toNext wf
  | range start stop => exact self
  | valueIs text => exact hkept text
  | named name => exact (toChildren wf).sublist fun n => List.filter_sublist
  | reference | ancestor name => simp [Step.isLevel] at h

end Orderly

/-! ## One step -/

/-- Nodes of one tree, in document order. -/
structure InOrder (f : Forest) (r : NodeId) (nodes : List NodeId) : Prop where
  root : ∀ n ∈ nodes, f.root n = r
  sorted : nodes.Pairwise f.Precedes

/-- Nodes of one tree at one depth, in document order. -/
structure OnLevel (f : Forest) (r : NodeId) (depth : Nat) (nodes : List NodeId) : Prop
    extends f.InOrder r nodes where
  depth : ∀ n ∈ nodes, (f.path n).length = depth

theorem InOrder.sublist {f : Forest} {r : NodeId} {nodes nodes' : List NodeId} (h : f.InOrder r nodes)
    (hsub : nodes'.Sublist nodes) : f.InOrder r nodes' :=
  ⟨fun n hn => h.root n (hsub.subset hn), h.sorted.sublist hsub⟩

theorem sublist_range (nodes : List NodeId) (start stop : Nat) :
    ((nodes.drop start).take (stop - start)).Sublist nodes :=
  (List.take_sublist _ _).trans (List.drop_sublist _ _)

theorem sublist_advance (f : Forest) {step : Step} (h : step.isFilter) (nodes : List NodeId) :
    (f.advance step nodes).Sublist nodes := by
  cases step with
  | range start stop => exact sublist_range nodes start stop
  | valueIs text =>
    rw [advance]
    · induction nodes with
      | nil => exact .slnil
      | cons n nodes ih =>
        rw [List.flatMap_cons, image]
        split
        · exact ih.cons_cons n
        · exact ih.cons n
    · simp
  | _ => cases h

theorem WellFormed.depth_image {f : Forest} (wf : f.WellFormed) {step : Step} (h : step.isLevel)
    (depth : Nat) : ∃ depth', ∀ n m, (f.path n).length = depth → m ∈ f.image step n →
      (f.path m).length = depth' := by
  have hchild : ∀ {n m}, (f.path n).length = depth → m ∈ f.children n →
      (f.path m).length = depth + 1 := by
    intro n m hn hm
    obtain ⟨i, -, hpath⟩ := wf.child?_of_parent ((wf.linked n m).mp hm)
    rw [hpath, List.length_append, hn, List.length_singleton]
  cases step with
  | root =>
    refine ⟨0, fun n m _ hm => ?_⟩
    rw [List.mem_singleton.mp hm, wf.path_root, List.length_nil]
  | parent =>
    refine ⟨depth - 1, fun n m hn hm => ?_⟩
    obtain ⟨i, -, hpath⟩ := wf.child?_of_parent (Option.mem_toList.mp hm)
    rw [hpath, List.length_append, List.length_singleton] at hn
    omega
  | children => exact ⟨depth + 1, fun n m => hchild⟩
  | named name => exact ⟨depth + 1, fun n m hn hm => hchild hn (List.mem_filter.mp hm).1⟩
  | previous =>
    refine ⟨depth, fun n m hn hm => ?_⟩
    obtain ⟨p, l, r, hsplit⟩ := wf.neighbours_of_previousSibling? (Option.mem_toList.mp hm)
    obtain ⟨-, hpm, hpn⟩ := wf.path_of_neighbours hsplit
    rw [← hn, hpm, hpn, List.length_append, List.length_append]
    rfl
  | next =>
    refine ⟨depth, fun n m hn hm => ?_⟩
    obtain ⟨p, l, r, hsplit⟩ := wf.neighbours_of_nextSibling? (Option.mem_toList.mp hm)
    obtain ⟨-, hpn, hpm⟩ := wf.path_of_neighbours hsplit
    rw [← hn, hpm, hpn, List.length_append, List.length_append]
    rfl
  | range start stop => exact ⟨depth, fun n m hn hm => List.mem_singleton.mp hm ▸ hn⟩
  | valueIs text =>
    refine ⟨depth, fun n m hn hm => ?_⟩
    rw [image] at hm
    split at hm
    · exact List.mem_singleton.mp hm ▸ hn
    · cases hm
  | descendants | reference | ancestor name => cases h

theorem WellFormed.depth_advance {f : Forest} (wf : f.WellFormed) {step : Step} (h : step.isLevel)
    {depth : Nat} {nodes : List NodeId} (hnodes : ∀ n ∈ nodes, (f.path n).length = depth) :
    ∃ depth', ∀ m ∈ f.advance step nodes, (f.path m).length = depth' := by
  obtain ⟨depth', hdepth⟩ := wf.depth_image h depth
  have hmapped : ∀ m ∈ nodes.flatMap (f.image step), (f.path m).length = depth' := by
    intro m hm
    obtain ⟨n, hn, hm⟩ := List.mem_flatMap.mp hm
    exact hdepth n m (hnodes n hn) hm
  cases step with
  | range start stop => exact ⟨depth, fun m hm => hnodes m ((sublist_range nodes start stop).subset hm)⟩
  | _ => exact ⟨depth', hmapped⟩

theorem pairwise_eraseDups {R : NodeId → NodeId → Prop} {l : List NodeId}
    (h : l.Pairwise fun a b => a = b ∨ R a b) : l.eraseDups.Pairwise R := by
  have hweak := h.sublist (eraseDups_sublist l)
  exact (hweak.and (List.nodup_iff_pairwise_ne.mp (nodup_eraseDups l))).imp fun hab =>
    hab.1.resolve_left hab.2

namespace OnLevel

variable {f : Forest} {r : NodeId} {depth : Nat} {nodes : List NodeId} (h : f.OnLevel r depth nodes)

include h

theorem inOrder_flatMap {image : NodeId → List NodeId} (himage : f.Orderly depth image) :
    f.InOrder r (nodes.flatMap image).eraseDups := by
  constructor
  · intro m hm
    obtain ⟨n, hn, hm⟩ := List.mem_flatMap.mp (List.mem_eraseDups.mp hm)
    rw [himage.root n m hm, h.root n hn]
  · refine pairwise_eraseDups (List.pairwise_flatMap.mpr ⟨fun n _ => ?_, ?_⟩)
    · exact (himage.single n).imp Or.inr
    · refine h.sorted.imp_of_mem fun ha hb hab => ?_
      exact himage.mono _ _ ((h.root _ ha).trans (h.root _ hb).symm) (h.depth _ ha) (h.depth _ hb) hab

variable (wf : f.WellFormed)

include wf

theorem inOrder_advance {step : Step} (hstep : step.isLevel ∨ step = .descendants) :
    f.InOrder r (f.advance step nodes).eraseDups := by
  have hmapped := h.inOrder_flatMap (Orderly.image wf hstep)
  cases step with
  | range start stop =>
    exact h.toInOrder.sublist ((eraseDups_sublist _).trans (sublist_range nodes start stop))
  | _ => exact hmapped

theorem advance {step : Step} (hstep : step.isLevel) :
    ∃ depth', f.OnLevel r depth' (f.advance step nodes).eraseDups := by
  obtain ⟨depth', hdepth⟩ := wf.depth_advance hstep h.depth
  exact ⟨depth', h.inOrder_advance wf (Or.inl hstep), fun m hm => hdepth m (List.mem_eraseDups.mp hm)⟩

end OnLevel

/-! ## All steps -/

theorem OnLevel.follow {f : Forest} (wf : f.WellFormed) {r : NodeId} {steps : List Step}
    (hsteps : ∀ step ∈ steps, step.isLevel) {depth : Nat} {nodes : List NodeId}
    (h : f.OnLevel r depth nodes) : ∃ depth', f.OnLevel r depth' (f.follow steps nodes) := by
  induction steps generalizing depth nodes with
  | nil => exact ⟨depth, h⟩
  | cons step steps ih =>
    obtain ⟨depth', hstep⟩ := h.advance wf (hsteps step List.mem_cons_self)
    exact ih (fun s hs => hsteps s (List.mem_cons_of_mem _ hs)) hstep

theorem InOrder.follow {f : Forest} {r : NodeId} {steps : List Step}
    (hsteps : ∀ step ∈ steps, step.isFilter) {nodes : List NodeId} (h : f.InOrder r nodes) :
    f.InOrder r (f.follow steps nodes) := by
  induction steps generalizing nodes with
  | nil => exact h
  | cons step steps ih =>
    have hsub := f.sublist_advance (hsteps step List.mem_cons_self) nodes
    exact ih (fun s hs => hsteps s (List.mem_cons_of_mem _ hs))
      (h.sublist ((eraseDups_sublist _).trans hsub))

theorem follow_append (f : Forest) (steps steps' : List Step) (nodes : List NodeId) :
    f.follow (steps ++ steps') nodes = f.follow steps' (f.follow steps nodes) := List.foldl_append

theorem onLevel_origin (f : Forest) (n : NodeId) : f.OnLevel (f.root n) (f.path n).length [n] :=
  ⟨⟨by simp, List.pairwise_singleton _ n⟩, by simp⟩

end Forest

/-! ## The main statement -/

/-- Level steps, then perhaps a step to all descendants and filters: the nodes found are in the tree of
the origin, in document order, and before that last step at one depth. -/
theorem Selector.select_in_document_order {f : Forest} (wf : f.WellFormed) (origin : NodeId)
    {s : Selector} {levels rest : List Step} (hs : s.steps = levels ++ rest)
    (hlevels : ∀ step ∈ levels, step.isLevel)
    (hrest : rest = [] ∨ ∃ filters, rest = .descendants :: filters ∧ ∀ step ∈ filters, step.isFilter) :
    (∀ n ∈ (s.select f origin).nodes, f.root n = f.root origin) ∧
    (s.select f origin).nodes.Pairwise (fun a b => Forest.PathBefore (f.path a) (f.path b)) ∧
    ∀ steps, steps <+: levels →
      ∃ depth, ∀ n ∈ f.follow steps [origin], (f.path n).length = depth := by
  have hfollow : ∀ steps, steps <+: levels →
      ∃ depth, f.OnLevel (f.root origin) depth (f.follow steps [origin]) := fun steps hsteps =>
    (f.onLevel_origin origin).follow wf fun step hstep => hlevels step (hsteps.subset hstep)
  have hfound : f.InOrder (f.root origin) (s.select f origin).nodes := by
    obtain ⟨depth, hlevel⟩ := hfollow levels (List.prefix_refl levels)
    rw [Selector.select, hs, f.follow_append]
    rcases hrest with rfl | ⟨filters, rfl, hfilters⟩
    · exact hlevel.toInOrder
    · rw [f.follow_cons]
      exact (hlevel.inOrder_advance wf (Or.inr rfl)).follow hfilters
  refine ⟨hfound.root, hfound.sorted, fun steps hsteps => ?_⟩
  obtain ⟨depth, hlevel⟩ := hfollow steps hsteps
  exact ⟨depth, hlevel.depth⟩

/-- Up to the parents and down again, to the next siblings, and what has the value `x` below these. -/
theorem Selector.select_in_document_order_of_detour :
    let x (name : String) : Tree Selector := ⟨name, some (.string "x"), []⟩
    let f := (Forest.plant ⟨"root", none, [
      ⟨"a", none, [⟨"c", none, [x "p"]⟩, ⟨"d", none, [x "q", ⟨"r", none, []⟩]⟩]⟩,
      ⟨"b", none, [⟨"e", none, []⟩, ⟨"g", none, [x "s"]⟩]⟩]⟩ .empty).2
    let levels : List Step := [.root, .children, .children, .parent, .children, .next]
    let s : Selector :=
      ⟨"/../*/*/./*/+/**/=x/[0,2]", levels ++ [.descendants, .valueIs "x", .range 0 2], .node⟩
    f.WellFormed ∧ f.follow levels [⟨10⟩] = [⟨4⟩, ⟨9⟩] ∧ (s.select f ⟨10⟩).nodes = [⟨5⟩, ⟨10⟩] ∧
      f.root ⟨5⟩ = f.root ⟨10⟩ ∧ Forest.PathBefore (f.path ⟨5⟩) (f.path ⟨10⟩) ∧
      ∃ depth, ∀ n ∈ [⟨4⟩, ⟨9⟩], (f.path n).length = depth := by
  intro x f levels s
  have wf : f.WellFormed := (Forest.planted _ .empty Forest.wellFormed_empty).wellFormed
  have hruns : f.follow levels [⟨10⟩] = [⟨4⟩, ⟨9⟩] ∧ (s.select f ⟨10⟩).nodes = [⟨5⟩, ⟨10⟩] := by decide
  have hsteps : s.steps = levels ++ [.descendants, .valueIs "x", .range 0 2] := rfl
  obtain ⟨hroot, hsorted, hdepth⟩ := Selector.select_in_document_order wf ⟨10⟩ hsteps (by decide)
    (Or.inr ⟨[.valueIs "x", .range 0 2], rfl, by decide⟩)
  rw [hruns.2] at hroot hsorted
  have hlevel := hdepth levels (List.prefix_refl levels)
  rw [hruns.1] at hlevel
  exact ⟨wf, hruns.1, hruns.2, hroot ⟨5⟩ List.mem_cons_self,
    List.rel_of_pairwise_cons hsorted List.mem_cons_self, hlevel⟩

end EventTree
