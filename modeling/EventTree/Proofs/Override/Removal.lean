import EventTree.Proofs.Override.Graph
import Mathlib.Data.List.Lattice
import Mathlib.Data.List.Perm.Lattice

/-!
# Taking out overrides

An override is taken out where an equal one was added last. Overrides that were added and are taken out
again, in whatever order, leave the graph as it was. If others were added after them this need not be so:
of equal ones the later go first, so that earlier ones stay in their places.
-/

namespace EventTree

section EraseLast

variable {α : Type} [DecidableEq α] {a : α} {l l' : List α}

theorem eraseLast_append_of_mem (h : a ∈ l') : eraseLast a (l ++ l') = l ++ eraseLast a l' := by
  simp [eraseLast, List.erase_append_left _ (List.mem_reverse.mpr h)]

theorem eraseLast_append_of_not_mem (h : a ∉ l') : eraseLast a (l ++ l') = eraseLast a l ++ l' := by
  simp [eraseLast, List.erase_append_right _ (mt List.mem_reverse.mp h)]

theorem eraseLast_comm (a b : α) (l : List α) :
    eraseLast a (eraseLast b l) = eraseLast b (eraseLast a l) := by
  simp [eraseLast, List.erase_comm]

theorem eraseLast_perm (a : α) (l : List α) : (eraseLast a l).Perm (l.erase a) :=
  (List.reverse_perm _).trans ((List.reverse_perm l).erase a)

/-- A list without the last entries that equal those of another. -/
def eraseEach (l items : List α) : List α := items.foldl (fun l a => eraseLast a l) l

theorem eraseEach_eraseLast (a : α) (l items : List α) :
    eraseEach (eraseLast a l) items = eraseLast a (eraseEach l items) := by
  induction items generalizing l with
  | nil => rfl
  | cons b rest ih =>
    change eraseEach (eraseLast b (eraseLast a l)) rest = eraseLast a (eraseEach (eraseLast b l) rest)
    rw [eraseLast_comm, ih]

theorem eraseEach_cons (a : α) (l items : List α) :
    eraseEach l (a :: items) = eraseLast a (eraseEach l items) := eraseEach_eraseLast a l items

theorem count_eraseEach (a : α) (l items : List α) :
    (eraseEach l items).count a = l.count a - items.count a := by
  induction items with
  | nil => rfl
  | cons b rest ih =>
    rw [eraseEach_cons, (eraseLast_perm b _).count_eq, List.count_erase, ih, List.count_cons]
    omega

theorem mem_of_mem_eraseEach {items : List α} (h : a ∈ eraseEach l items) : a ∈ l := by
  rw [← List.count_pos_iff] at h ⊢
  rw [count_eraseEach] at h
  omega

theorem eraseEach_append (l items more : List α) :
    eraseEach (l ++ (items ++ more)) items = l ++ (items.bagInter more ++ eraseEach more items) := by
  induction items generalizing l more with
  | nil => simp [eraseEach]
  | cons a rest ih =>
    have hsplit : l ++ (a :: rest ++ more) = (l ++ [a]) ++ (rest ++ more) := by simp
    by_cases h : a ∈ more
    · have herase : eraseLast a ((l ++ [a]) ++ (rest ++ more)) =
          (l ++ [a]) ++ (rest ++ eraseLast a more) := by
        rw [eraseLast_append_of_mem (List.mem_append_right rest h), eraseLast_append_of_mem h]
      have hinter : rest.bagInter (eraseLast a more) = rest.bagInter (more.erase a) :=
        (eraseLast_perm a more).bagInter_left rest
      rw [hsplit, eraseEach_cons, ← eraseEach_eraseLast, herase, ih, hinter,
        List.cons_bagInter_of_mem rest h, eraseEach_cons, eraseEach_eraseLast]
      simp
    · -- Nothing that is left after the rest was erased equals `a`.
      have hleft : a ∉ rest.bagInter more ++ eraseEach more rest := by
        rw [List.mem_append, List.mem_bagInter]
        exact fun hm => h (hm.elim (·.2) mem_of_mem_eraseEach)
      rw [hsplit, eraseEach_cons, ih, eraseLast_append_of_not_mem hleft, eraseLast_append_singleton,
        List.cons_bagInter_of_not_mem rest h, eraseEach_cons,
        eraseLast_of_not_mem (mt mem_of_mem_eraseEach h)]

theorem bagInter_append_eraseEach_perm (items more : List α) :
    (items.bagInter more ++ eraseEach more items).Perm more := by
  rw [List.perm_iff_count]
  intro a
  rw [List.count_append, List.count_bagInter, count_eraseEach]
  omega

theorem bagInter_append_eraseEach_of_disjoint {items more : List α} (h : items.Disjoint more) :
    items.bagInter more ++ eraseEach more items = more := by
  rw [List.bagInter_eq_nil_iff_disjoint.mpr h, List.nil_append]
  induction items with
  | nil => rfl
  | cons a rest ih =>
    obtain ⟨ha, hrest⟩ := List.disjoint_cons_left.mp h
    rw [eraseEach_cons, ih hrest, eraseLast_of_not_mem ha]

end EraseLast

namespace OverrideGraph

variable {g : OverrideGraph}

/-- A graph without overrides that are taken out one after the other. -/
def removeAll (g : OverrideGraph) (pairs : List (String × String)) : OverrideGraph :=
  pairs.foldl (fun g pair => g.remove pair.1 pair.2) g

theorem Proper.removeAll (h : g.Proper) (pairs : List (String × String)) : (g.removeAll pairs).Proper := by
  induction pairs generalizing g with
  | nil => exact h
  | cons pair rest ih => exact ih (h.remove pair.1 pair.2)

theorem Proper.supersOf_removeAll (h : g.Proper) (pairs : List (String × String)) (base : String) :
    (g.removeAll pairs).supersOf base = eraseEach (g.supersOf base) (supersIn pairs base) := by
  induction pairs generalizing g with
  | nil => rfl
  | cons pair rest ih =>
    obtain ⟨base', super⟩ := pair
    refine (ih (h.remove base' super)).trans ?_
    rw [h.supersOf_remove, supersIn_cons]
    split
    · rename_i hb
      rw [hb]
      rfl
    · rfl

theorem Proper.sends_of_removeAll (h : g.Proper) (pairs : List (String × String)) {base super : String}
    (hsends : (g.removeAll pairs).Sends base super) : g.Sends base super := by
  rw [Sends, h.supersOf_removeAll] at hsends
  exact mem_of_mem_eraseEach hsends

/-! ## Overrides that were added -/

theorem Proper.edges_remove (h : g.Proper) (base super : String) :
    (g.remove base super).edges = occupied (changeAt g.edges base (eraseLast super)) := by
  unfold OverrideGraph.remove
  split
  · rfl
  · rename_i hc
    have hnot : super ∉ g.supersOf base := by simpa [contains, supersOf] using hc
    -- There is nothing to erase, and no entry is empty.
    have hchange : changeAt g.edges base (eraseLast super) = g.edges := by
      refine changeAt_eq_self fun edge he hb => ?_
      have hsupers : g.supersOf base = edge.2 := by
        rw [← hb, supersOf_of_some (lookup_of_mem h.nodup he)]
      exact eraseLast_of_not_mem (hsupers ▸ hnot)
    rw [hchange, occupied_eq_self h.nonempty]

theorem ext_edges {g g' : OverrideGraph} (h : g.edges = g'.edges) : g = g' := by
  cases g
  cases g'
  exact congrArg mk h

theorem Proper.remove_comm (h : g.Proper) (base super base' super' : String) :
    (g.remove base super).remove base' super' = (g.remove base' super').remove base super := by
  have hempty : ∀ super : String, eraseLast super [] = [] := fun _ => rfl
  refine ext_edges ?_
  rw [(h.remove base super).edges_remove, (h.remove base' super').edges_remove, h.edges_remove,
    h.edges_remove, occupied_changeAt _ _ (hempty _), occupied_changeAt _ _ (hempty _),
    changeAt_comm _ _ _ (eraseLast_comm super' super)]

theorem Proper.removeAll_remove (h : g.Proper) (base super : String) (pairs : List (String × String)) :
    (g.remove base super).removeAll pairs = (g.removeAll pairs).remove base super := by
  induction pairs generalizing g with
  | nil => rfl
  | cons pair rest ih =>
    refine Eq.trans ?_ (ih (h.remove pair.1 pair.2))
    exact congrArg (OverrideGraph.removeAll · rest) (h.remove_comm base super pair.1 pair.2)

theorem Proper.remove_push (h : g.Proper) (base super : String) :
    (g.push base super).remove base super = g := by
  refine ext_edges ?_
  rw [(h.push base super).edges_remove, edges_push, extendAt]
  split
  · rw [changeAt_changeAt, changeAt_eq_self fun edge _ _ => eraseLast_append_singleton super edge.2,
      occupied_eq_self h.nonempty]
  · rename_i hnew
    -- The override has brought an entry of its own, which is empty when it is gone.
    have hself : changeAt g.edges base (eraseLast super) = g.edges :=
      changeAt_eq_self fun edge he hb => absurd (hb ▸ List.mem_map_of_mem he) (mt (mem_keys_iff _ _).mp hnew)
    have hsplit : changeAt (g.edges ++ [(base, [super])]) base (eraseLast super) =
        g.edges ++ [(base, [])] := by
      rw [changeAt, List.map_append]
      refine congrArg₂ _ hself ?_
      simp [eraseLast]
    rw [hsplit, occupied, List.filter_append]
    exact (List.append_nil _).trans (occupied_eq_self h.nonempty)

theorem Proper.removeAll_pushAll (h : g.Proper) (pairs : List (String × String)) :
    (g.pushAll pairs).removeAll pairs = g := by
  induction pairs generalizing g with
  | nil => rfl
  | cons pair rest ih =>
    obtain ⟨base, super⟩ := pair
    have hpush : ((g.push base super).pushAll rest).Proper := (h.push base super).pushAll rest
    calc (g.pushAll ((base, super) :: rest)).removeAll ((base, super) :: rest)
        = (((g.push base super).pushAll rest).remove base super).removeAll rest := rfl
      _ = (((g.push base super).pushAll rest).removeAll rest).remove base super :=
          hpush.removeAll_remove base super rest
      _ = (g.push base super).remove base super := by rw [ih (h.push base super)]
      _ = g := h.remove_push base super

end OverrideGraph

end EventTree
