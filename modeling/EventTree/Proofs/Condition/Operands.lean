import EventTree.Proofs.Condition.Operators

/-!
# Operands

An operand is a conditional expression in its own right. When its turn comes it is still as it was at the
start, so it means the same, and it is tested as any conditional expression is.
-/

namespace EventTree

open EventTree.Action Keyword

namespace Forest

/-! ## Expressions that can be tested -/

/-- Nested trees of nodes within `n` are finite, and apart from `inside`. -/
def NestedApart (f : Forest) (inside : NodeId → Prop) (n : NodeId) : Prop :=
  ∀ m k, f.Within n m → f.value m = some (.node k) → f.Apart inside k

/-- `n` is a conditional expression, part of one that takes up `inside`. It has a name if it has
statements. -/
structure Testable (f : Forest) (inside : NodeId → Prop) (height : Nat) (n : NodeId) : Prop where
  wellFormed : f.WellFormed
  named : f.statements n ≠ [] → f.name n ≠ ""
  conditional : f.Conditional height n
  inside_of_within : ∀ m, f.Within n m → inside m
  nested : f.NestedApart inside n

/-- Operands have their outcome in `g`, and all that is below them is as it was in `f`. -/
def Spares (f : Forest) (passed : List (NodeId × Bool)) (g : Forest) : Prop :=
  ∀ p ∈ passed, g.value p.1 = some (.bool p.2) ∧ ∀ m, f.Above p.1 m → g.value m = f.value m

/-- What a test of `n` makes of `f`. -/
structure Tested (f : Forest) (height : Nat) (n : NodeId) (g : Forest) : Prop where
  underway : f.Underway n none g
  value_eq : g.value n = some (.bool (f.meaning height n))
  spares : f.Spares (f.passed height n) g

theorem Testable.name_ne {f : Forest} {inside : NodeId → Prop} {height : Nat} {n c : NodeId}
    (h : f.Testable inside height n) {l rest : List NodeId} (hs : f.children n = l ++ c :: rest)
    (hc : f.isStatement c) : f.name n ≠ "" := by
  refine h.named (List.ne_nil_of_mem (a := c) (List.mem_filter.mpr ⟨?_, hc⟩))
  rw [hs]
  exact List.mem_append_right _ List.mem_cons_self

theorem Within.has {f : Forest} {n m : NodeId} (h : f.Within n m) (hn : f.Has n) : f.Has m := by
  rcases h with rfl | h
  · exact hn
  · exact h.has_right

theorem Within.trans {f : Forest} {a b m : NodeId} (ha : f.Within a b) (hb : f.Above b m) :
    f.Within a m := by
  rcases ha with rfl | ha
  · exact Or.inr hb
  · exact Or.inr (ha.trans hb)

theorem Spares.of_frame {f g g' : Forest} {passed : List (NodeId × Bool)} (h : f.Spares passed g)
    {c : NodeId} (hwithin : ∀ p ∈ passed, f.Within c p.1)
    (hframe : ∀ m, f.Within c m → g'.value m = g.value m) : f.Spares passed g' := by
  intro p hp
  obtain ⟨hvalue, hbelow⟩ := h p hp
  refine ⟨(hframe _ (hwithin p hp)).trans hvalue, fun m hm => ?_⟩
  rw [hframe m ((hwithin p hp).trans hm), hbelow m hm]

theorem Spares.append {f g : Forest} {l r : List (NodeId × Bool)} (hl : f.Spares l g)
    (hr : f.Spares r g) : f.Spares (l ++ r) g := by
  intro p hp
  rcases List.mem_append.mp hp with hp | hp
  · exact hl p hp
  · exact hr p hp

/-! ## The same expression later -/

theorem Alike.within {f g : Forest} {c : NodeId} (h : f.Alike g c) (wf : f.WellFormed)
    (hg : g.WellFormed) {m : NodeId} (hm : g.Within c m) : f.Within c m := by
  rcases hm with rfl | hm
  · exact Or.inl rfl
  · -- Upwards from the node: each parent on the way is within by what holds for it.
    induction m using hg.wellFounded.induction with
    | _ m ih =>
      obtain ⟨p, hp, hcp⟩ := above_iff.mp hm
      have hin : f.Within c p := by
        rcases hcp with rfl | hcp
        · exact Or.inl rfl
        · exact ih p hp hcp
      have hchild : f.parent m = some p := by
        rw [← wf.linked, ← h.children_eq hin, hg.linked, hp]
      exact hin.trans (above_of_parent hchild)

theorem map_snapshotValue_congr {f g : Forest} {v : Option LiveValue}
    (h : ∀ k, v = some (.node k) → g.snapshot k = f.snapshot k) :
    v.map g.snapshotValue = v.map f.snapshotValue := by
  cases v with
  | none => rfl
  | some v =>
    cases v with
    | node k => simpa [snapshotValue, Value.map] using h k rfl
    | bool | int | float | string | selector => rfl

namespace Underway

variable {f g : Forest} {n : NodeId} {marker : Option NodeId} (h : f.Underway n marker g)
  (wf : f.WellFormed) {inside : NodeId → Prop} (hinside : ∀ m, f.Within n m → inside m)
  (hnested : f.NestedApart inside n)

include h

theorem cell_eq {m : NodeId} (hm : f.Has m) (hout : ¬ f.Within n m) : g.cell m = f.cell m :=
  cell_ext (h.name_eq m hm) (h.value_eq m hm hout) (h.parent_eq m hm)
    (h.children_ne m hm fun hmn => hout (Or.inl hmn))

include wf

theorem textOf_eq (m : NodeId) : g.textOf (f.value m) = f.textOf (f.value m) := by
  cases hv : f.value m with
  | none => rfl
  | some v =>
    cases v with
    | node k =>
      have hname := h.name_eq k (wf.held m k hv)
      simpa [textOf, text, Value.text] using hname
    | bool | int | float | string | selector => rfl

include hinside hnested

theorem snapshotValue_eq {m : NodeId} (hm : f.Within n m) :
    (f.value m).map g.snapshotValue = (f.value m).map f.snapshotValue :=
  map_snapshotValue_congr fun k hk => (hnested m k hm hk).snapshot_eq wf (wf.held m k hk)
    (fun m hm hout => h.cell_eq hm fun hin => hout (hinside m hin)) h.size_le

theorem alike {c : NodeId} (hc : f.parent c = some n)
    (huntouched : ∀ m, f.Within c m → g.value m = f.value m) : f.Alike g c where
  cell_eq m hm := by
    have hhas := hm.has (has_of_parent hc)
    refine cell_ext (h.name_eq m hhas) (huntouched m hm) (h.parent_eq m hhas) (h.children_ne m hhas ?_)
    rintro rfl
    exact wf.not_within_child hc hm
  snapshot_eq m hm := h.snapshotValue_eq wf hinside hnested (hm.of_child hc)
  text_eq m _ := h.textOf_eq wf m

theorem testable {c : NodeId} (hc : f.parent c = some n) {height : Nat}
    (huntouched : ∀ m, f.Within c m → g.value m = f.value m) (hname : f.name c ≠ "")
    (hconditional : f.Conditional height c) : g.Testable inside height c := by
  have ha := h.alike wf hinside hnested hc huntouched
  have hwithin : ∀ m, g.Within c m → f.Within c m := fun m hm => ha.within wf h.wellFormed hm
  refine ⟨h.wellFormed, fun _ => ?_, hconditional.congr wf ha, ?_, ?_⟩
  · rwa [h.name_eq c (has_of_parent hc)]
  · exact fun m hm => hinside m ((hwithin m hm).of_child hc)
  · intro m k hm hk
    have hm := hwithin m hm
    rw [huntouched m hm] at hk
    exact (hnested m k (hm.of_child hc) hk).unchanged wf (wf.held m k hk)
      fun m hm hout => h.cell_eq hm fun hin => hout (hinside m hin)

end Underway

theorem Progress.untouched_next {f g : Forest} {n c : NodeId} {l rest : List NodeId} {r : Reading}
    (hp : f.Progress n l r g) (wf : f.WellFormed) (hs : f.children n = l ++ c :: rest) :
    ∀ m, f.Within c m → g.value m = f.value m := by
  have hnodup := wf.nodup n
  rw [hs] at hnodup
  refine hp.untouched c (hs ▸ List.mem_append_right _ List.mem_cons_self) fun hc => ?_
  exact List.disjoint_of_nodup_append hnodup hc List.mem_cons_self

end Forest

namespace Keyword

/-- An engine tests all conditional expressions of a height within `inside`. -/
def Tests (engine : Engine) (w : World) (inside : NodeId → Prop) (height : Nat) : Prop :=
  ∀ f n hold, Forest.Testable f inside height n →
    ∃ g, (evaluateCondition engine n).result hold (w.on f) =
        (.ok ⟨f.meaning height n, (f.children n).length⟩, w.on g) ∧ f.Tested height n g

section Operand

variable {engine : Engine} {w : World} {inside : NodeId → Prop} {height : Nat}
  (ht : Tests engine w inside height) {f g : Forest} {n c : NodeId} {l rest : List NodeId} {r : Reading}
  (hn : f.Testable inside (height + 1) n) (hs : f.children n = l ++ c :: rest) (hp : f.Progress n l r g)
  (hc : f.Conditional height c)

include hn hs hp

theorem passed_spared {g' : Forest} {b : Bool} (hvalue : g'.value c = some (.bool b))
    (hothers : ∀ m, f.Has m → m ≠ n → m ≠ c → g'.value m = g.value m) : f.Spares [(c, b)] g' := by
  have wf := hn.wellFormed
  have hparent := wf.parent_of_split hs
  intro p hmem
  obtain rfl := List.mem_singleton.mp hmem
  refine ⟨hvalue, fun m hm => ?_⟩
  -- Below the operand is neither the operand nor its parent.
  have hmn : m ≠ n := by
    rintro rfl
    exact wf.not_within_child hparent (Or.inr hm)
  have hmc : m ≠ c := by
    rintro rfl
    exact wf.acyclic m hm
  rw [hothers m hm.has_right hmn hmc, hp.untouched_next wf hs m (Or.inr hm)]

include ht hc

theorem operand_evaluates (hname : f.name c ≠ "") (hold : Hold) :
    ∃ offset g₂, (evaluateCondition engine c).result hold
        (w.on (g.setValue n (some (.bool r.value)))) = (.ok ⟨f.meaning height c, offset⟩, w.on g₂) ∧
      (g.setValue n (some (.bool r.value))).Underway c none g₂ ∧
      g₂.value c = some (.bool (f.meaning height c)) ∧ f.Spares (f.passed height c) g₂ := by
  have wf := hn.wellFormed
  have hparent := wf.parent_of_split hs
  obtain ⟨marker, hu, -, hothers⟩ := coerced_underway wf hs hp
  generalize g.setValue n (some (.bool r.value)) = g₁ at hu hothers ⊢
  -- The node has a Boolean by now, but within the operand all is as it was in `f`.
  have huntouched : ∀ m, f.Within c m → g₁.value m = f.value m := by
    intro m hm
    rw [hothers m, hp.untouched_next wf hs m hm]
    rintro rfl
    exact wf.not_within_child hparent hm
  have halike := hu.alike wf hn.inside_of_within hn.nested hparent huntouched
  obtain ⟨g₂, heval, htested⟩ := ht g₁ c hold
    (hu.testable wf hn.inside_of_within hn.nested hparent huntouched hname hc)
  have hvalue := htested.value_eq
  have hspares := htested.spares
  rw [Forest.meaning_congr wf height halike] at heval hvalue
  rw [Forest.passed_congr wf height halike] at hspares
  refine ⟨_, g₂, heval, htested.underway, hvalue, fun p hmem => ⟨(hspares p hmem).1, fun m hm => ?_⟩⟩
  have hbelow := (wf.above_of_mem_passed height p hmem).trans hm
  rw [(hspares p hmem).2 m ((wf.above_of_parents hu.parent_eq hm.has_right).mpr hm),
    huntouched m (Or.inr hbelow)]

/-- A keyword that passes over an operand or evaluates it, as the reading has it, spares what is passed
over. -/
theorem operand_operates {handler : Handler} {event : String} {hold : Hold} (hname : f.name c ≠ "")
    {k : Clause} (hclause : f.clause (f.meaning height) n c = k)
    (hkind : k = .and (f.meaning height c) ∨ k = .or (f.meaning height c))
    (hpasses : r.passesOver k = true →
      ∃ g', (handler engine (.plain event c)).result hold (w.on g) = (.ok .normal, w.on g') ∧
        f.Operated n c (r.next k) g g' ∧ ∀ m, f.Has m → m ≠ n → m ≠ c → g'.value m = g.value m)
    (hevaluates : r.passesOver k = false → ∀ {offset : Nat} {g₂ : Forest},
      (evaluateCondition engine c).result (hold.adding [n])
        (w.on (g.setValue n (some (.bool r.value)))) = (.ok ⟨f.meaning height c, offset⟩, w.on g₂) →
      (g.setValue n (some (.bool r.value))).Underway c none g₂ →
      g₂.value c = some (.bool (f.meaning height c)) →
      ∃ g', (handler engine (.plain event c)).result hold (w.on g) = (.ok .normal, w.on g') ∧
        f.Operated n c (r.next k) g g' ∧ ∀ m, f.Has m → g'.value m = g₂.value m) :
    ∃ g', (handler engine (.plain event c)).result hold (w.on g) = (.ok .normal, w.on g') ∧
      f.Operated n c (r.next (f.clause (f.meaning height) n c)) g g' ∧
      f.Spares (f.passedAt (f.meaning height) (f.passed height) n r c) g' := by
  have wf := hn.wellFormed
  have hpassed : f.passedAt (f.meaning height) (f.passed height) n r c =
      if r.passesOver k then [(c, (r.next k).value)] else f.passed height c := by
    rw [Forest.passedAt, hclause]
    rcases hkind with rfl | rfl <;> rfl
  rw [hclause, hpassed]
  cases hr : r.passesOver k with
  | true =>
    obtain ⟨g', hresult, hoperated, hothers⟩ := hpasses hr
    exact ⟨g', hresult, hoperated, passed_spared hn hs hp hoperated.value_eq hothers⟩
  | false =>
    obtain ⟨offset, g₂, heval, hu₂, hv₂, hspares⟩ :=
      operand_evaluates ht hn hs hp hc hname (hold.adding [n])
    obtain ⟨g', hresult, hoperated, hsame⟩ := hevaluates hr heval hu₂ hv₂
    refine ⟨g', hresult, hoperated, hspares.of_frame
      (fun p hmem => Or.inr (wf.above_of_mem_passed height p hmem)) fun m hm => hsame m ?_⟩
    exact hm.has (Forest.has_of_parent (wf.parent_of_split hs))

variable {hold : Hold} (hheld : n ∈ hold.held)

include hheld

theorem or_operates (hname : f.name c = "or") :
    ∃ g', (Keyword.or engine (.plain "or" c)).result hold (w.on g) = (.ok .normal, w.on g') ∧
      f.Operated n c (r.next (f.clause (f.meaning height) n c)) g g' ∧
      f.Spares (f.passedAt (f.meaning height) (f.passed height) n r c) g' := by
  have hnamed := hn.name_ne hs (by rw [Forest.isStatement, hname]; decide)
  have hclause : f.clause (f.meaning height) n c = .or (f.meaning height c) := by
    simp [Forest.clause, hname]
  refine operand_operates ht hn hs hp hc (by rw [hname]; decide) hclause (Or.inr rfl) ?_ ?_
  · exact fun hr => or_passesOver hn.wellFormed hnamed hs hp hheld w hn.conditional.2.1 engine hr _
  · exact fun hr _ _ => or_evaluates hn.wellFormed hnamed hs hp hheld w hn.conditional.2.1 engine hr

theorem and_operates (hname : f.name c = "and") :
    ∃ g', (Keyword.and engine (.plain "and" c)).result hold (w.on g) = (.ok .normal, w.on g') ∧
      f.Operated n c (r.next (f.clause (f.meaning height) n c)) g g' ∧
      f.Spares (f.passedAt (f.meaning height) (f.passed height) n r c) g' := by
  have hnamed := hn.name_ne hs (by rw [Forest.isStatement, hname]; decide)
  have hclause : f.clause (f.meaning height) n c = .and (f.meaning height c) := by
    simp [Forest.clause, hname]
  refine operand_operates ht hn hs hp hc (by rw [hname]; decide) hclause (Or.inl rfl) ?_ ?_
  · exact fun hr => and_passesOver hn.wellFormed hnamed hs hp hheld w hn.conditional.2.1 engine hr
  · exact fun hr _ _ => and_evaluates hn.wellFormed hnamed hs hp hheld w hn.conditional.2.1 engine hr

end Operand

end Keyword

end EventTree
