import EventTree.Proofs.Condition.Evaluation
import EventTree.Proofs.Success

/-!
# What a test reaches

The operators of a conditional node may stand in any order and have values of any kind. A test of the
node that succeeds leaves a Boolean on the node, and whatever the operators do, nothing changes but the
node, its markers, what is below its operators, and new nodes.
-/

namespace EventTree

open EventTree.Action Keyword

namespace Forest

/-! ## Conditions -/

section Conditions

variable {f g : Forest} {names : List String}

theorem leadingOperators_congr {cs : List NodeId} (h : ∀ c ∈ cs, g.name c = f.name c) :
    g.leadingOperators names cs = f.leadingOperators names cs := by
  induction cs with
  | nil => rfl
  | cons c cs ih =>
    obtain ⟨hc, hcs⟩ := List.forall_mem_cons.mp h
    rw [leadingOperators, leadingOperators, ih hcs, hc]

theorem dropWhile_congr {α : Type} {p q : α → Bool} {l : List α} (h : ∀ a ∈ l, p a = q a) :
    l.dropWhile p = l.dropWhile q := by
  induction l with
  | nil => rfl
  | cons a l ih =>
    obtain ⟨ha, hl⟩ := List.forall_mem_cons.mp h
    rw [List.dropWhile_cons, List.dropWhile_cons, ha, ih hl]

theorem conditionsOf_congr {n : NodeId} (hcell : g.cell n = f.cell n)
    (hnames : ∀ c ∈ f.children n, g.name c = f.name c) (names : List String) :
    g.conditionsOf names n = f.conditionsOf names n := by
  have hchildren : g.children n = f.children n := by rw [children, hcell, children]
  have hstatements : (f.children n).dropWhile (fun c => !g.isStatement c) =
      (f.children n).dropWhile fun c => !f.isStatement c :=
    dropWhile_congr fun c hc => by rw [isStatement, hnames c hc, isStatement]
  unfold conditionsOf
  dsimp only
  rw [hchildren, hasValue, name, value, hcell, ← value, ← hasValue, ← name,
    leadingOperators_congr hnames, hstatements]
  cases h : (f.children n).dropWhile fun c => !f.isStatement c with
  | nil => rfl
  | cons first rest =>
    have hrest : ∀ c ∈ rest, g.name c = f.name c := fun c hc =>
      hnames c ((List.dropWhile_sublist _).subset (h ▸ List.mem_cons_of_mem _ hc))
    dsimp only
    rw [leadingOperators_congr hrest]

theorem leadingOperators_sublist (f : Forest) (names : List String) (cs : List NodeId) :
    (f.leadingOperators names cs).1.Sublist (cs.filter f.isStatement) := by
  induction cs with
  | nil => exact List.Sublist.refl _
  | cons c cs ih =>
    rw [leadingOperators]
    dsimp only
    by_cases hdata : isDataName (f.name c) = true
    · rw [if_pos hdata, List.filter_cons_of_neg (by simp [isStatement, hdata])]
      exact ih
    · rw [if_neg hdata, List.filter_cons_of_pos (by simpa [isStatement] using hdata)]
      split
      · exact ih.cons_cons c
      · exact List.nil_sublist _

theorem conditionsOf_sublist {n : NodeId} {conditions : List NodeId} {offset : Nat}
    (h : f.conditionsOf names n = .ok (conditions, offset)) : conditions.Sublist (f.statements n) := by
  unfold conditionsOf at h
  dsimp only at h
  split at h
  · obtain rfl : (f.leadingOperators names (f.children n)).1 = conditions :=
      congrArg Prod.fst (Except.ok.inj h)
    exact leadingOperators_sublist f names _
  · split at h
    · cases h
    · rename_i first rest hdrop
      -- Behind the data stands a statement.
      have hfirst := List.head?_dropWhile_not (fun c => !f.isStatement c) (f.children n)
      have hsublist := List.dropWhile_sublist (l := f.children n) fun c => !f.isStatement c
      rw [hdrop] at hfirst hsublist
      obtain rfl : first :: (f.leadingOperators names rest).1 = conditions :=
        congrArg Prod.fst (Except.ok.inj h)
      refine List.Sublist.trans ?_ (hsublist.filter _)
      rw [List.filter_cons_of_pos (by simpa using hfirst)]
      exact (leadingOperators_sublist f names rest).cons_cons first

theorem name_mem_of_mem_leadingOperators {cs : List NodeId} {c : NodeId}
    (h : c ∈ (f.leadingOperators names cs).1) : f.name c ∈ names := by
  induction cs with
  | nil => cases h
  | cons d cs ih =>
    rw [leadingOperators] at h
    dsimp only at h
    split at h
    · exact ih h
    · split at h
      · rcases List.mem_cons.mp h with rfl | h
        · assumption
        · exact ih h
      · cases h

end Conditions

/-- Testing the node raises operators only, and so does testing an `and` or `or` among them. -/
inductive RaisesOperators (f : Forest) : NodeId → Prop
  | mk {n : NodeId} :
      (∀ conditions offset, f.conditionsOf operators n = .ok (conditions, offset) →
        ∀ c ∈ conditions, f.name c ∈ operators) →
      (∀ conditions offset, f.conditionsOf operators n = .ok (conditions, offset) →
        ∀ c ∈ conditions, f.name c = "and" ∨ f.name c = "or" → RaisesOperators f c) →
      RaisesOperators f n

theorem RaisesOperators.of_value {f : Forest} {n : NodeId} (hvalue : f.hasValue n = true)
    (hlogic : ∀ c ∈ f.statements n, f.name c = "and" ∨ f.name c = "or" → f.RaisesOperators c) :
    f.RaisesOperators n := by
  refine .mk (fun conditions offset h c hc => ?_) fun conditions offset h c hc =>
    hlogic c ((conditionsOf_sublist h).subset hc)
  rw [conditionsOf, if_pos hvalue] at h
  obtain rfl : (f.leadingOperators operators (f.children n)).1 = conditions :=
    congrArg Prod.fst (Except.ok.inj h)
  exact name_mem_of_mem_leadingOperators hc

theorem RaisesOperators.congr {f g : Forest} (wf : f.WellFormed) {n : NodeId} (h : f.RaisesOperators n)
    (hsame : ∀ k, f.Within n k → g.cell k = f.cell k) : g.RaisesOperators n := by
  induction h with
  | @mk n hnames _ ih =>
    have hchild : ∀ c ∈ f.children n, f.Within n c := fun c hc =>
      .inr (above_of_parent ((wf.linked n c).mp hc))
    have hname : ∀ c ∈ f.children n, g.name c = f.name c := fun c hc => by
      rw [name, hsame c (hchild c hc), name]
    have hconditions := conditionsOf_congr (hsame n (.inl rfl)) hname operators
    have hmem : ∀ {conditions offset}, f.conditionsOf operators n = .ok (conditions, offset) →
        ∀ c ∈ conditions, c ∈ f.children n := fun h c hc =>
      (List.mem_filter.mp ((conditionsOf_sublist h).subset hc)).1
    refine .mk (fun conditions offset h c hc => ?_) fun conditions offset h c hc hlogic => ?_
    · rw [hconditions] at h
      rw [hname c (hmem h c hc)]
      exact hnames conditions offset h c hc
    · rw [hconditions] at h
      rw [hname c (hmem h c hc)] at hlogic
      refine ih conditions offset h c hc hlogic fun k hk => hsame k ?_
      exact hk.of_child ((wf.linked n c).mp (hmem h c hc))

/-! ## Changes -/

/-- Nothing but what is `inside` has changed, and no node has a new name or a new parent. There may be new
nodes. -/
structure Confined (f : Forest) (inside : NodeId → Prop) (g : Forest) : Prop where
  wellFormed : g.WellFormed
  size_le : f.size ≤ g.size
  name_eq : ∀ k, f.Has k → g.name k = f.name k
  /-- A node may lose its parent but gets no other. -/
  parent_of : ∀ k p, f.Has k → g.parent k = some p → f.parent k = some p
  cell_eq : ∀ k, f.Has k → ¬ inside k → g.cell k = f.cell k

namespace Confined

variable {f g h : Forest} {inside inside' : NodeId → Prop}

theorem has (hg : f.Confined inside g) {k : NodeId} (hk : f.Has k) : g.Has k :=
  Nat.lt_of_lt_of_le hk hg.size_le

theorem refl (wf : f.WellFormed) : f.Confined inside f :=
  ⟨wf, Nat.le_refl _, fun _ _ => rfl, fun _ _ _ hp => hp, fun _ _ _ => rfl⟩

theorem trans (hg : f.Confined inside g) (hh : g.Confined inside' h)
    (hinside : ∀ k, f.Has k → inside' k → inside k) : f.Confined inside h where
  wellFormed := hh.wellFormed
  size_le := Nat.le_trans hg.size_le hh.size_le
  name_eq k hk := by rw [hh.name_eq k (hg.has hk), hg.name_eq k hk]
  parent_of k p hk hp := hg.parent_of k p hk (hh.parent_of k p (hg.has hk) hp)
  cell_eq k hk hout := by
    rw [hh.cell_eq k (hg.has hk) fun hin => hout (hinside k hk hin), hg.cell_eq k hk hout]

theorem mono (hg : f.Confined inside g) (hinside : ∀ k, f.Has k → inside k → inside' k) :
    f.Confined inside' g :=
  { hg with cell_eq := fun k hk hout => hg.cell_eq k hk fun hin => hout (hinside k hk hin) }

theorem above_of (hg : f.Confined inside g) (wf : f.WellFormed) {a k : NodeId} (hk : f.Has k)
    (habove : g.Above a k) : f.Above a k := by
  induction habove with
  | single hp => exact above_of_parent (hg.parent_of _ _ hk hp)
  | tail _ hp ih =>
    have hp := hg.parent_of _ _ hk hp
    exact (ih (wf.has_parent hp)).trans (above_of_parent hp)

theorem within_of (hg : f.Confined inside g) (wf : f.WellFormed) {a k : NodeId} (hk : f.Has k)
    (hwithin : g.Within a k) : f.Within a k :=
  hwithin.imp id fun habove => hg.above_of wf hk habove

end Confined

/-- What a test of `n` may change: the node itself, the markers below it, and what is `inside`. -/
def Exposed (f : Forest) (n : NodeId) (inside : NodeId → Prop) (k : NodeId) : Prop :=
  k = n ∨ inside k ∨ f.parent k = some n ∧ f.name k = markerName

/-- What becomes of a forest while `n` is tested. Its children are the same but for markers. -/
structure Disturbed (f : Forest) (n : NodeId) (inside : NodeId → Prop) (g : Forest) : Prop
    extends f.Confined (f.Exposed n inside) g where
  parent_eq : g.parent n = f.parent n
  children_eq : (g.children n).filter (g.name · ≠ markerName) =
    (f.children n).filter (f.name · ≠ markerName)

namespace Disturbed

variable {f g h : Forest} {n : NodeId} {inside inside' : NodeId → Prop}

theorem refl (wf : f.WellFormed) : f.Disturbed n inside f := ⟨.refl wf, rfl, rfl⟩

theorem trans (hg : f.Disturbed n inside g) (hh : g.Disturbed n inside' h)
    (hinside : ∀ k, f.Has k → inside' k → inside k) : f.Disturbed n inside h where
  toConfined := by
    refine hg.toConfined.trans hh.toConfined fun k hk => Or.imp_right (Or.imp (hinside k hk) ?_)
    rintro ⟨hp, hname⟩
    exact ⟨hg.parent_of k n hk hp, hg.name_eq k hk ▸ hname⟩
  parent_eq := by rw [hh.parent_eq, hg.parent_eq]
  children_eq := by rw [hh.children_eq, hg.children_eq]

theorem mono (hg : f.Disturbed n inside g) (hinside : ∀ k, f.Has k → inside k → inside' k) :
    f.Disturbed n inside' g :=
  { hg with toConfined := hg.toConfined.mono fun k hk => Or.imp_right (Or.imp_left (hinside k hk)) }

theorem grown (wf : f.WellFormed) (hn : f.Has n) (hg : f.Grown g) (wg : g.WellFormed) :
    f.Disturbed n inside g where
  wellFormed := wg
  size_le := hg.size_le
  name_eq k hk := hg.name_eq hk
  parent_of k p hk hp := by rwa [hg.parent_eq hk] at hp
  parent_eq := hg.parent_eq hn
  children_eq := by
    rw [hg.children_eq hn]
    refine List.filter_congr fun c hc => ?_
    rw [hg.name_eq (wf.has_child hc)]
  cell_eq k hk _ := hg.cell_eq k hk

theorem setValue (wf : f.WellFormed) {k : NodeId} (b : Bool)
    (hk : f.Exposed n inside k) :
    f.Disturbed n inside (f.setValue k (some (.bool b))) where
  wellFormed := wf.setValue k fun m hm => by cases hm
  size_le := by simp
  name_eq m _ := name_setValue
  parent_of m p _ hp := by rwa [parent_setValue] at hp
  parent_eq := parent_setValue
  children_eq := by
    rw [children_setValue]
    exact List.filter_congr fun c _ => by rw [name_setValue]
  cell_eq m _ hout := by
    refine cell_update_ne ?_
    rintro rfl
    exact hout hk

theorem mark (wf : f.WellFormed) (hn : f.Has n) {d : NodeId} (hg : f.Grown g) (hd : ¬ f.Has d)
    (hname : g.name d = markerName) (hl : Lent n [d] g h) (hh : h.children n = d :: g.children n) :
    f.Disturbed n inside h where
  wellFormed := hl.wellFormed
  size_le := hl.size_eq ▸ hg.size_le
  name_eq k hk := by rw [hl.name_eq, hg.name_eq hk]
  parent_of k p hk hp := by
    have hne : k ∉ [d] := fun hmem => hd (List.mem_singleton.mp hmem ▸ hk)
    rwa [hl.parent_eq, if_neg hne, hg.parent_eq hk] at hp
  parent_eq := by
    have hne : n ∉ [d] := fun hmem => hd (List.mem_singleton.mp hmem ▸ hn)
    rw [hl.parent_eq, if_neg hne, hg.parent_eq hn]
  children_eq := by
    rw [hh, List.filter_cons_of_neg (by simp [hl.name_eq, hname]), hg.children_eq hn]
    refine List.filter_congr fun c hc => ?_
    rw [hl.name_eq, hg.name_eq (wf.has_child hc)]
  cell_eq k hk hout := by
    rw [← hg.cell_eq k hk]
    refine hl.cell_eq (fun hkn => hout (.inl hkn)) (fun hmem => hd (List.mem_singleton.mp hmem ▸ hk))
      fun c hc hmem => hd ?_
    rw [hg.children_eq hk] at hc
    exact List.mem_singleton.mp hmem ▸ wf.has_child hc

theorem unmark (wf : f.WellFormed) {d : NodeId} (hd : f.parent d = some n)
    (hname : f.name d = markerName) : f.Disturbed n inside (f.detach d) where
  wellFormed := wf.detach d
  size_le := by simp
  name_eq k _ := name_detach
  parent_of k p _ hp := parent_of_parent_detach hp
  parent_eq := by rw [parent_detach, if_neg (wf.ne_parent hd).symm]
  children_eq := by
    rw [wf.children_detach, List.filter_filter]
    refine List.filter_congr fun c _ => ?_
    by_cases hc : c = d <;> simp [hc, name_detach, hname]
  cell_eq k hk hout := by
    have hkd : k ≠ d := by
      rintro rfl
      exact hout (.inr (.inr ⟨hd, hname⟩))
    refine cell_ext name_detach value_detach ?_ ?_
    · change (f.detach d).parent k = f.parent k
      rw [parent_detach, if_neg hkd]
    · change (f.detach d).children k = f.children k
      rw [wf.children_detach, List.filter_eq_self]
      refine fun c hc => decide_eq_true ?_
      rintro rfl
      exact hout (.inl (Option.some.inj (((wf.linked k c).mp hc).symm.trans hd)))

theorem confined (hg : f.Disturbed n (f.Above n) g) : f.Confined (f.Within n) g := by
  refine hg.toConfined.mono ?_
  rintro k - (rfl | habove | ⟨hp, -⟩)
  · exact .inl rfl
  · exact .inr habove
  · exact .inr (above_of_parent hp)

theorem nested (wf : f.WellFormed) {c : NodeId} (hc : f.parent c = some n)
    (hg : f.Disturbed c (f.Above c) g) : f.Disturbed n (f.Within c) g := by
  have hn : g.cell n = f.cell n := hg.confined.cell_eq n (wf.has_parent hc) (wf.not_within_child hc)
  refine ⟨hg.confined.mono fun k _ hk => .inr (.inl hk), ?_, ?_⟩
  · rw [parent, hn, parent]
  · rw [children, hn, ← children]
    refine List.filter_congr fun d hd => ?_
    rw [hg.name_eq d (wf.has_child hd)]

theorem cell_within {others : List NodeId} (hg : f.Disturbed n (fun k => ∃ d ∈ others, f.Within d k) g)
    (wf : f.WellFormed) {c : NodeId} (hc : f.parent c = some n) (hname : f.name c ≠ markerName)
    (hothers : ∀ d ∈ others, f.parent d = some n ∧ d ≠ c) :
    ∀ k, f.Within c k → g.cell k = f.cell k := by
  intro k hk
  refine hg.cell_eq k (hk.has (has_of_parent hc)) ?_
  -- Not the node, nor below another child, nor a marker.
  rintro (rfl | ⟨d, hd, hdk⟩ | ⟨hp, hmarker⟩)
  · exact wf.not_within_child hc hk
  · exact (hothers d hd).2 (wf.within_unique (hothers d hd).1 hc hdk hk)
  · obtain rfl : c = k := wf.within_unique hc hp hk (.inl rfl)
    exact hname hmarker

end Disturbed

/-- What an operator of a node leaves when it succeeds. -/
structure Answered (f : Forest) (n c : NodeId) (flow : Flow) (g : Forest) : Prop where
  normal : flow = .normal
  disturbed : f.Disturbed n (f.Within c) g
  value : ∃ b, g.value c = some (.bool b)

/-- What a test of a node leaves when it succeeds. -/
structure Judged (f : Forest) (n : NodeId) (condition : Condition) (g : Forest) : Prop where
  disturbed : f.Disturbed n (f.Above n) g
  value : g.value n = some (.bool condition.value)
  unmarked : ∀ k ∈ g.children n, g.name k ≠ markerName
  offset : ∃ conditions, f.conditionsOf operators n = .ok (conditions, condition.offset)

theorem Judged.children_eq {f g : Forest} {n : NodeId} {condition : Condition} (h : f.Judged n condition g)
    (hunmarked : ∀ k ∈ f.children n, f.name k ≠ markerName) : g.children n = f.children n := by
  have hkept := h.disturbed.children_eq
  rwa [List.filter_eq_self.mpr fun k hk => decide_eq_true (h.unmarked k hk),
    List.filter_eq_self.mpr fun k hk => decide_eq_true (hunmarked k hk)] at hkept

end Forest

namespace Keyword

/-- Every test of a node that raises operators only leaves what is known of such tests. -/
def Judges (engine : Engine) (w : World) : Prop :=
  ∀ (hold : Hold) (f : Forest) (n : NodeId), f.WellFormed → f.Has n → f.RaisesOperators n →
    Ensures hold w f (evaluateCondition engine n) (f.Judged n)

/-! ## Markers and operators -/

section Operators

variable {hold : Hold} {w : World} {g : Forest} (wf : g.WellFormed) {n c : NodeId}

include wf

theorem setMarker_ensures (hn : g.Has n) (b : Bool) :
    Ensures hold w g (setMarker n b) fun _ g' => g.Disturbed n (fun _ => False) g' ∧
      ∀ k, g.Has k → g.name k ≠ markerName → g'.value k = g.value k := by
  refine .ask_bind ?_
  cases hfound : g.find? n markerName with
  | some d =>
    have hd : g.parent d = some n := (wf.linked n d).mp (List.mem_of_find?_eq_some hfound)
    have hname : g.name d = markerName := by simpa [Forest.hasName] using List.find?_some hfound
    refine .setValue ⟨.setValue wf b (.inr (.inr ⟨hd, hname⟩)), fun k hk hne => ?_⟩
    rw [Forest.value_setValue (Forest.has_of_parent hd), if_neg]
    rintro rfl
    exact hne hname
  | none =>
    obtain ⟨g₁, hcreate, hgrown, hwf, ha, hname, -⟩ := createWith_grows wf hn markerName b hold w
    obtain ⟨g₂, hinsert, hl, hg₂⟩ := insertFirst_lends (w := w.on g₁) hold hwf ha
    refine .of_result ((result_bind_ok hcreate).trans hinsert)
      ⟨.mark wf hn hgrown (Nat.lt_irrefl _) hname hl hg₂, fun k hk _ => ?_⟩
    rw [hl.value_eq, World.forest_on, hgrown.value_eq hk]

theorem clearMarkers_ensures (hheld : n ∈ hold.held) :
    Ensures hold w g (clearMarkers n) fun _ g' => g.Disturbed n (fun _ => False) g' ∧
      (∀ k, g'.value k = g.value k) ∧ ∀ k ∈ g'.children n, g'.name k ≠ markerName := by
  refine .ask_bind ?_
  -- the markers that are left are those still to come
  refine (Ensures.forEach (fun rest g' => g.Disturbed n (fun _ => False) g' ∧
    (∀ k, g'.value k = g.value k) ∧ g'.findAll n markerName = rest) ?_ ⟨.refl wf, fun _ => rfl, rfl⟩).mono ?_
  · rintro d rest g' ⟨hg', hvalue, hall⟩
    have hd : d ∈ g'.findAll n markerName := hall ▸ List.mem_cons_self
    obtain ⟨hchild, hname⟩ := List.mem_filter.mp hd
    have hparent := (hg'.wellFormed.linked n d).mp hchild
    have hmarker : g'.name d = markerName := by simpa [Forest.hasName] using hname
    refine .of_result (result_untie (hg'.wellFormed.parent_seen hheld hparent))
      ⟨hg'.trans (.unmark hg'.wellFormed hparent hmarker) fun _ _ h => h,
        fun k => Forest.value_detach.trans (hvalue k), ?_⟩
    have hnodup : (d :: rest).Nodup := hall ▸ (hg'.wellFormed.nodup n).filter _
    have hnames : (g'.detach d).hasName markerName = g'.hasName markerName :=
      funext fun k => by rw [Forest.hasName, Forest.name_detach, Forest.hasName]
    change (g'.detach d).findAll n markerName = rest
    rw [Forest.findAll, hg'.wellFormed.children_detach, hnames, List.filter_comm, ← Forest.findAll, hall,
      List.filter_cons_of_neg (by simp), List.filter_eq_self]
    refine fun k hk => decide_eq_true ?_
    rintro rfl
    exact (List.nodup_cons.mp hnodup).1 hk
  rintro - g' ⟨hg', hvalue, hnone⟩
  refine ⟨hg', hvalue, fun k hk hname => ?_⟩
  have hmem : k ∈ g'.findAll n markerName := List.mem_filter.mpr ⟨hk, by simpa [Forest.hasName] using hname⟩
  rw [hnone] at hmem
  cases hmem

variable (hc : g.parent c = some n)

include hc

theorem conditionalParent_ensures :
    Ensures hold w g (conditionalParent c) fun p g' => n = p ∧ g = g' := by
  refine .observe_bind ?_
  cases hp : ((g.seen hold).parent c).filter fun p => (g.seen hold).name p ≠ "" with
  | none => exact .ask_bind .fail
  | some p =>
    have hseen := (Forest.seen_pruned wf hold).parent c p (Option.filter_eq_some_iff.mp hp).1
    exact .pure ⟨Option.some.inj (hc.symm.trans hseen), rfl⟩

theorem previousCondition_ensures :
    Ensures hold w g (previousCondition c) fun r g' =>
      n = r.1 ∧ ∃ b, g.setValue n (some (.bool b)) = g' := by
  refine (conditionalParent_ensures wf hc).bind ?_
  rintro _ _ ⟨rfl, rfl⟩
  refine .ask_bind (.observe_bind (.setValue_bind (.observe_bind ?_)))
  split
  · exact .pure ⟨rfl, _, rfl⟩
  · split
    · exact .pure ⟨rfl, _, rfl⟩
    · exact .ask_bind .fail

theorem answered_setValue (b : Bool) {g' : Forest} (hg' : g.Disturbed n (g.Within c) g') :
    g.Answered n c .normal (g'.setValue c (some (.bool b))) := by
  have hset : g'.Disturbed n (g'.Within c) (g'.setValue c (some (.bool b))) :=
    .setValue hg'.wellFormed b (.inr (.inl (.inl rfl)))
  refine ⟨rfl, hg'.trans hset fun k hk h => hg'.within_of wf hk h, b, ?_⟩
  rw [Forest.value_setValue (hg'.has (Forest.has_of_parent hc)), if_pos rfl]

theorem compared_ensures (test : Ordering → Bool) (engine : Engine) (event : String) :
    Ensures hold w g (compared test engine (.plain event c)) (g.Answered n c) := by
  refine (conditionalParent_ensures wf hc).bind ?_
  rintro _ _ ⟨rfl, rfl⟩
  exact .observe_bind (.ask_bind (.setValue_bind (.pure (answered_setValue wf hc _ (.refl wf)))))

theorem containing_ensures (wanted : Bool) (engine : Engine) (event : String) :
    Ensures hold w g (containing wanted engine (.plain event c)) (g.Answered n c) := by
  refine (conditionalParent_ensures wf hc).bind ?_
  rintro _ _ ⟨rfl, rfl⟩
  exact .observe_bind (.setValue_bind (.pure (answered_setValue wf hc _ (.refl wf))))

theorem not_ensures (hheld : n ∈ hold.held) (engine : Engine) (event : String) :
    Ensures hold w g (Keyword.not engine (.plain event c)) (g.Answered n c) := by
  refine .ask_bind ?_
  split
  · exact .of_error rfl
  refine (previousCondition_ensures wf hc).bind ?_
  rintro ⟨_, previous⟩ _ ⟨rfl, b, rfl⟩
  have hset : g.Disturbed n (g.Within c) (g.setValue n (some (.bool b))) := .setValue wf b (.inl rfl)
  refine (clearMarkers_ensures hset.wellFormed hheld).bind ?_
  rintro - g' ⟨hg', -, -⟩
  exact .ask_bind (.setValue_bind (.pure
    (answered_setValue wf hc _ (hset.trans hg' fun _ _ h => h.elim))))

variable {engine : Engine} (hjudges : Judges engine w) (hr : g.RaisesOperators c)

include hjudges hr

theorem operand_ensures (b : Bool) :
    Ensures hold w (g.setValue n (some (.bool b))) (evaluateCondition engine c) fun own g' =>
      g.Disturbed n (g.Within c) g' ∧ g'.value c = some (.bool own.value) := by
  have hset : g.Disturbed n (g.Within c) (g.setValue n (some (.bool b))) := .setValue wf b (.inl rfl)
  -- The node is not within its operand.
  have hsame : ∀ k, g.Within c k → (g.setValue n (some (.bool b))).cell k = g.cell k := by
    intro k hk
    refine Forest.cell_update_ne ?_
    rintro rfl
    exact wf.not_within_child hc hk
  refine (hjudges hold _ c hset.wellFormed (hset.has (Forest.has_of_parent hc)) (hr.congr wf hsame)).mono ?_
  intro own g' hg'
  have hc' : (g.setValue n (some (.bool b))).parent c = some n := Forest.parent_setValue.trans hc
  exact ⟨hset.trans (hg'.disturbed.nested hset.wellFormed hc') fun k hk => hset.within_of wf hk, hg'.value⟩

theorem and_ensures (event : String) :
    Ensures hold w g (Keyword.and engine (.plain event c)) (g.Answered n c) := by
  refine (previousCondition_ensures wf hc).bind ?_
  rintro ⟨_, previous⟩ _ ⟨rfl, b, rfl⟩
  have hset : g.Disturbed n (g.Within c) (g.setValue n (some (.bool b))) := .setValue wf b (.inl rfl)
  refine .ask_bind ?_
  dsimp only
  split
  · exact .setValue_bind (.pure (answered_setValue wf hc _ hset))
  refine .ask_bind ?_
  split
  · refine (Ensures.holding (operand_ensures wf hc hjudges hr b)).bind ?_
    rintro own g' ⟨hg', hvalue⟩
    exact .pure ⟨rfl, hg', _, hvalue⟩
  · exact .setValue_bind (.pure (answered_setValue wf hc _ hset))

theorem or_ensures (hheld : n ∈ hold.held) (hname : g.name c ≠ markerName) (event : String) :
    Ensures hold w g (Keyword.or engine (.plain event c)) (g.Answered n c) := by
  have hhas : g.Has c := Forest.has_of_parent hc
  -- With a marker set, the operand still has the value that it was given.
  have hmarked : ∀ {hold : Hold} {g' : Forest} {v b : Bool}, g.Disturbed n (g.Within c) g' →
      g'.value c = some (.bool v) → Ensures hold w g' (setMarker n b) fun _ => g.Answered n c .normal := by
    intro hold g' v b hg' hvalue
    refine (setMarker_ensures hg'.wellFormed (hg'.has (wf.has_parent hc)) b).mono ?_
    rintro - g'' ⟨hg'', hkept⟩
    refine ⟨rfl, hg'.trans hg'' fun _ _ h => h.elim, v, ?_⟩
    rw [hkept c (hg'.has hhas) (hg'.name_eq c hhas ▸ hname), hvalue]
  refine (previousCondition_ensures wf hc).bind ?_
  rintro ⟨_, previous⟩ _ ⟨rfl, b, rfl⟩
  have hset : g.Disturbed n (g.Within c) (g.setValue n (some (.bool b))) := .setValue wf b (.inl rfl)
  refine .ask_bind ?_
  dsimp only
  split
  · have hown := answered_setValue wf hc true hset
    obtain ⟨v, hvalue⟩ := hown.value
    exact .setValue_bind ((hmarked hown.disturbed hvalue).bind fun _ _ h => .pure h)
  · refine (Ensures.holding ((operand_ensures wf hc hjudges hr b).bind ?_)).bind fun _ _ h => .pure h
    rintro own g' ⟨hg', hvalue⟩
    split
    · exact hmarked hg' hvalue
    · refine (clearMarkers_ensures hg'.wellFormed (List.mem_cons_of_mem _ hheld)).mono ?_
      rintro - g'' ⟨hg'', hkept, -⟩
      exact ⟨rfl, hg'.trans hg'' fun _ _ h => h.elim, _, (hkept c).trans hvalue⟩

end Operators

/-! ## One operator -/

section Raised

variable {hold : Hold} {g : Forest} (wf : g.WellFormed) {n c : NodeId} (hc : g.parent c = some n)

include wf hc

theorem comparison_ensures {entry : String × Handler} (hentry : entry ∈ comparisons) (engine : Engine)
    (event : String) {w : World} :
    Ensures hold w g (entry.2 engine (.plain event c)) (g.Answered n c) := by
  have hall : comparisons.Forall fun entry =>
      Ensures hold w g (entry.2 engine (.plain event c)) (g.Answered n c) := by
    refine ⟨?_, ?_, ?_, ?_, ?_, ?_, ?_, ?_⟩
    iterate 6 exact compared_ensures wf hc _ engine event
    all_goals exact containing_ensures wf hc _ engine event
  exact List.forall_iff_forall_mem.mp hall entry hentry

variable (hname : g.name c ∈ operators)
  (hlogic : g.name c = "and" ∨ g.name c = "or" → g.RaisesOperators c) (hheld : n ∈ hold.held)

include hname hlogic hheld

theorem operator_ensures :
    ∃ handler : Handler, coreTable.handlersOf (g.name c) = [handler] ∧
      ∀ {engine : Engine} {w : World}, Judges engine w →
        Ensures hold w g (handler engine (.plain (g.name c) c)) (g.Answered n c) := by
  rcases List.mem_append.mp hname with hcompared | hlogical
  · obtain ⟨entry, hentry, hentryname⟩ := List.mem_map.mp hcompared
    exact ⟨entry.2, hentryname ▸ handlersOf_comparison hentry, fun _ =>
      comparison_ensures wf hc hentry _ _⟩
  · simp only [List.mem_cons, List.not_mem_nil, or_false] at hlogical
    rcases hlogical with hor | hand | hnot
    · refine ⟨Keyword.or, hor ▸ rfl, fun hjudges => ?_⟩
      exact or_ensures wf hc hjudges (hlogic (.inr hor)) hheld (hor ▸ by decide) _
    · exact ⟨Keyword.and, hand ▸ rfl, fun hjudges => and_ensures wf hc hjudges (hlogic (.inl hand)) _⟩
    · exact ⟨Keyword.not, hnot ▸ rfl, fun _ => not_ensures wf hc hheld _ _⟩

variable {m : Machine} (hm : m.IsCore) {w : World} (hw : PlainOperators w) {patience : Nat}
  (hjudges : ∀ p, patience = p + 1 → Judges (m.engine p (m.perform p)) w.deeper)

include hm hw hjudges

theorem runCondition_ensures :
    Ensures hold w g (runCondition (m.engine patience (m.perform patience)) n c) fun _ g' =>
      g.Disturbed n (g.Within c) g' := by
  have hheld' : n ∈ (hold.adding [c]).held := List.mem_cons_of_mem _ hheld
  have hevent : ∀ event ∈ operators, event ≠ catchAll := by decide
  obtain ⟨handler, hhandler, hanswered⟩ := operator_ensures wf hc hname hlogic hheld'
  have hraise : Ensures hold w g ((m.engine patience (m.perform patience)).raise (g.name c) c) fun _ =>
      g.Answered n c .normal := by
    refine Machine.raise_ensures hm hhandler (hevent _ hname) (hw _ (List.mem_cons_of_mem _ hname))
      fun p hp => (hanswered (hjudges p hp)).mono fun flow g' hg' => ?_
    obtain rfl := hg'.normal
    exact ⟨rfl, hg'⟩
  refine .ask_bind (hraise.bind fun _ g' hg' => ?_)
  obtain ⟨b, hb⟩ := hg'.value
  have hset : g'.Disturbed n (g.Within c) (g'.setValue n (some (.bool b))) :=
    .setValue hg'.disturbed.wellFormed b (.inl rfl)
  refine .ask_bind (.of_result rfl ?_)
  rw [hb]
  exact hg'.disturbed.trans hset fun _ _ h => h

end Raised

/-! ## All operators -/

section Conditions

variable {m : Machine} (hm : m.IsCore) {w : World} (hw : PlainOperators w) {f : Forest}
  (wf : f.WellFormed) {n : NodeId} {patience : Nat} {hold : Hold}

include hm hw wf

theorem operatorNames_ensures :
    Ensures hold w f (operatorNames (m.engine patience (m.perform patience))) fun names g =>
      operators = names ∧ f.Grown g ∧ g.WellFormed := by
  cases patience with
  | zero => exact .after rfl (.of_error rfl)
  | succ patience =>
    by_cases hdepth : w.session.depth < m.settings.maxDepth
    · obtain ⟨g, hresult, hgrown, hwf⟩ := operatorNames_grows hm hw hdepth wf patience hold
      exact .of_result hresult ⟨rfl, hgrown, hwf⟩
    · exact .after rfl (.of_error (result_bind_error (result_bind_error
        (result_entering_of_le (Nat.le_of_not_lt hdepth)))))

variable (hr : f.RaisesOperators n) (hheld : n ∈ hold.held)
  (hjudges : ∀ p, patience = p + 1 → Judges (m.engine p (m.perform p)) w.deeper)

include hr hheld hjudges

theorem runConditions_ensures {conditions : List NodeId} {offset : Nat}
    (hconditions : f.conditionsOf operators n = .ok (conditions, offset)) {g : Forest}
    (hg : f.Disturbed n (fun _ => False) g) :
    Ensures hold w g (forEach conditions (runCondition (m.engine patience (m.perform patience)) n))
      fun _ g' => f.Disturbed n (f.Above n) g' := by
  obtain ⟨hnames, hlogic⟩ := hr
  have hsublist := Forest.conditionsOf_sublist hconditions
  have hmarker : ∀ name ∈ operators, name ≠ markerName := by decide
  have hchild : ∀ c ∈ conditions, f.parent c = some n := fun c hc =>
    (wf.linked n c).mp (List.mem_filter.mp (hsublist.subset hc)).1
  have hnodup : conditions.Nodup := hsublist.nodup ((wf.nodup n).filter _)
  -- The invariant of the loop: only what is within the operators done so far has changed.
  refine (Ensures.forEach (fun rest g => ∃ done, conditions = done ++ rest ∧
    f.Disturbed n (fun k => ∃ d ∈ done, f.Within d k) g) ?_ ⟨[], rfl, ?_⟩).mono ?_
  · rintro c rest g ⟨done, rfl, hg⟩
    have hmem : c ∈ done ++ c :: rest := by simp
    have hparent := hchild c hmem
    have hhas := Forest.has_of_parent hparent
    have hname := hnames _ offset hconditions c hmem
    have hothers : ∀ d ∈ done, f.parent d = some n ∧ d ≠ c := by
      intro d hd
      refine ⟨hchild d (List.mem_append_left _ hd), ?_⟩
      exact (List.nodup_append.mp hnodup).2.2 d hd c List.mem_cons_self
    -- So the next operator is still as it was in `f`.
    have hsame := hg.cell_within wf hparent (hmarker _ hname) hothers
    have hparent' : g.parent c = some n := by
      rw [Forest.parent, hsame c (.inl rfl), ← Forest.parent, hparent]
    refine (runCondition_ensures hg.wellFormed hparent' ?_ ?_ hheld hm hw hjudges).mono ?_
    · rwa [hg.name_eq c hhas]
    · rw [hg.name_eq c hhas]
      exact fun hlogical => (hlogic _ offset hconditions c hmem hlogical).congr wf hsame
    · intro _ g' hg'
      refine ⟨done ++ [c], by simp, (hg.mono ?_).trans hg' ?_⟩
      · exact fun k _ hk => hk.imp fun d hd => ⟨List.mem_append_left _ hd.1, hd.2⟩
      · exact fun k hk hin => ⟨c, by simp, hg.within_of wf hk hin⟩
  · exact hg.mono fun _ _ h => h.elim
  · rintro - g' ⟨done, hdone, hg'⟩
    refine hg'.mono ?_
    rintro k - ⟨d, hd, hdk⟩
    have habove := Forest.above_of_parent (hchild d (by simp [hdone, hd]))
    rcases hdk with rfl | hdk
    · exact habove
    · exact habove.trans hdk

theorem testNode_ensures (hn : f.Has n) :
    Ensures hold w f (testNode (m.engine patience (m.perform patience)) n) fun condition g =>
      f.Disturbed n (f.Above n) g ∧ g.value n = some (.bool condition.value) ∧
        ∃ conditions, f.conditionsOf operators n = .ok (conditions, condition.offset) := by
  refine (operatorNames_ensures hm hw wf).bind ?_
  rintro _ g₀ ⟨rfl, hgrown, hwf⟩
  have hg₀ : f.Disturbed n (fun _ => False) g₀ := .grown wf hn hgrown hwf
  have hcongr := Forest.conditionsOf_congr (hgrown.cell_eq n hn)
    (fun c hc => hgrown.name_eq (wf.has_child hc)) operators
  refine .ask_bind (.ofExcept_bind ?_)
  rintro ⟨conditions, offset⟩ hconditions
  rw [hcongr] at hconditions
  refine (runConditions_ensures hm hw wf hr hheld hjudges hconditions hg₀).bind fun _ g hg => ?_
  refine .observe_bind (.setValue_bind (.pure ⟨?_, ?_, conditions, hconditions⟩))
  · exact hg.trans (.setValue hg.wellFormed _ (.inl rfl)) fun _ _ h => h
  · rw [Forest.value_setValue (hg.has hn), if_pos rfl]

end Conditions

/-! ## Tests -/

theorem evaluateCondition_ok {engine : Engine} {hold : Hold} {w w' : World} {n : NodeId}
    {condition : Condition} (h : (evaluateCondition engine n).result hold w = (.ok condition, w')) :
    ∃ w₁, (testNode engine n).result (hold.adding [n]) w = (.ok condition, w₁) ∧
      (clearMarkers n).result (hold.adding [n]) w₁ = (.ok (), w') := by
  rw [evaluateCondition, result_holding] at h
  obtain ⟨outcome, w₁, htest, hrest⟩ := attempt_bind_ok h
  obtain ⟨cleared, w₂, hclear, hresumed⟩ := attempt_bind_ok hrest
  obtain ⟨tested, rfl, hlast⟩ := resume_bind_ok hresumed
  obtain ⟨_, rfl, hend⟩ := resume_bind_ok hlast
  cases hend
  exact ⟨w₁, htest, hclear⟩

/-- What a test of a node that raises operators only leaves when it succeeds. -/
theorem judges {m : Machine} (hm : m.IsCore) {patience : Nat} {w : World} (hw : PlainOperators w) :
    Judges (m.engine patience (m.perform patience)) w := by
  -- Operands are tested with less patience.
  induction patience using Nat.strong_induction_on generalizing w with
  | _ patience ih =>
    intro hold f n wf hn hr
    have hheld : n ∈ (hold.adding [n]).held := List.mem_cons_self
    intro condition w' hresult
    obtain ⟨w₁, htest, hclear⟩ := evaluateCondition_ok hresult
    obtain ⟨g, rfl, hg, hvalue, hoffset⟩ := testNode_ensures hm hw wf hr hheld
      (fun p hp => ih p (by omega) hw.deeper) hn condition w₁ htest
    obtain ⟨g', rfl, hg', hkept, hnone⟩ := clearMarkers_ensures hg.wellFormed hheld () w' hclear
    exact ⟨g', rfl, hg.trans hg' fun _ _ h => h.elim, (hkept n).trans hvalue, hnone, hoffset⟩

end Keyword

end EventTree
