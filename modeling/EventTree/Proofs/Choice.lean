import EventTree.Proofs.Branch
import EventTree.Proofs.Condition.Equation

/-!
# Choices and chains

A `switch` says in one statement what a chain of branches says in many: each `if` and `else-if` asks
whether a value is equal to a constant. The choice finds its branch by position, and the chain by tests
that are raised one after the other.

Main statement: both come to the same branch, or both to none. The chain runs the body of that branch. The
choice runs it too, or, if it is empty, the first body behind it that is not.
-/

namespace EventTree

open EventTree.Action Keyword

/-! ## Choices -/

/-- A choice, its cases in order, and its default. -/
structure Choice where
  node : NodeId
  cases : List NodeId
  other : Option NodeId

namespace Choice

variable {D : Choice} {f : Forest}

/-- The cases and the default are children of the choice, data may stand among them, and what is to be
compared is constant. -/
structure Stands (D : Choice) (f : Forest) : Prop where
  cases : (f.children D.node).filter f.isCase = D.cases
  other : (f.children D.node).filter f.isDefault = D.other.toList
  statements : ∀ c ∈ f.statements D.node, f.isCase c = true ∨ f.isDefault c = true
  constant : ∀ n ∈ D.node :: D.cases, f.Constant n

/-- The branch that is chosen: the first case with the value of the choice, or else the default. -/
def chosen (D : Choice) (f : Forest) : Option NodeId := (D.cases.find? (f.equates D.node)).or D.other

/-- The first case or default with a body, from the chosen one on. -/
def running (D : Choice) (f : Forest) : Option NodeId :=
  (D.chosen f).bind fun c => ((f.children D.node).dropWhile (· ≠ c)).find? fun k =>
    (f.isCase k || f.isDefault k) && !(f.children k).isEmpty

theorem dropWhile_not (p : NodeId → Bool) (l : List NodeId) :
    l.dropWhile (fun a => !p a) = (l.find? p).elim [] fun c => l.dropWhile (· ≠ c) := by
  induction l with
  | nil => rfl
  | cons a l ih =>
    cases ha : p a with
    | true => simp [ha]
    | false =>
      rw [List.dropWhile_cons_of_pos (by simp [ha]), List.find?_cons_of_neg (by simp [ha]), ih]
      cases hfind : l.find? p with
      | none => rfl
      | some c =>
        have hne : a ≠ c := by
          rintro rfl
          rw [List.find?_some hfind] at ha
          cases ha
        simp [hne]

theorem exists_dropWhile_ne {c : NodeId} {l : List NodeId} (h : c ∈ l) :
    ∃ r, l.dropWhile (· ≠ c) = c :: r := by
  obtain ⟨before, r, rfl, hbefore⟩ := List.eq_append_cons_of_mem h
  refine ⟨r, ?_⟩
  rw [List.dropWhile_append_of_pos fun a ha => decide_eq_true (ne_of_mem_of_not_mem ha hbefore)]
  simp

namespace Stands

variable (hd : D.Stands f)

include hd

theorem caseMatches_eq {c : NodeId} (hc : c ∈ f.children D.node) :
    f.caseMatches D.node c = (f.isCase c && f.equates D.node c) := by
  rw [Forest.caseMatches]
  cases hcase : f.isCase c with
  | false => rfl
  | true =>
    have hmem : c ∈ D.cases := hd.cases ▸ List.mem_filter.mpr ⟨hc, hcase⟩
    rw [(hd.constant D.node List.mem_cons_self).singleValue_eq,
      (hd.constant c (List.mem_cons_of_mem _ hmem)).singleValue_eq, Forest.equates]
    cases f.compareValues (f.value D.node) (f.value c) <;> rfl

theorem find?_caseMatches :
    (f.children D.node).find? (f.caseMatches D.node) = D.cases.find? (f.equates D.node) := by
  rw [← hd.cases, List.find?_filter, List.find?_congr fun c hc => hd.caseMatches_eq hc]
  simp

theorem find?_isDefault : (f.children D.node).find? f.isDefault = D.other := by
  rw [← List.head?_filter, hd.other]
  cases D.other <;> rfl

theorem mem_of_chosen {c : NodeId} (hc : D.chosen f = some c) :
    c ∈ f.children D.node ∧ (f.isCase c || f.isDefault c) = true := by
  rw [chosen, Option.or_eq_some_iff] at hc
  rcases hc with hfind | ⟨-, hother⟩
  · obtain ⟨hmem, hcase⟩ := List.mem_filter.mp (hd.cases ▸ List.mem_of_find?_eq_some hfind)
    exact ⟨hmem, by simp [hcase]⟩
  · have hmem : c ∈ (f.children D.node).filter f.isDefault := by simp [hd.other, hother]
    obtain ⟨hmem, hdefault⟩ := List.mem_filter.mp hmem
    exact ⟨hmem, by simp [hdefault]⟩

theorem chosenOn_eq :
    f.chosenOn D.node = (D.chosen f).elim [] fun c => (f.children D.node).dropWhile (· ≠ c) := by
  rw [Forest.chosenOn, dropWhile_not, hd.find?_caseMatches, dropWhile_not, hd.find?_isDefault]
  cases hfind : D.cases.find? (f.equates D.node) with
  | none => simp [chosen, hfind]
  | some c =>
    have hc : D.chosen f = some c := by simp [chosen, hfind]
    obtain ⟨r, hdrop⟩ := exists_dropWhile_ne (hd.mem_of_chosen hc).1
    rw [hc, Option.elim_some, hdrop]

theorem chosenBody?_eq : f.chosenBody? D.node = D.running f := by
  rw [Forest.chosenBody?, hd.chosenOn_eq, running]
  cases D.chosen f <;> rfl

theorem choiceFault?_eq : f.choiceFault? D.node = none := by
  have hstray : (f.children D.node).find? (fun c => !f.isCase c && !f.isDefault c && f.isStatement c) =
      none := by
    rw [List.find?_eq_none]
    intro c hc hstray
    simp only [Bool.and_eq_true, Bool.not_eq_true'] at hstray
    obtain ⟨⟨hcase, hdefault⟩, hstatement⟩ := hstray
    rcases hd.statements c (List.mem_filter.mpr ⟨hc, hstatement⟩) with h | h
    · rw [hcase] at h
      cases h
    · rw [hdefault] at h
      cases h
  have hone : ¬ 1 < (f.children D.node).countP f.isDefault := by
    rw [List.countP_eq_length_filter, hd.other]
    cases D.other <;> simp
  rw [Forest.choiceFault?, hstray]
  dsimp only
  rw [if_neg hone]

theorem running_of_chosen {c : NodeId} (hc : D.chosen f = some c) (hbody : f.children c ≠ []) :
    D.running f = some c := by
  obtain ⟨hmem, hbranch⟩ := hd.mem_of_chosen hc
  obtain ⟨r, hdrop⟩ := exists_dropWhile_ne hmem
  rw [running, hc, Option.bind_some, hdrop, List.find?_cons_of_pos]
  simp [hbranch, hbody]

end Stands

/-- What running its body comes to. Where there is none, nothing happens. -/
def result (D : Choice) (engine : Engine) (hold : Hold) (w : World) : Except Stop Flow × World :=
  (D.running (w.forest.seen hold)).elim (.ok .normal, w) fun c =>
    (execute engine c 0).result (hold.adding (Value.nodes [w.forest.value D.node])) w

section Raising

variable {hold : Hold} {w : World} (wf : w.forest.WellFormed)

include wf

theorem Stands.result_switch (hheld : D.node ∈ hold.held) (hd : D.Stands (w.forest.seen hold))
    (engine : Engine) : (switch engine (.plain "switch" D.node)).result hold w = D.result engine hold w := by
  have hpruned := Forest.seen_pruned wf hold
  have hnamed : ∀ a, (w.forest.seen hold).hasName a = w.forest.hasName a := fun a =>
    funext fun c => by rw [Forest.hasName, hpruned.name_eq, Forest.hasName]
  have hcase : (w.forest.seen hold).isCase = w.forest.isCase := hnamed "case"
  have hdefault : (w.forest.seen hold).isDefault = w.forest.isDefault := hnamed "default"
  have hfault : w.forest.choiceFault? D.node = none := by
    rw [← hd.choiceFault?_eq]
    simp only [Forest.choiceFault?, hcase, hdefault, Forest.isStatement_seen wf, wf.children_seen hheld,
      hpruned.name_eq]
  have hvalue : (w.forest.seen hold).singleValue D.node = w.forest.value D.node :=
    (hd.constant D.node List.mem_cons_self).singleValue_eq.trans (hpruned.value_eq D.node)
  rw [result]
  cases hrunning : D.running (w.forest.seen hold) with
  | some c => rw [EventTree.result_switch hfault (hd.chosenBody?_eq.trans hrunning), hvalue, Option.elim_some]
  | none =>
    rw [switch, result_bind_ok (result_ask _)]
    dsimp only [Call.plain]
    rw [hfault, result_bind_ok result_failIf_none, result_bind_ok (result_observe _),
      result_bind_ok (result_observe _), hd.chosenBody?_eq, hrunning]
    rfl

theorem Stands.raise_switch {m : Machine} (hm : m.IsCore) {patience : Nat} (hplain : w.Plain "switch")
    (hdepth : w.session.depth < m.settings.maxDepth)
    (hd : D.Stands (w.forest.seen (hold.adding [D.node])))
    (hafter : ∀ u, D.result (m.engine patience (m.perform patience)) (hold.adding [D.node]) w.deeper =
      (.ok .normal, u) → u.Plain "switch") :
    ((m.engine (patience + 1) (m.perform (patience + 1))).raiseFlow "switch" D.node).result hold w =
      leaving "switch"
        (D.result (m.engine patience (m.perform patience)) (hold.adding [D.node]) w.deeper) := by
  have hkeywords : (m.keywords patience "switch" D.node).result (hold.adding [D.node]) w.deeper =
      D.result (m.engine patience (m.perform patience)) (hold.adding [D.node]) w.deeper := by
    have hhandlers : coreTable.handlersOf "switch" = [switch] := rfl
    rw [Machine.keywords, hhandlers, result_inTurn_singleton]
    exact Stands.result_switch (w := w.deeper) wf List.mem_cons_self hd _
  rw [Machine.result_raiseFlow hm (by decide) hplain hdepth, hkeywords]
  exact fun u hu => hafter u (hkeywords ▸ hu)

end Raising

end Choice

/-! ## Chains of equations -/

namespace Chain

/-- What belongs to the branches with a condition. -/
def Spans (C : Chain) (f : Forest) (k : NodeId) : Prop := ∃ d ∈ C.tests, f.Within d k

/-- The condition of `n` is an equation, and this is its outcome. -/
def Decides (C : Chain) (f : Forest) (n : NodeId) (outcome : Bool) : Prop :=
  ∃ x, f.Equation (C.Spans f) n x ∧ f.equates n x = outcome

/-- Where the body of a branch begins. -/
def opening (C : Chain) (f : Forest) (n : NodeId) : Nat := if C.last = some n then 0 else (f.lead n).length

/-- What the sequence around a chain comes to from a position on. -/
def sequel (C : Chain) (m : Machine) (patience : Nat) (hold : Hold) (fuel position : Nat) (w : World) :
    Except Stop Flow × World :=
  (executeFrom (m.engine (patience + 1) (m.perform (patience + 1))) C.scope fuel position).result hold w

/-- The sequence that comes to the chain runs the body of `n`. -/
structure Runs (C : Chain) (m : Machine) (patience : Nat) (hold : Hold) (w : World) (before : List NodeId)
    (n : NodeId) (position : Nat) (u : World) : Prop where
  /-- A body that does not end normally ends the sequence. -/
  interrupted : ∀ outcome u', outcome ≠ .ok .normal →
    (execute (m.engine patience (m.perform patience)) n position).result (hold.adding [n]) u =
      (outcome, u') →
    ∀ fuel, C.sequel m patience hold (C.nodes.length + fuel) before.length w =
      leaving (w.forest.name n) (outcome, u')
  /-- After a body that ends normally and leaves the chain as it was, the sequence goes on behind the
  chain. -/
  passed : ∀ u' before' after',
    (execute (m.engine patience (m.perform patience)) n position).result (hold.adding [n]) u =
      (.ok .normal, u') → C.Kept u u' → C.Stands before' after' u'.forest →
    ∀ fuel, C.sequel m patience hold (C.nodes.length + fuel) before.length w =
      C.sequel m patience hold fuel (before'.length + C.nodes.length) u'.shallower

/-- The branch that a chain comes to is `taken`, or there is none and the sequence goes on behind the
chain. -/
def Takes (C : Chain) (m : Machine) (patience : Nat) (hold : Hold) (w : World) (before : List NodeId)
    (taken : Option NodeId) : Prop :=
  (∀ n, taken = some n → ∃ tested u,
    C.Started (m.engine patience (m.perform patience)) hold w tested n (C.opening w.forest n) u ∧
    u.forest.children n = w.forest.children n ∧
    C.Runs m patience hold w before n (C.opening w.forest n) u) ∧
  (taken = none → ∃ u, C.Reached (m.engine patience (m.perform patience)) hold w C.tests u ∧
    ∀ fuel, C.sequel m patience hold (C.nodes.length + fuel) before.length w =
      C.sequel m patience hold fuel (before.length + C.nodes.length) u)

theorem exists_of_forall₂ {R : NodeId → NodeId → Prop} {l l' : List NodeId} (h : List.Forall₂ R l l') :
    ∀ b ∈ l', ∃ a, R a b := by
  induction h with
  | nil => simp
  | cons hab _ ih => exact List.forall_mem_cons.mpr ⟨⟨_, hab⟩, ih⟩

section Interrupted

theorem crossing_ne_normal {outcome : Except Stop Flow} (h : outcome ≠ .ok .normal) (event : String) :
    crossing event outcome ≠ .ok .normal := by
  cases outcome with
  | ok flow => exact h
  | error stop => cases stop <;> simp [crossing]

theorem executeFrom_interrupted {C : Chain} {m : Machine} (hm : m.IsCore) {patience : Nat} {hold : Hold}
    {w u : World} {n : NodeId} (fuel : Nat) {handler : Handler} {event : String} (hevent : event ∈ keywords)
    (hhandler : coreTable.handlersOf event = [handler]) (hplain : w.Plain event)
    (hdepth : w.session.depth < m.settings.maxDepth) {l r : List NodeId}
    (hsplit : w.forest.children C.scope = l ++ n :: r) (hname : w.forest.name n = event)
    {outcome : Except Stop Flow} (hnormal : outcome ≠ .ok .normal)
    (hr : (handler (m.engine patience (m.perform patience)) (.plain event n)).result (hold.adding [n])
      w.deeper = (outcome, u)) :
    (executeFrom (m.engine (patience + 1) (m.perform (patience + 1))) C.scope (fuel + 1) l.length).result
        hold w = leaving event (outcome, u) := by
  have hall : ∀ event ∈ keywords, isDataName event = false ∧ event ≠ catchAll := by decide
  obtain ⟨hdata, hcatch⟩ := hall event hevent
  have hkeywords : (m.keywords patience event n).result (hold.adding [n]) w.deeper = (outcome, u) := by
    rw [Machine.keywords, hhandler, result_inTurn_singleton, hr]
  have hraise : ((m.engine (patience + 1) (m.perform (patience + 1))).raiseFlow event n).result hold w =
      leaving event (outcome, u) := by
    rw [Machine.result_raiseFlow hm hcatch hplain hdepth, hkeywords]
    intro w' hw'
    cases hkeywords.symm.trans hw'
    exact absurd rfl hnormal
  have hended : (((m.engine (patience + 1) (m.perform (patience + 1))).raiseFlow event n).result hold w).1 ≠
      .ok .normal := by
    rw [hraise]
    exact crossing_ne_normal hnormal event
  rw [executeFrom_of_not_normal fuel hsplit hname hdata hended, hraise]

end Interrupted

section Taking

variable {C : Chain} {m : Machine} (hm : m.IsCore) {patience : Nat} {hold : Hold}
  (hscope : C.scope ∈ hold.held) {w u : World} (hw : w.Direct) (hsound : w.Sound)
  {before after done rest : List NodeId} (hs : C.Stands before after w.forest)

section Sequel

variable (htidy : C.Tidy w.forest) (hdepth : w.session.depth < m.settings.maxDepth)

include hm hscope hw hsound hs htidy hdepth

theorem Reached.sequel_eq (h : C.Reached (m.engine patience (m.perform patience)) hold w done u)
    (fuel : Nat) : C.sequel m patience hold (done.length + fuel) before.length w =
      C.sequel m patience hold fuel (before ++ done).length u := by
  induction h generalizing fuel with
  | start => simp
  | @refused done rest n offset u u₁ hreached htests hr ih =>
    have hfuel : (done ++ [n]).length + fuel = done.length + (fuel + 1) := by
      rw [List.length_append, List.length_singleton]
      omega
    rw [hfuel, ih]
    exact executeFrom_refused hm hscope hw hsound hs htidy hdepth hreached htests hr fuel

theorem runs_of_taken {n : NodeId} {offset : Nat} {u₁ : World}
    (hreached : C.Reached (m.engine patience (m.perform patience)) hold w done u)
    (htests : C.tests = done ++ n :: rest)
    (hr : (evaluateCondition (m.engine patience (m.perform patience)) n).result (hold.adding [n]) u.deeper =
      (.ok ⟨true, offset⟩, u₁)) : C.Runs m patience hold w before n offset u₁ := by
  have wf := hsound.wellFormed
  have hu := hreached.undecided hm hw wf hs htidy
  have hfuel : ∀ fuel, C.nodes.length + fuel =
      done.length + ((n :: rest).length + C.last.toList.length + fuel) := by
    intro fuel
    rw [nodes, htests, List.length_append, List.length_append]
    omega
  refine ⟨fun outcome u' hnormal hbody fuel => ?_, fun u' before' after' hbody hkept hs' fuel => ?_⟩
  · have hstands : C.Stands before after u.forest := hu.stands wf hs htests
    have hdeeper : C.Stands before after u.deeper.forest := hstands
    have hheld : C.scope ∈ (hold.adding [n]).held := List.mem_cons_of_mem _ hscope
    obtain ⟨event, hevent, handler, hname, hhandler, hresult⟩ :=
      hdeeper.result_test hu.confined.wellFormed hheld htests hu.refused
    have hsame : w.forest.name n = event := by
      have hhas := Forest.has_of_parent (hs.parent_test wf (by simp [htests] : n ∈ C.tests))
      rw [← hu.confined.name_eq n hhas, ← hname]
      rfl
    have hlength : (n :: rest).length + C.last.toList.length + fuel =
        (rest.length + C.last.toList.length + fuel) + 1 := by
      rw [List.length_cons]
      omega
    rw [hfuel, hreached.sequel_eq hm hscope hw hsound hs htidy hdepth, hlength, hsame]
    exact executeFrom_interrupted hm _ hevent hhandler (hu.plain (hw.keywords event hevent))
      (hu.session ▸ hdepth) (hstands.split_test htests) hname hnormal
      ((hresult _).trans ((result_branch hr).trans hbody))
  · -- A body that ends normally leaves the rest of the chain to be passed over.
    rw [hfuel, hreached.sequel_eq hm hscope hw hsound hs htidy hdepth]
    exact executeFrom_taken hm hscope hw hsound hs htidy hdepth hreached htests hr (.of_result hbody) hkept
      hs' fuel

theorem runs_of_refused {l : NodeId}
    (hreached : C.Reached (m.engine patience (m.perform patience)) hold w C.tests u)
    (hl : C.last = some l) : C.Runs m patience hold w before l 0 u.deeper := by
  have wf := hsound.wellFormed
  have hu := hreached.undecided hm hw wf hs htidy
  have hfuel : ∀ fuel, C.nodes.length + fuel = C.tests.length + (fuel + 1) := by
    intro fuel
    rw [nodes, hl, Option.toList_some, List.length_append, List.length_singleton]
    omega
  refine ⟨fun outcome u' hnormal hbody fuel => ?_, fun u' before' after' hbody hkept hs' fuel => ?_⟩
  · have hstands : C.Stands before after u.forest := hu.stands wf hs (List.append_nil _).symm
    have hsplit := hstands.split_last hl
    obtain ⟨hname, hvalue⟩ := hstands.last l hl
    have hheld : C.scope ∈ (hold.adding [l]).held := List.mem_cons_of_mem _ hscope
    have hchain := hstands.chainTaken_of_refused hu.confined.wellFormed hheld (List.append_nil _).symm
      (List.cons_ne_nil _ _) hsplit hu.refused
    have hkeyword : "else" ∈ keywords := by simp [keywords]
    rw [hfuel, hreached.sequel_eq hm hscope hw hsound hs htidy hdepth, (hs.last l hl).1]
    exact executeFrom_interrupted hm fuel hkeyword rfl (hu.plain (hw.keywords _ hkeyword))
      (hu.session ▸ hdepth) hsplit hname hnormal ((result_elseBranch (w := u.deeper) hvalue hchain).trans hbody)
  · rw [hfuel, hreached.sequel_eq hm hscope hw hsound hs htidy hdepth]
    exact executeFrom_last hm hscope hw hsound hs htidy hdepth hreached hl (.of_result hbody) hkept hs' fuel

end Sequel

theorem tidy_of_decides {f : Forest} (h : ∀ n ∈ C.tests, ∃ outcome, C.Decides f n outcome) : C.Tidy f := by
  intro n hn
  obtain ⟨_, x, hx, -⟩ := h n hn
  exact ⟨hx.raisesOperators, hx.unmarked⟩

variable (hdepth : w.session.depth + 1 < m.settings.maxDepth)

include hm hw hsound hs hdepth

variable (patience hold) in
theorem Undecided.result_equation {n : NodeId} {outcome : Bool} (hu : Undecided w done u)
    (htests : C.tests = done ++ n :: rest) (hn : C.Decides w.forest n outcome) :
    ∃ u₁, (evaluateCondition (m.engine (patience + 1) (m.perform (patience + 1))) n).result
        (hold.adding [n]) u.deeper = (.ok ⟨outcome, (w.forest.lead n).length⟩, u₁) := by
  have wf := hsound.wellFormed
  obtain ⟨x, hx, rfl⟩ := hn
  have hsame := hu.cell_within wf hs htests
  -- What the equation reads outside the chain has not been touched by the tests before.
  have hcells : ∀ k, w.forest.Has k → ¬ C.Spans w.forest k → u.forest.cell k = w.forest.cell k := by
    intro k hk hout
    refine hu.confined.cell_eq k hk ?_
    rintro ⟨d, hd, hwithin⟩
    exact hout ⟨d, htests ▸ List.mem_append_left _ hd, hwithin⟩
  have hname : u.forest.name n ≠ "" := by
    rw [(hu.stands wf hs htests).name_test htests]
    split <;> decide
  obtain ⟨g, hg⟩ := (hx.unchanged wf hsame hcells).result_evaluateCondition hu.confined.wellFormed hname hm
    hw.operators.deeper hdepth patience (hold.adding [n])
  rw [hx.equates_same wf hsame hcells hu.confined.size_le, (hx.lead_same wf hsame).2] at hg
  refine ⟨w.deeper.on g, ?_⟩
  rw [hu.world]
  exact hg

variable {p : NodeId → Bool} {cs : List NodeId}

theorem Reached.decided
    (hdecided : ∀ n ∈ C.tests, ∃ outcome, C.Decides w.forest n outcome)
    (hreached : C.Reached (m.engine (patience + 1) (m.perform (patience + 1))) hold w done u)
    (htests : C.tests = done ++ rest)
    (hall : List.Forall₂ (fun c t => C.Decides w.forest t (p c)) cs rest) :
    (cs.find? p = none ∧
      ∃ u', C.Reached (m.engine (patience + 1) (m.perform (patience + 1))) hold w C.tests u') ∨
    ∃ c t done' rest' u' u₁, cs.find? p = some c ∧ (c, t) ∈ cs.zip rest ∧
      C.Reached (m.engine (patience + 1) (m.perform (patience + 1))) hold w done' u' ∧
      C.tests = done' ++ t :: rest' ∧
      (evaluateCondition (m.engine (patience + 1) (m.perform (patience + 1))) t).result (hold.adding [t])
        u'.deeper = (.ok ⟨true, (w.forest.lead t).length⟩, u₁) := by
  induction hall generalizing done u with
  | nil =>
    rw [List.append_nil] at htests
    exact .inl ⟨rfl, u, htests ▸ hreached⟩
  | @cons c t cs rest hdecides _ ih =>
    have hu := hreached.undecided hm hw hsound.wellFormed hs (tidy_of_decides hdecided)
    obtain ⟨u₁, hr⟩ := hu.result_equation hm patience hold hw hsound hs hdepth htests hdecides
    cases hp : p c with
    | true =>
      rw [hp] at hr
      exact .inr ⟨c, t, done, rest, u, u₁, by simp [hp], by simp, hreached, htests, hr⟩
    | false =>
      rw [hp] at hr
      have htests' : C.tests = (done ++ [t]) ++ rest := by rw [htests, List.append_cons]
      rw [List.find?_cons_of_neg (by simp [hp])]
      rcases ih (.refused hreached htests hr) htests' with h | ⟨c', t', done', rest', u', u₁', hc, hmem, h⟩
      · exact .inl h
      · exact .inr ⟨c', t', done', rest', u', u₁', hc, by simp [hmem], h⟩

include hscope

/-- Of a chain of equations the first branch whose equation holds is taken, or else the last. -/
theorem takes_of_decided (hall : List.Forall₂ (fun c t => C.Decides w.forest t (p c)) cs C.tests) :
    cs.find? p = none ∧ C.Takes m (patience + 1) hold w before C.last ∨
    ∃ c t, cs.find? p = some c ∧ (c, t) ∈ cs.zip C.tests ∧
      C.Takes m (patience + 1) hold w before (some t) := by
  have wf := hsound.wellFormed
  have hdecided : ∀ n ∈ C.tests, ∃ outcome, C.Decides w.forest n outcome := fun n hn =>
    (exists_of_forall₂ hall n hn).elim fun c h => ⟨p c, h⟩
  have htidy := tidy_of_decides hdecided
  have hless : w.session.depth < m.settings.maxDepth := by omega
  have hstart : C.Reached (m.engine (patience + 1) (m.perform (patience + 1))) hold w [] w := .start
  rcases hstart.decided hm hw hsound hs hdepth hdecided (List.nil_append _).symm hall with
    ⟨hnone, u, hreached⟩ | ⟨c, t, done, rest, u, u₁, hc, hmem, hreached, htests, hr⟩
  · refine .inl ⟨hnone, fun l hl => ?_, fun hl => ⟨u, hreached, fun fuel => ?_⟩⟩
    · have hopening : C.opening w.forest l = 0 := if_pos hl
      have hstarted := Started.last hreached hl
      rw [hopening]
      exact ⟨C.tests, u.deeper, hstarted, (hstarted.body hm hw wf hs htidy).1,
        runs_of_refused hm hscope hw hsound hs htidy hless hreached hl⟩
    · have hnodes : C.nodes.length = C.tests.length := by simp [nodes, hl]
      rw [hnodes, hreached.sequel_eq hm hscope hw hsound hs htidy hless, List.length_append]
  · refine .inr ⟨c, t, hc, hmem, fun n hn => ?_, fun hn => by cases hn⟩
    obtain rfl := Option.some.inj hn
    have hopening : C.opening w.forest t = (w.forest.lead t).length :=
      if_neg fun hl => hs.not_mem_tests wf hl (by simp [htests])
    have hstarted := Started.taken hreached htests hr
    rw [hopening]
    exact ⟨done ++ [t], u₁, hstarted, (hstarted.body hm hw wf hs htidy).1,
      runs_of_taken hm hscope hw hsound hs htidy hless hreached htests hr⟩

end Taking

end Chain

/-! ## Agreement -/

namespace Choice

/-- A chain asks what a choice asks: whether the value of the choice is that of its first case, of its
second, and so on. -/
structure Mirrors (D : Choice) (f : Forest) (C : Chain) (g : Forest) : Prop where
  cases : List.Forall₂ (fun c t => ∃ x, g.Equation (C.Spans g) t x ∧ g.shown t = f.shown D.node ∧
    g.shown x = f.shown c) D.cases C.tests
  other : D.other.isSome = C.last.isSome

/-- Branches with the same place among the cases and the tests, or the default and the `else`. -/
def Counterpart (D : Choice) (C : Chain) (c t : NodeId) : Prop :=
  (c, t) ∈ D.cases.zip C.tests ∨ D.other = some c ∧ C.last = some t

theorem Mirrors.decides {D : Choice} {C : Chain} {f g : Forest} (h : D.Mirrors f C g) :
    List.Forall₂ (fun c t => C.Decides g t (f.equates D.node c)) D.cases C.tests := by
  refine h.cases.imp fun c t hct => ?_
  obtain ⟨x, hx, hvalue, hcase⟩ := hct
  exact ⟨x, hx, Forest.equates_congr hvalue hcase⟩

theorem Mirrors.rel_last {D : Choice} {C : Chain} {f g : Forest} (h : D.Mirrors f C g) :
    Option.Rel (D.Counterpart C) D.other C.last := by
  have hother := h.other
  cases hc : D.other with
  | none =>
    rw [hc, Option.isSome_none, eq_comm, Option.isSome_eq_false_iff, Option.isNone_iff_eq_none] at hother
    rw [hother]
    exact .none
  | some c =>
    rw [hc, Option.isSome_some, eq_comm] at hother
    obtain ⟨t, ht⟩ := Option.isSome_iff_exists.mp hother
    rw [ht]
    exact .some (.inr ⟨hc, ht⟩)

end Choice

/-- A choice and a chain that asks the same come to branches that correspond, or both to none. The chain runs
the body of its branch from the place on where it begins. The choice runs the body of its branch, or, if it
is empty, the first one behind it that is not, if there is one. -/
theorem choice_agrees_with_chain (m : Machine) (hm : m.IsCore) (patience : Nat) (D : Choice) (C : Chain)
    (hold₁ hold₂ : Hold) (w₁ w₂ : World) (before after : List NodeId) (wf : w₁.forest.WellFormed)
    (hplain : w₁.Plain "switch") (hdepth₁ : w₁.session.depth < m.settings.maxDepth)
    (hd : D.Stands (w₁.forest.seen (hold₁.adding [D.node]))) (hscope : C.scope ∈ hold₂.held)
    (hw : w₂.Direct) (hsound : w₂.Sound) (hc : C.Stands before after w₂.forest)
    (hdepth₂ : w₂.session.depth + 1 < m.settings.maxDepth)
    (hmirrors : D.Mirrors (w₁.forest.seen (hold₁.adding [D.node])) C w₂.forest) :
    (∃ taken, Option.Rel (D.Counterpart C) (D.chosen (w₁.forest.seen (hold₁.adding [D.node]))) taken ∧
      C.Takes m (patience + 1) hold₂ w₂ before taken) ∧
    (∀ c, D.chosen (w₁.forest.seen (hold₁.adding [D.node])) = some c →
      (w₁.forest.seen (hold₁.adding [D.node])).children c ≠ [] →
        D.running (w₁.forest.seen (hold₁.adding [D.node])) = some c) ∧
    ((∀ u, D.result (m.engine patience (m.perform patience)) (hold₁.adding [D.node]) w₁.deeper =
        (.ok .normal, u) → u.Plain "switch") →
      ((m.engine (patience + 1) (m.perform (patience + 1))).raiseFlow "switch" D.node).result hold₁ w₁ =
        leaving "switch"
          (D.result (m.engine patience (m.perform patience)) (hold₁.adding [D.node]) w₁.deeper)) := by
  refine ⟨?_, fun c hchosen hbody => hd.running_of_chosen hchosen hbody,
    fun hafter => Choice.Stands.raise_switch wf hm hplain hdepth₁ hd hafter⟩
  rcases Chain.takes_of_decided hm hscope hw hsound hc hdepth₂ hmirrors.decides with
    ⟨hnone, htakes⟩ | ⟨c, t, hfind, hmem, htakes⟩
  · refine ⟨C.last, ?_, htakes⟩
    rw [Choice.chosen, hnone, Option.none_or]
    exact hmirrors.rel_last
  · refine ⟨some t, ?_, htakes⟩
    rw [Choice.chosen, hfind, Option.some_or]
    exact .some (.inl hmem)

/-! ## A choice and its chain -/

/-- A number among constants of several types. The default stands in the middle. -/
def crossroads : Tree Selector :=
  ⟨"switch", some (.int 1),
    [⟨"_note", none, []⟩, ⟨"case", some (.string "1"), [⟨"throw", some (.string "text"), []⟩]⟩,
      ⟨"default", none, [⟨"throw", some (.string "other"), []⟩]⟩,
      ⟨"case", some (.float ⟨0x3ff0000000000000⟩), [⟨"break", none, []⟩]⟩, ⟨"case", some (.int 1), []⟩]⟩

/-- The same questions, asked one after the other. -/
def signposts : Tree Selector :=
  ⟨"root", none,
    [⟨"if", some (.int 1), [⟨"=", some (.string "1"), []⟩, ⟨"throw", some (.string "text"), []⟩]⟩,
      ⟨"else-if", some (.int 1),
        [⟨"_note", none, []⟩, ⟨"=", some (.float ⟨0x3ff0000000000000⟩), []⟩, ⟨"break", none, []⟩]⟩,
      ⟨"else-if", some (.int 1), [⟨"=", some (.int 1), []⟩]⟩,
      ⟨"else", none, [⟨"throw", some (.string "other"), []⟩]⟩]⟩

namespace Crossroads

def choice : Choice := ⟨⟨0⟩, [⟨2⟩, ⟨6⟩, ⟨8⟩], some ⟨4⟩⟩

def chain : Chain := ⟨⟨0⟩, ⟨1⟩, [⟨4⟩, ⟨8⟩], some ⟨10⟩⟩

def choosing : World := ⟨(Forest.plant crossroads .empty).2, default, default⟩

def asking : World := ⟨(Forest.plant signposts .empty).2, default, default⟩

def machine : Machine := ⟨.default, coreTable⟩

def hold : Hold := .ofCall ⟨0⟩ ⟨0⟩

/-- What is left of the forest while the choice is made. -/
def left : Forest := choosing.forest.seen (hold.adding [choice.node])

/-- A case, the branch for it, and the operator there. -/
def places : List (NodeId × NodeId × NodeId) := [(⟨2⟩, ⟨1⟩, ⟨2⟩), (⟨6⟩, ⟨4⟩, ⟨6⟩), (⟨8⟩, ⟨8⟩, ⟨9⟩)]

-- What is left of a forest takes long to look at, so all that is read off it is decided at once.
theorem facts :
    ((left.children ⟨0⟩).filter left.isCase = choice.cases ∧
      (left.children ⟨0⟩).filter left.isDefault = choice.other.toList ∧
      (∀ c ∈ left.statements ⟨0⟩, left.isCase c = true ∨ left.isDefault c = true) ∧
      ∀ n ∈ ⟨0⟩ :: choice.cases, left.Constant n) ∧
    (∀ e ∈ places, asking.forest.value e.2.1 = left.value ⟨0⟩ ∧ asking.forest.value e.2.2 = left.value e.1) ∧
    choice.chosen left = some ⟨6⟩ ∧ left.children ⟨6⟩ ≠ [] ∧
    (choice.result (machine.engine 3 (machine.perform 3)) (hold.adding [choice.node])
      choosing.deeper).1 = .ok .breaking := by
  decide +kernel

theorem choice_stands : choice.Stands left :=
  ⟨facts.1.1, facts.1.2.1, facts.1.2.2.1, facts.1.2.2.2⟩

theorem chain_stands : chain.Stands [] [] asking.forest := by
  refine ⟨by decide, by decide, by decide, ?_⟩
  rintro n ⟨⟩
  decide

theorem equation {c n x : NodeId} (h : (c, n, x) ∈ places) :
    asking.forest.Equation (chain.Spans asking.forest) n x ∧ asking.forest.shown n = left.shown ⟨0⟩ ∧
      asking.forest.shown x = left.shown c := by
  have hall : ∀ e ∈ places, asking.forest.Constant e.2.1 ∧
      (asking.forest.lead e.2.1).filter asking.forest.isStatement = [e.2.2] ∧
      asking.forest.name e.2.2 = "=" ∧ asking.forest.Constant e.2.2 ∧
      (∀ k ∈ asking.forest.children e.2.1, asking.forest.name k ≠ markerName) ∧
      Value.nodes [asking.forest.value e.2.1] = [] ∧ Value.nodes [asking.forest.value e.2.2] = [] := by decide
  obtain ⟨hleft, hconditions, hname, hright, hunmarked, hn, hx⟩ := hall _ h
  obtain ⟨hvalue, hcase⟩ := facts.2.1 _ h
  exact ⟨⟨hleft, hconditions, hname, hright, hunmarked,
    fun _ hk => absurd hk (Forest.not_node_of_nodes hn), fun _ hk => absurd hk (Forest.not_node_of_nodes hx)⟩,
    Forest.shown_congr hvalue fun _ hk => absurd (hvalue.trans hk) (Forest.not_node_of_nodes hn),
    Forest.shown_congr hcase fun _ hk => absurd (hcase.trans hk) (Forest.not_node_of_nodes hx)⟩

theorem mirrors : choice.Mirrors left chain asking.forest :=
  ⟨.cons ⟨⟨2⟩, equation (by simp [places, chain])⟩ (.cons ⟨⟨6⟩, equation (by simp [places])⟩
    (.cons ⟨⟨9⟩, equation (by simp [places])⟩ .nil)), rfl⟩

theorem direct : asking.Direct :=
  ⟨fun event _ => World.plain_start _ event, fun event _ => World.plain_start _ event, rfl⟩

theorem sound : asking.Sound :=
  ⟨(Forest.planted signposts .empty Forest.wellFormed_empty).wellFormed, by rintro call ⟨⟩⟩

end Crossroads

theorem choice_agrees_with_chain_at_crossroads :
    Crossroads.choice.Mirrors Crossroads.left Crossroads.chain Crossroads.asking.forest ∧
      Crossroads.choice.chosen Crossroads.left = some ⟨6⟩ ∧
      Crossroads.choice.running Crossroads.left = some ⟨6⟩ ∧
      (((Crossroads.machine.engine 4 (Crossroads.machine.perform 4)).raiseFlow "switch" ⟨0⟩).result
        Crossroads.hold Crossroads.choosing).1 = .ok .breaking ∧
      ∃ tested u, Crossroads.chain.Started (Crossroads.machine.engine 4 (Crossroads.machine.perform 4))
          Crossroads.hold Crossroads.asking tested ⟨4⟩ 2 u ∧
        Crossroads.chain.Runs Crossroads.machine 4 Crossroads.hold Crossroads.asking [] ⟨4⟩ 2 u := by
  obtain ⟨-, -, hchosen, hbody, hbreaks⟩ := Crossroads.facts
  obtain ⟨⟨taken, hrel, htakes, -⟩, hrunning, hraise⟩ := choice_agrees_with_chain Crossroads.machine
    (Machine.isCore_coreTable _) 3 Crossroads.choice Crossroads.chain Crossroads.hold Crossroads.hold
    Crossroads.choosing Crossroads.asking [] []
    (Forest.planted crossroads .empty Forest.wellFormed_empty).wellFormed (World.plain_start _ _) (by decide)
    Crossroads.choice_stands (by decide) Crossroads.direct Crossroads.sound Crossroads.chain_stands (by decide)
    Crossroads.mirrors
  refine ⟨Crossroads.mirrors, hchosen, hrunning _ hchosen hbody, ?_, ?_⟩
  · have hafter : ∀ u, Crossroads.choice.result (Crossroads.machine.engine 3 (Crossroads.machine.perform 3))
        (Crossroads.hold.adding [Crossroads.choice.node]) Crossroads.choosing.deeper = (.ok .normal, u) →
          u.Plain "switch" := by
      intro u hu
      rw [hu] at hbreaks
      cases hbreaks
    have hresult := congrArg Prod.fst (hraise hafter)
    rw [leaving, hbreaks] at hresult
    exact hresult
  · change Option.Rel _ (Crossroads.choice.chosen Crossroads.left) _ at hrel
    rw [hchosen] at hrel
    obtain ⟨t, rfl, ht⟩ : ∃ t, taken = some t ∧ Crossroads.choice.Counterpart Crossroads.chain ⟨6⟩ t := by
      cases hrel with
      | some h => exact ⟨_, rfl, h⟩
    obtain rfl : t = ⟨4⟩ := by
      have hzip : ∀ e ∈ Crossroads.choice.cases.zip Crossroads.chain.tests, e.1 = ⟨6⟩ → e.2 = ⟨4⟩ := by decide
      rcases ht with hmem | ⟨hother, -⟩
      · exact hzip _ hmem rfl
      · cases hother
    obtain ⟨tested, u, hstarted, -, hruns⟩ := htakes ⟨4⟩ rfl
    exact ⟨tested, u, hstarted, hruns⟩

/-! ## Choices and chains that differ -/

/-- A choice with one case and a default, as a program. -/
def choiceOf (value constant : Value (Tree Selector) Selector) (body : List (Tree Selector)) : Tree Selector :=
  ⟨"switch", some value, [⟨"case", some constant, body⟩, ⟨"default", none, [⟨"continue", none, []⟩]⟩]⟩

/-- The chain of the same branches. -/
def chainOf (value constant : Value (Tree Selector) Selector) (body : List (Tree Selector)) :
    List (Tree Selector) :=
  [⟨"if", some value, ⟨"=", some constant, []⟩ :: body⟩, ⟨"else", none, [⟨"continue", none, []⟩]⟩]

/-- What a program ends with. -/
def outcomeOf (program : List (Tree Selector)) : Except Stop Flow :=
  let m : Machine := ⟨.default, coreTable⟩
  ((execute (m.engine 8 (m.perform 8)) ⟨0⟩ 0).result (.ofCall ⟨0⟩ ⟨0⟩)
    ⟨(Forest.plant ⟨"root", none, program⟩ .empty).2, default, default⟩).1

/-- A statement that makes one event stand for another. -/
def overriding (base super : String) : Tree Selector :=
  ⟨"override", some (.string base), [⟨"super", some (.string super), []⟩]⟩

/-- A chain differs from its choice if the operator is overridden, if the body that is run overrides `else`,
if the body begins with an operator, and if it begins with a marker. -/
theorem chain_differs_from_choice :
    (outcomeOf [overriding "=" "!=", choiceOf (.int 1) (.int 1) [⟨"break", none, []⟩]] = .ok .breaking ∧
      outcomeOf (overriding "=" "!=" :: chainOf (.int 1) (.int 1) [⟨"break", none, []⟩]) = .ok .continuing) ∧
    (outcomeOf [choiceOf (.int 1) (.int 1) [overriding "else" "lambda"]] = .ok .normal ∧
      outcomeOf (chainOf (.int 1) (.int 1) [overriding "else" "lambda"]) = .ok .continuing) ∧
    (outcomeOf [choiceOf (.int 2) (.int 1) [⟨"or", some (.bool true), []⟩]] = .ok .continuing ∧
      outcomeOf (chainOf (.int 2) (.int 1) [⟨"or", some (.bool true), []⟩]) = .ok .normal) ∧
    (outcomeOf [choiceOf (.int 1) (.int 1) [⟨"_maybe", none, []⟩, ⟨"break", none, []⟩]] = .ok .breaking ∧
      outcomeOf (chainOf (.int 1) (.int 1) [⟨"_maybe", none, []⟩, ⟨"break", none, []⟩]) = .ok .normal) := by
  decide +kernel

end EventTree
