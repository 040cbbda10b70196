import EventTree.Proofs.Condition.Reach
import EventTree.Proofs.Signal.Passing
import EventTree.Proofs.Trap.Blocks

/-!
# Chains of branches

An `if`, the `else-if` after it and an `else` at the end. Nothing records which of them was taken: each
reads it off the values of those before it, which their tests have made Booleans.

Main statement: the conditions are tested in order up to the first that is true, and of all bodies the
body of that branch alone is run, or that of the `else` when no condition is true. An `else-if` or `else`
that does not follow such a chain is an error.
-/

namespace EventTree

open EventTree.Action Keyword

/-! ## What a branch reads -/

namespace Forest

variable {f : Forest}

/-- The siblings before a node are `else-if` nodes back to an `if`. -/
def Follows (f : Forest) (x : NodeId) : Prop :=
  ∃ run first earlier, f.siblingsBefore x = run ++ first :: earlier ∧
    (∀ n ∈ run, f.name n = "else-if") ∧ f.name first = "if"

theorem chainTaken_run {run earlier : List NodeId} {first : NodeId}
    (hrun : ∀ n ∈ run, f.name n = "else-if") (hfirst : f.name first = "if") :
    f.chainTaken (run ++ first :: earlier) =
      some ((run ++ [first]).any fun n => f.value n == some (.bool true)) := by
  induction run with
  | nil => simp [chainTaken, hasName, hfirst]
  | cons n run ih =>
    obtain ⟨hn, hrun⟩ := List.forall_mem_cons.mp hrun
    rw [List.cons_append, chainTaken, ih hrun]
    simp [hasName, hn]

theorem exists_run_of_chainTaken {l : List NodeId} {taken : Bool} (h : f.chainTaken l = some taken) :
    ∃ run first earlier, l = run ++ first :: earlier ∧ (∀ n ∈ run, f.name n = "else-if") ∧
      f.name first = "if" := by
  induction l generalizing taken with
  | nil => cases h
  | cons n l ih =>
    -- An `if` ends the way back, an `else-if` continues it, and anything else breaks it.
    rw [chainTaken] at h
    split at h
    case isTrue hif => exact ⟨[], n, l, rfl, by simp, by simpa [hasName] using hif⟩
    case isFalse =>
      split at h
      case isTrue helse =>
        obtain ⟨taken', htaken, -⟩ := Option.map_eq_some_iff.mp h
        obtain ⟨run, first, earlier, rfl, hrun, hfirst⟩ := ih htaken
        have hn : f.name n = "else-if" := by simpa [hasName] using helse
        exact ⟨n :: run, first, earlier, rfl, List.forall_mem_cons.mpr ⟨hn, hrun⟩, hfirst⟩
      case isFalse => cases h

theorem chainTaken_eq_none_iff {x : NodeId} :
    f.chainTaken (f.siblingsBefore x) = none ↔ ¬ f.Follows x := by
  constructor
  · rintro h ⟨run, first, earlier, hsiblings, hrun, hfirst⟩
    rw [hsiblings, chainTaken_run hrun hfirst] at h
    cases h
  · intro h
    rw [Option.eq_none_iff_forall_ne_some]
    exact fun taken htaken => h (exists_run_of_chainTaken htaken)

theorem chainTaken_seen (wf : f.WellFormed) (hold : Hold) (l : List NodeId) :
    (f.seen hold).chainTaken l = f.chainTaken l := by
  have hp := seen_pruned wf hold
  induction l with
  | nil => rfl
  | cons n l ih =>
    have hname : ∀ a, (f.seen hold).hasName a n = f.hasName a n := fun a => by
      rw [hasName, hp.name_eq, hasName]
    rw [chainTaken, chainTaken, hname, hname, hp.value_eq, ih]

end Forest

/-! ## Chains -/

/-- The branches of a chain, below a scope. -/
structure Chain where
  scope : NodeId
  first : NodeId
  others : List NodeId
  last : Option NodeId

/-- The names of branches. -/
def Chain.keywords : List String := ["if", "else-if", "else"]

/-- Nothing stands in for the keywords of branches or for the operators, and there are no listeners. -/
structure World.Direct (w : World) : Prop where
  keywords : ∀ event ∈ Chain.keywords, w.Plain event
  operators : PlainOperators w
  bindings : w.session.bindings = []

namespace Chain

/-- The branches with a condition. -/
def tests (C : Chain) : List NodeId := C.first :: C.others

def nodes (C : Chain) : List NodeId := C.tests ++ C.last.toList

/-- The chain stands in its scope, and its `else` has no condition. -/
structure Stands (C : Chain) (before after : List NodeId) (f : Forest) : Prop where
  children : f.children C.scope = before ++ (C.nodes ++ after)
  first : f.name C.first = "if"
  others : ∀ n ∈ C.others, f.name n = "else-if"
  last : ∀ n, C.last = some n → f.name n = "else" ∧ f.hasValue n = false

/-- The conditions consist of operators, and no marker has been left. -/
def Tidy (C : Chain) (f : Forest) : Prop :=
  ∀ n ∈ C.tests, f.RaisesOperators n ∧ ∀ k ∈ f.children n, f.name k ≠ markerName

/-- A body has left the chain as it was. -/
structure Kept (C : Chain) (w w' : World) : Prop where
  stands : ∃ before after, C.Stands before after w'.forest
  value_eq : ∀ n ∈ C.tests, w'.forest.value n = w.forest.value n
  plain : ∀ event ∈ keywords, w'.Plain event

section Course

variable (engine : Engine) (hold : Hold) (C : Chain)

/-- The first branches were tested, and their conditions were false. -/
inductive Reached (w : World) : List NodeId → World → Prop
  | start : Reached w [] w
  | refused {done rest : List NodeId} {n : NodeId} {offset : Nat} {u u₁ : World} :
      Reached w done u → C.tests = done ++ n :: rest →
      (evaluateCondition engine n).result (hold.adding [n]) u.deeper = (.ok ⟨false, offset⟩, u₁) →
      Reached w (done ++ [n]) u₁.shallower

/-- The body that is to run: that of the first branch whose condition is true, or of the `else` when all
were false. It comes with the branches that were tested, the place where it begins and the world that it
begins in. -/
inductive Started (w : World) : List NodeId → NodeId → Nat → World → Prop
  | taken {done rest : List NodeId} {n : NodeId} {offset : Nat} {u u₁ : World} :
      C.Reached engine hold w done u → C.tests = done ++ n :: rest →
      (evaluateCondition engine n).result (hold.adding [n]) u.deeper = (.ok ⟨true, offset⟩, u₁) →
      Started w (done ++ [n]) n offset u₁
  | last {l : NodeId} {u : World} :
      C.Reached engine hold w C.tests u → C.last = some l → Started w C.tests l 0 u.deeper

/-- All that a chain does: the branches that are tested, and the one whose body is run, if any. -/
inductive Course (w : World) : List NodeId → Option NodeId → World → Prop
  | ran {tested : List NodeId} {n : NodeId} {position : Nat} {u u' : World} :
      C.Started engine hold w tested n position u →
      Ran engine (hold.adding [n]) n position u (.ok .normal) u' →
      Course w tested (some n) u'.shallower
  | none {u : World} :
      C.Reached engine hold w C.tests u → C.last = none → Course w C.tests none u

/-- Every condition that is tested gives an outcome, and a body that is run ends normally and leaves the
chain as it was. -/
structure Tame (w : World) : Prop where
  tests : ∀ done n rest u, C.Reached engine hold w done u → C.tests = done ++ n :: rest →
    ∃ condition u₁, (evaluateCondition engine n).result (hold.adding [n]) u.deeper = (.ok condition, u₁)
  bodies : ∀ tested n position u, C.Started engine hold w tested n position u →
    ∃ u', Ran engine (hold.adding [n]) n position u (.ok .normal) u' ∧ C.Kept u u'

/-- A chain has taken its course. A branch that was tested has the value true if its body was run and
false otherwise; one that was not tested has the value that it had. -/
structure Settled (w : World) (tested untested : List NodeId) (ran : Option NodeId)
    (before after : List NodeId) (w' : World) : Prop where
  split : C.tests = tested ++ untested
  course : C.Course engine hold w tested ran w'
  stands : C.Stands before after w'.forest
  value_tested : ∀ n ∈ tested, w'.forest.value n = some (.bool (decide (ran = some n)))
  value_untested : ∀ n ∈ untested, w'.forest.value n = w.forest.value n

end Course

/-! ## Where the branches stand -/

namespace Stands

variable {C : Chain} {before after : List NodeId} {f : Forest} (hs : C.Stands before after f)

include hs

theorem split_test {done rest : List NodeId} {n : NodeId} (htests : C.tests = done ++ n :: rest) :
    f.children C.scope = (before ++ done) ++ n :: (rest ++ (C.last.toList ++ after)) := by
  rw [hs.children, nodes, htests]
  simp

theorem split_last {l : NodeId} (hl : C.last = some l) :
    f.children C.scope = (before ++ C.tests) ++ l :: after := by
  rw [hs.children, nodes, hl]
  simp

theorem name_test {n : NodeId} {done rest : List NodeId} (htests : C.tests = done ++ n :: rest) :
    f.name n = if done = [] then "if" else "else-if" := by
  cases done with
  | nil =>
    obtain ⟨rfl, -⟩ := List.cons.inj htests
    exact hs.first
  | cons d done =>
    obtain ⟨-, hothers⟩ := List.cons.inj htests
    exact hs.others n (by simp [hothers])

theorem chainTaken_seen (wf : f.WellFormed) {hold : Hold} (hheld : C.scope ∈ hold.held)
    {done more r : List NodeId} {x : NodeId} (htests : C.tests = done ++ more) (hne : done ≠ [])
    (hsplit : f.children C.scope = (before ++ done) ++ x :: r) :
    (f.seen hold).chainTaken ((f.seen hold).siblingsBefore x) =
      some (done.any fun n => f.value n == some (.bool true)) := by
  obtain ⟨d, done, rfl⟩ := List.exists_cons_of_ne_nil hne
  obtain ⟨rfl, hothers⟩ := List.cons.inj htests
  have hrun : ∀ n ∈ done.reverse, f.name n = "else-if" := fun n hn =>
    hs.others n (hothers ▸ List.mem_append_left _ (List.mem_reverse.mp hn))
  have hreverse : (before ++ C.first :: done).reverse = done.reverse ++ C.first :: before.reverse := by
    simp
  rw [Forest.chainTaken_seen wf, wf.siblingsBefore_seen hheld (wf.parent_of_split hsplit),
    wf.siblingsBefore_of_split hsplit, hreverse, Forest.chainTaken_run hrun hs.first]
  simp [Bool.or_comm]

theorem chainTaken_of_refused (wf : f.WellFormed) {hold : Hold} (hheld : C.scope ∈ hold.held)
    {done more r : List NodeId} {x : NodeId} (htests : C.tests = done ++ more) (hne : done ≠ [])
    (hsplit : f.children C.scope = (before ++ done) ++ x :: r)
    (hrefused : ∀ d ∈ done, f.value d = some (.bool false)) :
    (f.seen hold).chainTaken ((f.seen hold).siblingsBefore x) = some false := by
  rw [hs.chainTaken_seen wf hheld htests hne hsplit, Option.some.injEq, List.any_eq_false]
  intro d hd
  rw [hrefused d hd]
  decide

variable (wf : f.WellFormed)

include wf

theorem nodup_nodes : C.nodes.Nodup := by
  have h := wf.nodup C.scope
  rw [hs.children] at h
  exact (List.nodup_append.mp (List.nodup_append.mp h).2.1).1

theorem nodup_tests : C.tests.Nodup := (List.nodup_append.mp (hs.nodup_nodes wf)).1

theorem not_mem_done {done rest : List NodeId} {n : NodeId} (htests : C.tests = done ++ n :: rest) :
    n ∉ done := fun hmem =>
  (List.nodup_append.mp (htests ▸ hs.nodup_tests wf)).2.2 n hmem n List.mem_cons_self rfl

theorem not_mem_tests {l : NodeId} (hl : C.last = some l) : l ∉ C.tests := fun hmem =>
  (List.nodup_append.mp (hs.nodup_nodes wf)).2.2 l hmem l (by simp [hl]) rfl

theorem parent_node {n : NodeId} (hn : n ∈ C.nodes) : f.parent n = some C.scope := by
  refine (wf.linked C.scope n).mp ?_
  rw [hs.children]
  simp [hn]

theorem parent_test {n : NodeId} (hn : n ∈ C.tests) : f.parent n = some C.scope :=
  hs.parent_node wf (List.mem_append_left _ hn)

section Confined

variable {done : List NodeId} (hdone : ∀ d ∈ done, d ∈ C.tests) {g : Forest}
  (hg : f.Confined (fun k => ∃ d ∈ done, f.Within d k) g)

include hdone hg

theorem cell_within {n : NodeId} (hn : n ∈ C.nodes) (hnot : n ∉ done) :
    ∀ k, f.Within n k → g.cell k = f.cell k := by
  intro k hk
  have hparent := hs.parent_node wf hn
  refine hg.cell_eq k (hk.has (Forest.has_of_parent hparent)) ?_
  rintro ⟨d, hd, hdk⟩
  obtain rfl := wf.within_unique (hs.parent_test wf (hdone d hd)) hparent hdk hk
  exact hnot hd

theorem confined : C.Stands before after g := by
  have hhas : ∀ n ∈ C.nodes, f.Has n := fun n hn => Forest.has_of_parent (hs.parent_node wf hn)
  have hscope : g.cell C.scope = f.cell C.scope := by
    refine hg.cell_eq C.scope (wf.has_parent (hs.parent_test wf List.mem_cons_self)) ?_
    rintro ⟨d, hd, hwithin⟩
    exact wf.not_within_child (hs.parent_test wf (hdone d hd)) hwithin
  refine ⟨?_, ?_, fun n hn => ?_, fun l hl => ?_⟩
  · rw [Forest.children, hscope, ← Forest.children, hs.children]
  · rw [hg.name_eq C.first (hhas _ (by simp [nodes, tests])), hs.first]
  · rw [hg.name_eq n (hhas _ (by simp [nodes, tests, hn])), hs.others n hn]
  · have hcell := hs.cell_within wf hdone hg (by simp [nodes, hl])
      (fun hmem => hs.not_mem_tests wf hl (hdone l hmem)) l (.inl rfl)
    rw [Forest.name, Forest.hasValue, Forest.value, hcell]
    exact hs.last l hl

end Confined

end Stands

/-! ## Tests -/

/-- What is known after some branches were tested and none was taken. -/
structure Undecided (w : World) (done : List NodeId) (u : World) : Prop where
  world : u = w.on u.forest
  confined : w.forest.Confined (fun k => ∃ d ∈ done, w.forest.Within d k) u.forest
  refused : ∀ d ∈ done, u.forest.value d = some (.bool false)

theorem Undecided.plain {w u : World} {done : List NodeId} (hu : Undecided w done u) {event : String}
    (h : w.Plain event) : u.Plain event := hu.world ▸ h.on u.forest

theorem Undecided.session {w u : World} {done : List NodeId} (hu : Undecided w done u) :
    u.session = w.session := by
  rw [hu.world]
  rfl

section Tests

variable {C : Chain} {before after done rest : List NodeId} {n : NodeId} {hold : Hold} {w u u₁ : World}
  {m : Machine} (hm : m.IsCore) {patience : Nat} (hw : w.Direct) (wf : w.forest.WellFormed)
  (hs : C.Stands before after w.forest) (htidy : C.Tidy w.forest)

include wf hs in
theorem Undecided.stands (hu : Undecided w done u) (htests : C.tests = done ++ rest) :
    C.Stands before after u.forest :=
  hs.confined wf (fun _ hd => htests ▸ List.mem_append_left _ hd) hu.confined

include wf hs in
theorem Undecided.cell_within (hu : Undecided w done u) (htests : C.tests = done ++ n :: rest) :
    ∀ k, w.forest.Within n k → u.forest.cell k = w.forest.cell k := by
  refine hs.cell_within wf (fun _ hd => htests ▸ List.mem_append_left _ hd) hu.confined ?_
    (hs.not_mem_done wf htests)
  simp [nodes, htests]

include hm hw wf hs htidy in
theorem Undecided.judged (hu : Undecided w done u) (htests : C.tests = done ++ n :: rest)
    {condition : Condition}
    (hr : (evaluateCondition (m.engine patience (m.perform patience)) n).result (hold.adding [n]) u.deeper =
      (.ok condition, u₁)) :
    ∃ g, u₁ = w.deeper.on g ∧ u.forest.Judged n condition g := by
  have hmem : n ∈ C.tests := by simp [htests]
  have hhas := Forest.has_of_parent (hs.parent_test wf hmem)
  have hraises := (htidy n hmem).1.congr wf (hu.cell_within wf hs htests)
  rw [hu.world] at hr
  exact judges hm hw.operators.deeper (hold.adding [n]) u.forest n hu.confined.wellFormed
    (hu.confined.has hhas) hraises condition u₁ hr

include wf hs in
theorem Undecided.judged_next (hu : Undecided w done u) (htests : C.tests = done ++ n :: rest)
    {condition : Condition} {g : Forest} (hg : u.forest.Judged n condition g) :
    w.forest.Confined (fun k => ∃ d ∈ done ++ [n], w.forest.Within d k) g ∧
      ∀ d ∈ done, g.value d = some (.bool false) := by
  have hstands := hu.stands wf hs htests
  have wfu := hu.confined.wellFormed
  have hin : ∀ d ∈ done, d ∈ C.tests := fun d hd => htests ▸ List.mem_append_left _ hd
  have hmem : n ∈ C.tests := by simp [htests]
  refine ⟨(hu.confined.mono ?_).trans hg.disturbed.confined ?_, fun d hd => ?_⟩
  · rintro k - ⟨d, hd, hk⟩
    exact ⟨d, List.mem_append_left _ hd, hk⟩
  · exact fun k hk hwithin => ⟨n, by simp, hu.confined.within_of wf hk hwithin⟩
  · -- Siblings have nothing in common, so the test of one leaves the others alone.
    have hcell : g.cell d = u.forest.cell d := by
      have hparent := hstands.parent_test wfu (hin d hd)
      refine hg.disturbed.confined.cell_eq d (Forest.has_of_parent hparent) fun hwithin => ?_
      obtain rfl := wfu.within_unique (hstands.parent_test wfu hmem) hparent hwithin (.inl rfl)
      exact hs.not_mem_done wf htests hd
    rw [Forest.value, hcell]
    exact hu.refused d hd

include hm hw wf hs htidy in
theorem Reached.undecided (h : C.Reached (m.engine patience (m.perform patience)) hold w done u) :
    Undecided w done u := by
  induction h with
  | start => exact ⟨rfl, .refl wf, fun d hd => by cases hd⟩
  | refused _ htests hr hu =>
    obtain ⟨g, rfl, hg⟩ := hu.judged hm hw wf hs htidy htests hr
    obtain ⟨hconfined, hvalues⟩ := hu.judged_next wf hs htests hg
    refine ⟨rfl, hconfined, fun d hd => ?_⟩
    rcases List.mem_append.mp hd with hd | hd
    · exact hvalues d hd
    · obtain rfl := List.mem_singleton.mp hd
      exact hg.value

end Tests

/-! ## Branches in a sequence -/

section Sequence

variable {C : Chain} {before after done rest : List NodeId} {n : NodeId} {hold : Hold} {w u : World}
  {m : Machine} (hm : m.IsCore) {patience : Nat}

include hm in
theorem executeFrom_branch (fuel : Nat) {handler : Handler} {event : String} (hevent : event ∈ keywords)
    (hhandler : coreTable.handlersOf event = [handler]) (hplain : w.Plain event)
    (hdepth : w.session.depth < m.settings.maxDepth) {l r l' r' : List NodeId}
    (hsplit : w.forest.children C.scope = l ++ n :: r) (hname : w.forest.name n = event)
    (hr : (handler (m.engine patience (m.perform patience)) (.plain event n)).result (hold.adding [n])
      w.deeper = (.ok .normal, u))
    (hplain' : u.Plain event) (wf : u.forest.WellFormed)
    (hsplit' : u.forest.children C.scope = l' ++ n :: r') :
    (executeFrom (m.engine (patience + 1) (m.perform (patience + 1))) C.scope (fuel + 1) l.length).result
        hold w =
      (executeFrom (m.engine (patience + 1) (m.perform (patience + 1))) C.scope fuel
        (l'.length + 1)).result hold u.shallower := by
  have hall : ∀ event ∈ keywords, isDataName event = false ∧ event ≠ catchAll := by decide
  obtain ⟨hdata, hcatch⟩ := hall event hevent
  have hraise := Machine.result_raiseKeyword hm hhandler hcatch hplain hdepth hr hplain'
  exact executeFrom_of_normal fuel hsplit hname hdata hraise wf hsplit'

variable (hs : C.Stands before after w.forest) (wf : w.forest.WellFormed) (hscope : C.scope ∈ hold.held)

include hs wf hscope

theorem Stands.result_test (htests : C.tests = done ++ n :: rest)
    (hrefused : ∀ d ∈ done, w.forest.value d = some (.bool false)) :
    ∃ event ∈ keywords, ∃ handler : Handler, w.forest.name n = event ∧
      coreTable.handlersOf event = [handler] ∧ ∀ engine,
        (handler engine (.plain event n)).result hold w = (branch engine n).result hold w := by
  have hname := hs.name_test htests
  by_cases hdone : done = []
  · rw [if_pos hdone] at hname
    exact ⟨"if", by simp [keywords], ifBranch, hname, rfl, fun _ => rfl⟩
  · rw [if_neg hdone] at hname
    have hchain := hs.chainTaken_of_refused wf hscope htests hdone (hs.split_test htests) hrefused
    exact ⟨"else-if", by simp [keywords], elseIfBranch, hname, rfl, fun _ =>
      result_bind_ok (result_earlierTaken hchain)⟩

theorem Stands.result_skipped {d : NodeId} (hd : d ∈ done) (hvalue : w.forest.value d = some (.bool true))
    {more r : List NodeId} (htests : C.tests = done ++ more) (hnode : n ∈ more ∨ C.last = some n)
    (hsplit : w.forest.children C.scope = (before ++ done) ++ n :: r) :
    ∃ event ∈ keywords, ∃ handler : Handler, w.forest.name n = event ∧
      coreTable.handlersOf event = [handler] ∧ ∀ engine,
        (handler engine (.plain event n)).result hold w = (.ok .normal, w) := by
  have hchain := hs.chainTaken_seen wf hscope htests (List.ne_nil_of_mem hd) hsplit
  have hsome : (done.any fun d => w.forest.value d == some (.bool true)) = true :=
    List.any_eq_true.mpr ⟨d, hd, by rw [hvalue]; decide⟩
  rw [hsome] at hchain
  have htaken := result_earlierTaken hchain
  rcases hnode with hmore | hl
  · obtain ⟨first, last, rfl⟩ := List.append_of_mem hmore
    have hsplit' : C.tests = (done ++ first) ++ n :: last := by rw [htests, List.append_assoc]
    have hname := hs.name_test hsplit'
    rw [if_neg (List.append_ne_nil_of_left_ne_nil (List.ne_nil_of_mem hd) _)] at hname
    exact ⟨"else-if", by simp [keywords], elseIfBranch, hname, rfl, fun _ => result_bind_ok htaken⟩
  · obtain ⟨hname, hnone⟩ := hs.last n hl
    refine ⟨"else", by simp [keywords], elseBranch, hname, rfl, fun engine => ?_⟩
    have hvalueless : ¬ w.forest.hasValue (Call.plain "else" n).node = true := by simp [Call.plain, hnone]
    rw [elseBranch, result_bind_ok (result_ask _)]
    dsimp only
    rw [if_neg hvalueless]
    exact result_bind_ok htaken

section Skips

variable (hplain : ∀ event ∈ keywords, w.Plain event) (hdepth : w.session.depth < m.settings.maxDepth)
  {d : NodeId} (hd : d ∈ done) (hvalue : w.forest.value d = some (.bool true)) {more : List NodeId}
  (htests : C.tests = done ++ more)

include hm hplain hdepth hd hvalue htests

theorem Stands.executeFrom_skip (fuel : Nat) {r : List NodeId} (hnode : n ∈ more ∨ C.last = some n)
    (hsplit : w.forest.children C.scope = (before ++ done) ++ n :: r) :
    (executeFrom (m.engine (patience + 1) (m.perform (patience + 1))) C.scope (fuel + 1)
        (before ++ done).length).result hold w =
      (executeFrom (m.engine (patience + 1) (m.perform (patience + 1))) C.scope fuel
        ((before ++ done).length + 1)).result hold w := by
  have hheld : C.scope ∈ (hold.adding [n]).held := List.mem_cons_of_mem _ hscope
  have hdeeper : C.Stands before after w.deeper.forest := hs
  obtain ⟨event, hevent, handler, hname, hhandler, hskip⟩ :=
    hdeeper.result_skipped wf hheld hd hvalue htests hnode hsplit
  exact executeFrom_branch hm fuel hevent hhandler (hplain event hevent) hdepth hsplit hname (hskip _)
    (hplain event hevent).deeper wf hsplit

theorem Stands.executeFrom_skips (fuel : Nat) :
    (executeFrom (m.engine (patience + 1) (m.perform (patience + 1))) C.scope
        (more.length + (C.last.toList.length + fuel)) (before ++ done).length).result hold w =
      (executeFrom (m.engine (patience + 1) (m.perform (patience + 1))) C.scope fuel
        (before.length + C.nodes.length)).result hold w := by
  induction more generalizing done with
  | nil =>
    have hall : C.tests = done := by rw [htests, List.append_nil]
    rw [List.length_nil, Nat.zero_add]
    cases hl : C.last with
    | none => simp [nodes, hl, hall]
    | some l =>
      have hsplit := hs.split_last hl
      rw [hall] at hsplit
      rw [Option.toList_some, List.length_singleton, Nat.add_comm 1 fuel,
        hs.executeFrom_skip hm wf hscope hplain hdepth hd hvalue htests fuel (.inr hl) hsplit]
      simp [nodes, hl, hall, Nat.add_assoc]
  | cons n more ih =>
    have htests' : C.tests = (done ++ [n]) ++ more := by rw [htests, List.append_cons]
    have hnext := ih (List.mem_append_left _ hd) htests'
    rw [List.length_cons, Nat.add_right_comm, hs.executeFrom_skip hm wf hscope hplain hdepth hd hvalue htests
      _ (.inl List.mem_cons_self) (hs.split_test htests), ← hnext]
    simp [Nat.add_assoc]

end Skips

end Sequence

/-! ## Runs -/

theorem result_branch_refused {engine : Engine} {hold : Hold} {n : NodeId} {offset : Nat} {w w' : World}
    (h : (evaluateCondition engine n).result hold w = (.ok ⟨false, offset⟩, w')) :
    (branch engine n).result hold w = (.ok .normal, w') := by
  rw [branch, result_bind_ok h]
  rfl

/-- A sequence that begins in `u`, with so many branches still to come, goes on behind the chain when this
has taken the course that it takes from `w`. -/
def Passes (C : Chain) (m : Machine) (patience : Nat) (hold : Hold) (w u : World)
    (position remaining : Nat) : Prop :=
  ∃ tested untested ran before after w',
    C.Settled (m.engine patience (m.perform patience)) hold w tested untested ran before after w' ∧
    ∀ fuel, (executeFrom (m.engine (patience + 1) (m.perform (patience + 1))) C.scope (remaining + fuel)
        position).result hold u =
      (executeFrom (m.engine (patience + 1) (m.perform (patience + 1))) C.scope fuel
        (before.length + C.nodes.length)).result hold w'

section Runs

variable {C : Chain} {m : Machine} (hm : m.IsCore) {patience : Nat} {hold : Hold}
  (hscope : C.scope ∈ hold.held) {w u : World} (hw : w.Direct) (hsound : w.Sound)
  {before after done rest : List NodeId} (hs : C.Stands before after w.forest) (htidy : C.Tidy w.forest)
  (hdepth : w.session.depth < m.settings.maxDepth)
  (htame : C.Tame (m.engine patience (m.perform patience)) hold w)

theorem sound_on {inside : NodeId → Prop} {g : Forest} (hsound : w.Sound)
    (hg : w.forest.Confined inside g) : (w.deeper.on g).Sound :=
  ⟨hg.wellFormed, fun call hcall => hg.has (hsound.base call hcall)⟩

include hm hscope hw hsound hs hdepth

theorem executeFrom_test {n : NodeId} {u' : World} (hu : Undecided w done u)
    (htests : C.tests = done ++ n :: rest)
    (hr : (branch (m.engine patience (m.perform patience)) n).result (hold.adding [n]) u.deeper =
      (.ok .normal, u')) (hplain : ∀ event ∈ keywords, u'.Plain event) (wf : u'.forest.WellFormed)
    {before' after' : List NodeId} (hs' : C.Stands before' after' u'.forest) (fuel : Nat) :
    (executeFrom (m.engine (patience + 1) (m.perform (patience + 1))) C.scope (fuel + 1)
        (before ++ done).length).result hold u =
      (executeFrom (m.engine (patience + 1) (m.perform (patience + 1))) C.scope fuel
        (before' ++ (done ++ [n])).length).result hold u'.shallower := by
  have hstands : C.Stands before after u.forest := hu.stands hsound.wellFormed hs htests
  have hdeeper : C.Stands before after u.deeper.forest := hstands
  have hheld : C.scope ∈ (hold.adding [n]).held := List.mem_cons_of_mem _ hscope
  obtain ⟨event, hevent, handler, hname, hhandler, hresult⟩ :=
    hdeeper.result_test hu.confined.wellFormed hheld htests hu.refused
  have hdepthu : u.session.depth < m.settings.maxDepth := hu.session ▸ hdepth
  rw [executeFrom_branch hm fuel hevent hhandler (hu.plain (hw.keywords event hevent)) hdepthu
    (hstands.split_test htests) hname ((hresult _).trans hr) (hplain event hevent) wf
    (hs'.split_test htests)]
  simp [Nat.add_assoc]

theorem executeFrom_else {l : NodeId} {u' : World} (hu : Undecided w C.tests u) (hl : C.last = some l)
    (hr : (execute (m.engine patience (m.perform patience)) l 0).result (hold.adding [l]) u.deeper =
      (.ok .normal, u')) (hplain : ∀ event ∈ keywords, u'.Plain event) (wf : u'.forest.WellFormed)
    {before' after' : List NodeId} (hs' : C.Stands before' after' u'.forest) (fuel : Nat) :
    (executeFrom (m.engine (patience + 1) (m.perform (patience + 1))) C.scope (fuel + 1)
        (before ++ C.tests).length).result hold u =
      (executeFrom (m.engine (patience + 1) (m.perform (patience + 1))) C.scope fuel
        (before'.length + C.nodes.length)).result hold u'.shallower := by
  have hstands : C.Stands before after u.forest :=
    hu.stands hsound.wellFormed hs (List.append_nil _).symm
  have hsplit := hstands.split_last hl
  have hheld : C.scope ∈ (hold.adding [l]).held := List.mem_cons_of_mem _ hscope
  obtain ⟨hname, hvalue⟩ := hstands.last l hl
  have hchain := hstands.chainTaken_of_refused hu.confined.wellFormed hheld (List.append_nil _).symm
    (List.cons_ne_nil _ _) hsplit hu.refused
  have helse : (elseBranch (m.engine patience (m.perform patience)) (.plain "else" l)).result
      (hold.adding [l]) u.deeper = (.ok .normal, u') :=
    (result_elseBranch (w := u.deeper) hvalue hchain).trans hr
  have hkeyword : "else" ∈ keywords := by simp [keywords]
  have hdepthu : u.session.depth < m.settings.maxDepth := hu.session ▸ hdepth
  rw [executeFrom_branch hm fuel hkeyword rfl (hu.plain (hw.keywords _ hkeyword)) hdepthu hsplit hname helse
    (hplain _ hkeyword) wf (hs'.split_last hl)]
  simp [nodes, hl, Nat.add_assoc]

include htidy

theorem executeFrom_refused {n : NodeId} {offset : Nat} {u₁ : World}
    (hreached : C.Reached (m.engine patience (m.perform patience)) hold w done u)
    (htests : C.tests = done ++ n :: rest)
    (hr : (evaluateCondition (m.engine patience (m.perform patience)) n).result (hold.adding [n]) u.deeper =
      (.ok ⟨false, offset⟩, u₁)) (fuel : Nat) :
    (executeFrom (m.engine (patience + 1) (m.perform (patience + 1))) C.scope (fuel + 1)
        (before ++ done).length).result hold u =
      (executeFrom (m.engine (patience + 1) (m.perform (patience + 1))) C.scope fuel
        (before ++ (done ++ [n])).length).result hold u₁.shallower := by
  have wf := hsound.wellFormed
  have hu := hreached.undecided hm hw wf hs htidy
  have htests' : C.tests = (done ++ [n]) ++ rest := by rw [htests, List.append_cons]
  have hs' := ((Reached.refused hreached htests hr).undecided hm hw wf hs htidy).stands wf hs htests'
  obtain ⟨g, rfl, hg⟩ := hu.judged hm hw wf hs htidy htests hr
  have hplain : ∀ event ∈ keywords, (w.deeper.on g).Plain event := fun event he =>
    (hw.keywords event he).deeper.on g
  exact executeFrom_test hm hscope hw hsound hs hdepth hu htests (result_branch_refused hr) hplain
    hg.disturbed.wellFormed hs' fuel

theorem executeFrom_taken {n : NodeId} {offset : Nat} {u₁ u' : World}
    (hreached : C.Reached (m.engine patience (m.perform patience)) hold w done u)
    (htests : C.tests = done ++ n :: rest)
    (hr : (evaluateCondition (m.engine patience (m.perform patience)) n).result (hold.adding [n]) u.deeper =
      (.ok ⟨true, offset⟩, u₁))
    (hran : Ran (m.engine patience (m.perform patience)) (hold.adding [n]) n offset u₁ (.ok .normal) u')
    (hkept : C.Kept u₁ u') {before' after' : List NodeId} (hs' : C.Stands before' after' u'.forest)
    (fuel : Nat) :
    (executeFrom (m.engine (patience + 1) (m.perform (patience + 1))) C.scope
        ((n :: rest).length + C.last.toList.length + fuel) (before ++ done).length).result hold u =
      (executeFrom (m.engine (patience + 1) (m.perform (patience + 1))) C.scope fuel
        (before'.length + C.nodes.length)).result hold u'.shallower := by
  have wf := hsound.wellFormed
  have hu := hreached.undecided hm hw wf hs htidy
  obtain ⟨g, rfl, hg⟩ := hu.judged hm hw wf hs htidy htests hr
  obtain ⟨hconfined, -⟩ := hu.judged_next wf hs htests hg
  have hmem : n ∈ C.tests := by simp [htests]
  have hleft := hran.left (hm.keeping patience) (sound_on hsound hconfined) hw.bindings
    (hconfined.has (Forest.has_of_parent (hs.parent_test wf hmem)))
  have htests' : C.tests = (done ++ [n]) ++ rest := by rw [htests, List.append_cons]
  -- The value that the test left is what the later branches read.
  have htrue : u'.forest.value n = some (.bool true) := (hkept.value_eq n hmem).trans hg.value
  have hdepth' : u'.shallower.session.depth < m.settings.maxDepth := by
    have hsame : u'.session.depth = w.session.depth + 1 := hleft.depth
    simpa [World.shallower, hsame] using hdepth
  have hbranch := (result_branch hr).trans hran.result_eq
  have hfuel : (n :: rest).length + C.last.toList.length + fuel =
      (rest.length + (C.last.toList.length + fuel)) + 1 := by
    rw [List.length_cons]
    omega
  rw [hfuel, executeFrom_test hm hscope hw hsound hs hdepth hu htests hbranch hkept.plain
    hleft.sound.wellFormed hs']
  exact Stands.executeFrom_skips (w := u'.shallower) hm hs' hleft.sound.wellFormed hscope
    (fun event he => (hkept.plain event he).shallower) hdepth'
    (List.mem_append_right done (List.mem_singleton_self n)) htrue htests' fuel

theorem executeFrom_last {l : NodeId} {u' : World}
    (hreached : C.Reached (m.engine patience (m.perform patience)) hold w C.tests u) (hl : C.last = some l)
    (hran : Ran (m.engine patience (m.perform patience)) (hold.adding [l]) l 0 u.deeper (.ok .normal) u')
    (hkept : C.Kept u.deeper u') {before' after' : List NodeId} (hs' : C.Stands before' after' u'.forest)
    (fuel : Nat) :
    (executeFrom (m.engine (patience + 1) (m.perform (patience + 1))) C.scope (fuel + 1)
        (before ++ C.tests).length).result hold u =
      (executeFrom (m.engine (patience + 1) (m.perform (patience + 1))) C.scope fuel
        (before'.length + C.nodes.length)).result hold u'.shallower := by
  have wf := hsound.wellFormed
  have hu := hreached.undecided hm hw wf hs htidy
  have hstands : C.Stands before after u.forest := hu.stands wf hs (List.append_nil _).symm
  have hhas : u.forest.Has l :=
    Forest.has_of_parent (hu.confined.wellFormed.parent_of_split (hstands.split_last hl))
  have hsoundu : u.deeper.Sound := by
    rw [hu.world]
    exact sound_on hsound hu.confined
  have hbindings : u.session.bindings = [] := hu.session ▸ hw.bindings
  have hleft := hran.left (hm.keeping patience) hsoundu hbindings hhas
  exact executeFrom_else hm hscope hw hsound hs hdepth hu hl hran.result_eq hkept.plain
    hleft.sound.wellFormed hs' fuel

include htame

theorem passes_of_taken {n : NodeId} {offset : Nat} {u₁ : World}
    (hreached : C.Reached (m.engine patience (m.perform patience)) hold w done u)
    (htests : C.tests = done ++ n :: rest)
    (hr : (evaluateCondition (m.engine patience (m.perform patience)) n).result (hold.adding [n]) u.deeper =
      (.ok ⟨true, offset⟩, u₁)) :
    C.Passes m patience hold w u (before ++ done).length
      ((n :: rest).length + C.last.toList.length) := by
  have wf := hsound.wellFormed
  have hu := hreached.undecided hm hw wf hs htidy
  have hstarted := Started.taken hreached htests hr
  obtain ⟨u', hran, hkept⟩ := htame.bodies _ _ _ _ hstarted
  obtain ⟨before', after', hs'⟩ := hkept.stands
  have hrun := executeFrom_taken hm hscope hw hsound hs htidy hdepth hreached htests hr hran hkept hs'
  obtain ⟨g, rfl, hg⟩ := hu.judged hm hw wf hs htidy htests hr
  obtain ⟨hconfined, hvalues⟩ := hu.judged_next wf hs htests hg
  have hmem : n ∈ C.tests := by simp [htests]
  have htests' : C.tests = (done ++ [n]) ++ rest := by rw [htests, List.append_cons]
  have htrue : u'.forest.value n = some (.bool true) := (hkept.value_eq n hmem).trans hg.value
  refine ⟨done ++ [n], rest, some n, before', after', u'.shallower,
    ⟨htests', .ran hstarted hran, hs', fun d hd => ?_, fun d hd => ?_⟩, hrun⟩
  · change u'.forest.value d = _
    rcases List.mem_append.mp hd with hd | hd
    · have hne : n ≠ d := fun h => hs.not_mem_done wf htests (h ▸ hd)
      rw [hkept.value_eq d (by simp [htests, hd])]
      simpa [hne] using hvalues d hd
    · obtain rfl := List.mem_singleton.mp hd
      simpa using htrue
  · have hnot : d ∉ done ++ [n] := fun hin =>
      (List.nodup_append.mp (htests' ▸ hs.nodup_tests wf)).2.2 d hin d hd rfl
    have hcell := hs.cell_within wf (fun e he => htests' ▸ List.mem_append_left _ he) hconfined
      (by simp [nodes, htests, hd]) hnot d (.inl rfl)
    change u'.forest.value d = _
    rw [hkept.value_eq d (by simp [htests, hd])]
    change g.value d = _
    rw [Forest.value, hcell, Forest.value]

theorem passes_of_refused
    (hreached : C.Reached (m.engine patience (m.perform patience)) hold w C.tests u) :
    C.Passes m patience hold w u (before ++ C.tests).length C.last.toList.length := by
  have wf := hsound.wellFormed
  have hu := hreached.undecided hm hw wf hs htidy
  have hstands : C.Stands before after u.forest := hu.stands wf hs (List.append_nil _).symm
  cases hl : C.last with
  | none =>
    refine ⟨C.tests, [], none, before, after, u, ⟨(List.append_nil _).symm, .none hreached hl, hstands,
      fun d hd => by simpa using hu.refused d hd, fun d hd => by cases hd⟩, fun fuel => ?_⟩
    simp [nodes, hl]
  | some l =>
    have hstarted := Started.last hreached hl
    obtain ⟨u', hran, hkept⟩ := htame.bodies _ _ _ _ hstarted
    obtain ⟨before', after', hs'⟩ := hkept.stands
    have hrun := executeFrom_last hm hscope hw hsound hs htidy hdepth hreached hl hran hkept hs'
    refine ⟨C.tests, [], some l, before', after', u'.shallower, ⟨(List.append_nil _).symm,
      .ran hstarted hran, hs', fun d hd => ?_, fun d hd => by cases hd⟩, fun fuel => ?_⟩
    · have hne : l ≠ d := fun h => hs.not_mem_tests wf hl (h ▸ hd)
      have hfalse : u.deeper.forest.value d = some (.bool false) := hu.refused d hd
      change u'.forest.value d = _
      rw [hkept.value_eq d hd, hfalse]
      simp [hne]
    · rw [Option.toList_some, List.length_singleton, Nat.add_comm 1 fuel, hrun]

theorem passes_of_reached (htests : C.tests = done ++ rest)
    (hreached : C.Reached (m.engine patience (m.perform patience)) hold w done u) :
    C.Passes m patience hold w u (before ++ done).length (rest.length + C.last.toList.length) := by
  induction rest generalizing done u with
  | nil =>
    obtain rfl : C.tests = done := by rw [htests, List.append_nil]
    rw [List.length_nil, Nat.zero_add]
    exact passes_of_refused hm hscope hw hsound hs htidy hdepth htame hreached
  | cons n rest ih =>
    -- The next branch decides whether the chain goes on.
    obtain ⟨⟨value, offset⟩, u₁, hr⟩ := htame.tests done n rest u hreached htests
    cases value with
    | true => exact passes_of_taken hm hscope hw hsound hs htidy hdepth htame hreached htests hr
    | false =>
      have htests' : C.tests = (done ++ [n]) ++ rest := by rw [htests, List.append_cons]
      obtain ⟨tested, untested, ran, before', after', w', hsettled, hrun⟩ :=
        ih htests' (.refused hreached htests hr)
      refine ⟨tested, untested, ran, before', after', w', hsettled, fun fuel => ?_⟩
      have hfuel : (n :: rest).length + C.last.toList.length + fuel =
          (rest.length + C.last.toList.length + fuel) + 1 := by
        rw [List.length_cons]
        omega
      rw [hfuel, executeFrom_refused hm hscope hw hsound hs htidy hdepth hreached htests hr, ← hrun]

end Runs

/-! ## What a branch finds at its turn -/

section Turns

variable {C : Chain} {m : Machine} (hm : m.IsCore) {patience : Nat} {hold : Hold} {w u : World}
  (hw : w.Direct) (wf : w.forest.WellFormed) {before after : List NodeId}
  (hs : C.Stands before after w.forest) (htidy : C.Tidy w.forest) {n : NodeId}

include hm hw wf hs htidy

theorem Reached.cell_within {done rest : List NodeId}
    (h : C.Reached (m.engine patience (m.perform patience)) hold w done u)
    (htests : C.tests = done ++ n :: rest) :
    ∀ k, w.forest.Within n k → u.forest.cell k = w.forest.cell k :=
  (h.undecided hm hw wf hs htidy).cell_within wf hs htests

theorem Started.body {tested : List NodeId} {position : Nat}
    (h : C.Started (m.engine patience (m.perform patience)) hold w tested n position u) :
    u.forest.children n = w.forest.children n ∧
      (C.last = some n ∧ position = 0 ∨
        ∃ conditions, w.forest.conditionsOf operators n = .ok (conditions, position)) := by
  cases h with
  | @taken done rest _ _ u _ hreached htests hr =>
    have hu := hreached.undecided hm hw wf hs htidy
    have hsame := hreached.cell_within hm hw wf hs htidy htests
    have hmem : n ∈ C.tests := by simp [htests]
    obtain ⟨g, rfl, hg⟩ := hu.judged hm hw wf hs htidy htests hr
    have hchildren : u.forest.children n = w.forest.children n := by
      rw [Forest.children, hsame n (.inl rfl), Forest.children]
    have hnames : ∀ c ∈ w.forest.children n, u.forest.name c = w.forest.name c := fun c hc =>
      hu.confined.name_eq c (wf.has_child hc)
    obtain ⟨conditions, hconditions⟩ := hg.offset
    rw [Forest.conditionsOf_congr (hsame n (.inl rfl)) hnames] at hconditions
    refine ⟨(hg.children_eq fun k hk => ?_).trans hchildren, .inr ⟨conditions, hconditions⟩⟩
    rw [hchildren] at hk
    rw [hnames k hk]
    exact (htidy n hmem).2 k hk
  | @last _ u hreached hl =>
    have hu := hreached.undecided hm hw wf hs htidy
    have hcell := hs.cell_within wf (fun _ hd => hd) hu.confined (by simp [nodes, hl])
      (hs.not_mem_tests wf hl) n (.inl rfl)
    refine ⟨?_, .inl ⟨hl, rfl⟩⟩
    change u.forest.children n = _
    rw [Forest.children, hcell, Forest.children]

end Turns

/-! ## Branches without a chain -/

theorem chainTaken_of_orphan {f : Forest} (wf : f.WellFormed) {hold : Hold} {x : NodeId}
    (hheld : ∀ p, f.parent x = some p → p ∈ hold.held) (horphan : ¬ f.Follows x) :
    (f.seen hold).chainTaken ((f.seen hold).siblingsBefore x) = none := by
  have hsiblings : (f.seen hold).siblingsBefore x = f.siblingsBefore x := by
    cases hp : f.parent x with
    | some p => exact wf.siblingsBefore_seen (hheld p hp) hp
    | none =>
      have hseen : (f.seen hold).parent x = none := by
        rw [Option.eq_none_iff_forall_ne_some]
        intro p h
        cases hp.symm.trans ((Forest.seen_pruned wf hold).parent x p h)
      rw [Forest.siblingsBefore, Forest.siblingsBefore, hseen, hp]
  rw [hsiblings, Forest.chainTaken_seen wf]
  exact Forest.chainTaken_eq_none_iff.mpr horphan

theorem result_earlierTaken_none {hold : Hold} {w : World} {x : NodeId}
    (h : (w.forest.seen hold).chainTaken ((w.forest.seen hold).siblingsBefore x) = none) :
    (earlierTaken x).result hold w =
      (.error (.error (.ofCause (.brokenChain (w.forest.name x)))), w) := by
  rw [earlierTaken, result_bind_ok (result_observe _), h]
  rfl

theorem result_orphan {hold : Hold} {w : World} {x : NodeId}
    (h : (w.forest.seen hold).chainTaken ((w.forest.seen hold).siblingsBefore x) = none) {event : String}
    (hevent : event ∈ ["else-if", "else"]) :
    ∃ handler : Handler, coreTable.handlersOf event = [handler] ∧ ∀ engine, ∃ cause : Cause,
      cause.kind = .structural ∧
        (handler engine (.plain event x)).result hold w = (.error (.error (.ofCause cause)), w) := by
  have hbroken := result_earlierTaken_none h
  simp only [List.mem_cons, List.not_mem_nil, or_false] at hevent
  rcases hevent with rfl | rfl
  · exact ⟨elseIfBranch, rfl, fun _ => ⟨_, rfl, result_bind_error hbroken⟩⟩
  · refine ⟨elseBranch, rfl, fun engine => ?_⟩
    by_cases hvalue : w.forest.hasValue (Call.plain "else" x).node = true
    · refine ⟨.conditionOnElse, rfl, ?_⟩
      rw [elseBranch, result_bind_ok (result_ask _)]
      dsimp only
      rw [if_pos hvalue]
      rfl
    · refine ⟨.brokenChain (w.forest.name x), rfl, ?_⟩
      rw [elseBranch, result_bind_ok (result_ask _)]
      dsimp only
      rw [if_neg hvalue]
      exact result_bind_error hbroken

theorem raise_orphan {m : Machine} (hm : m.IsCore) (patience : Nat) {hold : Hold} {w : World}
    (wf : w.forest.WellFormed) (hdepth : w.session.depth < m.settings.maxDepth) {x : NodeId}
    {event : String} (hevent : event ∈ ["else-if", "else"]) (hplain : w.Plain event)
    (hheld : ∀ p, w.forest.parent x = some p → p ∈ hold.held) (horphan : ¬ w.forest.Follows x) :
    ∃ e : Error, e.kind = .structural ∧
      ((m.engine (patience + 1) (m.perform (patience + 1))).raiseFlow event x).result hold w =
        (.error (.error e), w) := by
  have hall : ∀ event ∈ ["else-if", "else"], event ≠ catchAll := by decide
  have hnone : (w.deeper.forest.seen (hold.adding [x])).chainTaken
      ((w.deeper.forest.seen (hold.adding [x])).siblingsBefore x) = none :=
    chainTaken_of_orphan wf (fun p hp => List.mem_cons_of_mem _ (hheld p hp)) horphan
  obtain ⟨handler, hhandler, hresult⟩ := result_orphan hnone hevent
  obtain ⟨cause, hkind, hr⟩ := hresult (m.engine patience (m.perform patience))
  exact ⟨(Error.ofCause cause).crossing event, hkind,
    Machine.result_raiseKeyword hm hhandler (hall event hevent) hplain hdepth hr hplain.deeper⟩

end Chain

/-- When a sequence comes to a chain, the chain takes its course: the conditions are tested in order up to
the first that is true, its body alone is run, or that of the `else` when all are false, and the sequence
goes on behind the chain. A condition is found at its turn as it was at the start, and a body begins
behind the condition. In every world, whether it has a chain or not, a branch that does not follow an `if`
and `else-if` nodes is an error. -/
theorem chain_runs_one_body (m : Machine) (hm : m.IsCore) (patience : Nat) :
    (∀ (C : Chain) (hold : Hold) (w : World) (before after : List NodeId), C.scope ∈ hold.held → w.Direct →
      w.Sound → C.Stands before after w.forest → C.Tidy w.forest →
      w.session.depth < m.settings.maxDepth → C.Tame (m.engine patience (m.perform patience)) hold w →
      (∃ tested untested ran before' after' w',
        C.Settled (m.engine patience (m.perform patience)) hold w tested untested ran before' after' w' ∧
        ∀ fuel, (executeFrom (m.engine (patience + 1) (m.perform (patience + 1))) C.scope
            (C.nodes.length + fuel) before.length).result hold w =
          (executeFrom (m.engine (patience + 1) (m.perform (patience + 1))) C.scope fuel
            (before'.length + C.nodes.length)).result hold w') ∧
      (∀ done n rest u, C.Reached (m.engine patience (m.perform patience)) hold w done u →
        C.tests = done ++ n :: rest → ∀ k, w.forest.Within n k → u.forest.cell k = w.forest.cell k) ∧
      ∀ tested n position u, C.Started (m.engine patience (m.perform patience)) hold w tested n position u →
        u.forest.children n = w.forest.children n ∧
          (C.last = some n ∧ position = 0 ∨
            ∃ conditions, w.forest.conditionsOf operators n = .ok (conditions, position))) ∧
    ∀ (hold : Hold) (w : World), w.forest.WellFormed → w.session.depth < m.settings.maxDepth →
      ∀ event ∈ ["else-if", "else"], w.Plain event →
        ∀ x, (∀ p, w.forest.parent x = some p → p ∈ hold.held) → ¬ w.forest.Follows x →
          ∃ e : Error, e.kind = .structural ∧
            ((m.engine (patience + 1) (m.perform (patience + 1))).raiseFlow event x).result hold w =
              (.error (.error e), w) := by
  constructor
  · intro C hold w before after hscope hw hsound hs htidy hdepth htame
    have wf := hsound.wellFormed
    refine ⟨?_, fun done n rest u hreached htests => hreached.cell_within hm hw wf hs htidy htests,
      fun tested n position u hstarted => hstarted.body hm hw wf hs htidy⟩
    have hpasses := Chain.passes_of_reached hm hscope hw hsound hs htidy hdepth htame
      (List.nil_append _).symm .start
    rw [List.append_nil, ← List.length_append] at hpasses
    exact hpasses
  · intro hold w wf hdepth event hevent hplain x hheld horphan
    exact Chain.raise_orphan hm patience wf hdepth hevent hplain hheld horphan

/-! ## A chain that is run -/

/-- A false condition, a true one, and branches that would fail if they were run. Behind the chain stands an
`else-if` on its own. -/
def ladder : Tree Selector :=
  ⟨"root", none,
    [⟨"_note", none, []⟩, ⟨"if", some (.bool false), [⟨"or", some (.bool false), []⟩]⟩,
      ⟨"else-if", some (.int 1), [⟨"=", some (.int 1), []⟩, ⟨"lambda", none, []⟩]⟩,
      ⟨"else-if", some (.bool true), [⟨"throw", some (.string "late"), []⟩]⟩,
      ⟨"else", none, [⟨"throw", some (.string "last"), []⟩]⟩,
      ⟨"_gap", none, []⟩, ⟨"else-if", some (.bool true), []⟩]⟩

namespace Ladder

def chain : Chain := ⟨⟨0⟩, ⟨2⟩, [⟨4⟩, ⟨7⟩], some ⟨9⟩⟩

def world : World := ⟨(Forest.plant ladder .empty).2, default, default⟩

def machine : Machine := ⟨.default, coreTable⟩

def engine : Engine := machine.engine 4 (machine.perform 4)

def hold : Hold := .ofCall ⟨0⟩ ⟨0⟩

/-- The worlds that the first test, the second and the body leave. -/
def refused : World := ((evaluateCondition engine ⟨2⟩).result (hold.adding [⟨2⟩]) world.deeper).2

def taken : World :=
  ((evaluateCondition engine ⟨4⟩).result (hold.adding [⟨4⟩]) refused.shallower.deeper).2

def left : World := ((attempt (execute engine ⟨4⟩ 1)).result (hold.adding [⟨4⟩]) taken).2

-- All that is read off the runs is decided at once, so that each of them is evaluated once.
theorem runs :
    ((evaluateCondition engine ⟨2⟩).result (hold.adding [⟨2⟩]) world.deeper).1 = .ok ⟨false, 1⟩ ∧
    ((evaluateCondition engine ⟨4⟩).result (hold.adding [⟨4⟩]) refused.shallower.deeper).1 =
      .ok ⟨true, 1⟩ ∧
    ((attempt (execute engine ⟨4⟩ 1)).result (hold.adding [⟨4⟩]) taken).1 = .ok (.ok .normal) ∧
    (left.forest.children ⟨0⟩ = [⟨1⟩] ++ (chain.nodes ++ [⟨11⟩, ⟨12⟩]) ∧
      left.forest.name ⟨2⟩ = "if" ∧ (∀ n ∈ chain.others, left.forest.name n = "else-if") ∧
      left.forest.name ⟨9⟩ = "else" ∧ left.forest.hasValue ⟨9⟩ = false) ∧
    (∀ n ∈ chain.tests, left.forest.value n = taken.forest.value n) ∧
    ∀ event ∈ Chain.keywords, left.session.overrides.supers? event = none ∧
      left.store.bodies? event = none ∧
      ∀ key ∈ Machine.keysOf event, left.session.bindingsOf key = [] := by
  decide +kernel

theorem first_refused : (evaluateCondition engine ⟨2⟩).result (hold.adding [⟨2⟩]) world.deeper =
    (.ok ⟨false, 1⟩, refused) := by
  rw [← runs.1, refused]

theorem second_holds :
    (evaluateCondition engine ⟨4⟩).result (hold.adding [⟨4⟩]) refused.shallower.deeper =
      (.ok ⟨true, 1⟩, taken) := by
  rw [← runs.2.1, taken]

theorem ran : Ran engine (hold.adding [⟨4⟩]) ⟨4⟩ 1 taken (.ok .normal) left := by
  rw [Ran, ← runs.2.2.1, left]

theorem kept : chain.Kept taken left := by
  obtain ⟨-, -, -, ⟨hchildren, hfirst, hothers, hlast⟩, hvalues, hplain⟩ := runs
  refine ⟨⟨_, _, hchildren, hfirst, hothers, ?_⟩, hvalues, fun event hevent => ?_⟩
  · rintro n ⟨⟩
    exact hlast
  · obtain ⟨hsupers, hbodies, hlisteners⟩ := hplain event hevent
    exact ⟨hsupers, hbodies, hlisteners⟩

theorem tests_eq : chain.tests = [⟨2⟩, ⟨4⟩, ⟨7⟩] := rfl

theorem stands : chain.Stands [⟨1⟩] [⟨11⟩, ⟨12⟩] world.forest := by
  refine ⟨by decide, by decide, by decide, ?_⟩
  rintro n ⟨⟩
  decide

theorem tidy : chain.Tidy world.forest := by
  have hvalue : ∀ n ∈ [(⟨2⟩ : NodeId), ⟨3⟩, ⟨4⟩, ⟨7⟩], world.forest.hasValue n = true := by decide
  have hmarker : ∀ n ∈ chain.tests, ∀ k ∈ world.forest.children n, world.forest.name k ≠ markerName := by
    decide
  have hlogic : ∀ n ∈ [(⟨2⟩ : NodeId), ⟨3⟩, ⟨4⟩, ⟨7⟩], ∀ c ∈ world.forest.statements n,
      world.forest.name c = "and" ∨ world.forest.name c = "or" → n = ⟨2⟩ ∧ c = ⟨3⟩ := by decide
  have hor : world.forest.RaisesOperators ⟨3⟩ := by
    refine .of_value (hvalue _ (by simp)) fun c hc hname => ?_
    cases (hlogic ⟨3⟩ (by simp) c hc hname).1
  have hall : ∀ n ∈ [(⟨2⟩ : NodeId), ⟨3⟩, ⟨4⟩, ⟨7⟩], world.forest.RaisesOperators n := fun n hn =>
    .of_value (hvalue n hn) fun c hc hname => (hlogic n hn c hc hname).2 ▸ hor
  intro n hn
  refine ⟨hall n ?_, hmarker n hn⟩
  simp only [chain, Chain.tests, List.mem_cons, List.not_mem_nil, or_false] at hn ⊢
  tauto

theorem direct : world.Direct :=
  ⟨fun event _ => World.plain_start _ event, fun event _ => World.plain_start _ event, rfl⟩

theorem reached {done : List NodeId} {u : World} (h : chain.Reached engine hold world done u) :
    done = [] ∧ u = world ∨ done = [⟨2⟩] ∧ u = refused.shallower := by
  induction h with
  | start => exact .inl ⟨rfl, rfl⟩
  | refused _ htests hr ih =>
    rw [tests_eq] at htests
    rcases ih with ⟨rfl, rfl⟩ | ⟨rfl, rfl⟩ <;> cases htests
    · cases first_refused.symm.trans hr
      exact .inr ⟨rfl, rfl⟩
    · cases second_holds.symm.trans hr

theorem started {tested : List NodeId} {n : NodeId} {position : Nat} {u : World}
    (h : chain.Started engine hold world tested n position u) :
    tested = [⟨2⟩, ⟨4⟩] ∧ n = ⟨4⟩ ∧ position = 1 ∧ u = taken := by
  cases h with
  | taken hreached htests hr =>
    rw [tests_eq] at htests
    rcases reached hreached with ⟨rfl, rfl⟩ | ⟨rfl, rfl⟩ <;> cases htests
    · cases first_refused.symm.trans hr
    · cases second_holds.symm.trans hr
      exact ⟨rfl, rfl, rfl, rfl⟩
  | last hreached _ =>
    rcases reached hreached with ⟨h, -⟩ | ⟨h, -⟩ <;> cases h

theorem tame : chain.Tame engine hold world := by
  refine ⟨fun done n rest u hreached htests => ?_, fun tested n position u hstarted => ?_⟩
  · rw [tests_eq] at htests
    rcases reached hreached with ⟨rfl, rfl⟩ | ⟨rfl, rfl⟩ <;> cases htests
    · exact ⟨_, _, first_refused⟩
    · exact ⟨_, _, second_holds⟩
  · obtain ⟨-, hn, hposition, hu⟩ := started hstarted
    rw [hn, hposition, hu]
    exact ⟨left, ran, kept⟩

theorem orphan : ¬ world.forest.Follows ⟨12⟩ :=
  Forest.chainTaken_eq_none_iff.mp (by decide)

end Ladder

/-- A scope with an `else` and nothing else. -/
def stray : World := ⟨(Forest.plant ⟨"eval", none, [⟨"else", none, []⟩]⟩ .empty).2, default, default⟩

theorem chain_runs_one_body_of_ladder :
    Ladder.chain.Tame Ladder.engine Ladder.hold Ladder.world ∧
      (∃ before after w', Ladder.chain.Stands before after w'.forest ∧
        Ladder.chain.Course Ladder.engine Ladder.hold Ladder.world [⟨2⟩, ⟨4⟩] (some ⟨4⟩) w' ∧
        w'.forest.value ⟨2⟩ = some (.bool false) ∧ w'.forest.value ⟨4⟩ = some (.bool true) ∧
        w'.forest.value ⟨7⟩ = Ladder.world.forest.value ⟨7⟩) ∧
      (¬ Ladder.world.forest.Follows ⟨12⟩ ∧ ∃ e : Error, e.kind = .structural ∧
        ((Ladder.machine.engine 5 (Ladder.machine.perform 5)).raiseFlow "else-if" ⟨12⟩).result Ladder.hold
          Ladder.world = (.error (.error e), Ladder.world)) ∧
      stray.forest.children ⟨0⟩ = [⟨1⟩] ∧ ∃ e : Error, e.kind = .structural ∧
        ((Ladder.machine.engine 5 (Ladder.machine.perform 5)).raiseFlow "else" ⟨1⟩).result Ladder.hold stray =
          (.error (.error e), stray) := by
  have hsound : Ladder.world.Sound :=
    ⟨(Forest.planted ladder .empty Forest.wellFormed_empty).wellFormed, by rintro call ⟨⟩⟩
  obtain ⟨hchain, horphan⟩ := chain_runs_one_body Ladder.machine (Machine.isCore_coreTable _) 4
  obtain ⟨⟨tested, untested, ran, before, after, w', hsettled, -⟩, -, -⟩ :=
    hchain Ladder.chain Ladder.hold Ladder.world [⟨1⟩] [⟨11⟩, ⟨12⟩] (by decide) Ladder.direct hsound
      Ladder.stands Ladder.tidy (by decide) Ladder.tame
  have hcourse := hsettled.course
  have hsplit := hsettled.split
  obtain ⟨rfl, rfl⟩ : tested = [⟨2⟩, ⟨4⟩] ∧ ran = some ⟨4⟩ := by
    cases hcourse with
    | ran hstarted _ =>
      obtain ⟨rfl, rfl, -, -⟩ := Ladder.started hstarted
      exact ⟨rfl, rfl⟩
    | none _ hlast => cases hlast
  obtain rfl : untested = [⟨7⟩] := by simpa [Ladder.tests_eq] using hsplit.symm
  refine ⟨Ladder.tame, ⟨before, after, w', hsettled.stands, hcourse, ?_, ?_, ?_⟩, ⟨Ladder.orphan, ?_⟩,
    by decide, ?_⟩
  · exact hsettled.value_tested ⟨2⟩ (by simp)
  · exact hsettled.value_tested ⟨4⟩ (by simp)
  · exact hsettled.value_untested ⟨7⟩ (by simp)
  · refine horphan _ _ hsound.wellFormed (by decide) "else-if" (by simp) (World.plain_start _ _) ⟨12⟩ ?_
      Ladder.orphan
    have hparent : Ladder.world.forest.parent ⟨12⟩ = some ⟨0⟩ := by decide
    intro p hp
    obtain rfl := Option.some.inj (hparent.symm.trans hp)
    decide
  · have wf : stray.forest.WellFormed := (Forest.planted _ .empty Forest.wellFormed_empty).wellFormed
    refine horphan _ _ wf (by decide) "else" (by simp) (World.plain_start _ _) ⟨1⟩ ?_
      (Forest.chainTaken_eq_none_iff.mp (by decide))
    have hparent : stray.forest.parent ⟨1⟩ = some ⟨0⟩ := by decide
    intro p hp
    obtain rfl := Option.some.inj (hparent.symm.trans hp)
    decide

/-! ## A chain whose keywords change -/

/-- A branch that is taken and makes every `else` a plain sequence. -/
def takeover : Tree Selector :=
  ⟨"root", none,
    [⟨"_hit", none, []⟩,
      ⟨"if", some (.bool true),
        [⟨"override", some (.string "else"), [⟨"super", some (.string "lambda"), []⟩]⟩]⟩,
      ⟨"else", none,
        [⟨"set", some (.selector ⟨"/../_hit?value", [.root, .named "_hit"], .value⟩),
          [⟨"src", some (.int 1), []⟩]⟩]⟩]⟩

/-- The body of the `if` ends normally and leaves the nodes of the chain as they were, and then the body of
the `else` is run as well. -/
theorem overridden_else_runs_too :
    let w : World := ⟨(Forest.plant takeover .empty).2, default, default⟩
    let m : Machine := ⟨.default, coreTable⟩
    let chain : Chain := ⟨⟨0⟩, ⟨2⟩, [], some ⟨5⟩⟩
    let body := (execute (m.engine 7 (m.perform 7)) ⟨2⟩ 0).result ⟨[⟨0⟩], [⟨2⟩, ⟨0⟩]⟩ w
    let result := (execute (m.engine 8 (m.perform 8)) ⟨0⟩ 0).result (.ofCall ⟨0⟩ ⟨0⟩) w
    w.forest.children ⟨0⟩ = ⟨1⟩ :: chain.nodes ∧
      chain.nodes.map w.forest.name = ["if", "else"] ∧
      body.1 = .ok .normal ∧ body.2.forest.children ⟨0⟩ = w.forest.children ⟨0⟩ ∧
      chain.nodes.map body.2.forest.name = ["if", "else"] ∧
      chain.nodes.map body.2.forest.value = [some (.bool true), none] ∧
      body.2.forest.value ⟨1⟩ = none ∧
      result.1 = .ok .normal ∧ result.2.forest.value ⟨2⟩ = some (.bool true) ∧
      result.2.forest.value ⟨1⟩ = some (.int 1) := by
  decide +kernel

end EventTree
