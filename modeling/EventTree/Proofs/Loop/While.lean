import EventTree.Proofs.Loop.Pristine

/-!
# Runs of `while`

A run of `while` is told by the worlds in which its condition was evaluated and by the bodies that were
executed. Each evaluation finds the node as it was at the start, and so does whoever comes after the
loop. Unless the ceiling is lifted there are no more bodies than it allows.
-/

namespace EventTree

open EventTree.Action Keyword

/-- The first child that can lift the ceiling of a loop does so. -/
def Forest.Unchecked (f : Forest) (n : NodeId) : Prop :=
  ∃ flag, f.find? n uncheckedName = some flag ∧ f.value flag ≠ some (.bool false)

/-- A `while` runs from a world on, after some passes: the worlds in which it evaluates its condition, the
bodies that it executes, how it ends, and the world that it leaves before it is put back. -/
inductive WhileRuns (engine : Engine) (hold : Hold) (n pristine : NodeId) (limit : Option Nat) :
    Nat → World → List World → List Round → Except Error Flow → World → Prop
  | unmet {passes offset : Nat} {w w₁ : World} :
    (evaluateCondition engine n).result hold w = (.ok ⟨false, offset⟩, w₁) →
      WhileRuns engine hold n pristine limit passes w [w] [] (.ok .normal) w₁
  | untold {passes : Nat} {w w₁ : World} {e : Error} :
    (evaluateCondition engine n).result hold w = (.error (.error e), w₁) →
      WhileRuns engine hold n pristine limit passes w [w] [] (.error e) w₁
  | refused {passes offset most : Nat} {w w₁ : World} :
    (evaluateCondition engine n).result hold w = (.ok ⟨true, offset⟩, w₁) →
    limit = some most → most ≤ passes →
      WhileRuns engine hold n pristine limit passes w [w] []
        (.error (.ofCause (.tooManyPasses most))) w₁
  | failed {passes offset : Nat} {w : World} {body : Round} {e : Error} :
    Tests engine hold n limit passes w offset body.start →
    Ran engine hold n offset body.start body.outcome body.left → body.ends = some (.error e) →
      WhileRuns engine hold n pristine limit passes w [w] [body] (.error e) body.left
  | left {passes offset : Nat} {w w₁ : World} {body : Round} {ended : Flow} :
    Tests engine hold n limit passes w offset body.start →
    Ran engine hold n offset body.start body.outcome body.left → body.ends = some (.ok ended) →
    (restore n pristine).result hold body.left = (.ok (), w₁) →
      WhileRuns engine hold n pristine limit passes w [w] [body] (.ok ended) w₁
  | again {passes offset : Nat} {w w₁ w' : World} {body : Round} {tests : List World}
    {bodies : List Round} {ended : Except Error Flow} :
    Tests engine hold n limit passes w offset body.start →
    Ran engine hold n offset body.start body.outcome body.left → body.ends = none →
    (restore n pristine).result hold body.left = (.ok (), w₁) →
    WhileRuns engine hold n pristine limit (passes + 1) w₁ tests bodies ended w' →
      WhileRuns engine hold n pristine limit passes w (w :: tests) (body :: bodies) ended w'

/-! ## The ceiling -/

theorem ceiling_of_checked {f : Forest} {n : NodeId} (h : ¬ f.Unchecked n) (most : Nat) :
    ceiling most f n = some most := by
  unfold ceiling
  cases hfind : f.find? n uncheckedName with
  | none => rfl
  | some flag =>
    have hvalue : f.value flag = some (.bool false) := by
      by_contra hv
      exact h ⟨flag, hfind, hv⟩
    simp [hvalue, Value.asBool?]

theorem Forest.Grown.find?_eq {f g : Forest} (hg : f.Grown g) (wf : f.WellFormed) {n : NodeId}
    (hn : f.Has n) (name : String) : g.find? n name = f.find? n name := by
  unfold find?
  rw [hg.children_eq hn]
  have hsame : ∀ c ∈ f.children n, g.hasName name c = f.hasName name c := fun c hc => by
    rw [hasName, hasName, hg.name_eq (wf.has_child hc)]
  rw [← List.head?_filter, ← List.head?_filter, List.filter_congr hsame]

theorem Forest.Grown.ceiling_eq {f g : Forest} (hg : f.Grown g) (wf : f.WellFormed) {n : NodeId}
    (hn : f.Has n) (most : Nat) : ceiling most g n = ceiling most f n := by
  unfold ceiling
  rw [hg.find?_eq wf hn]
  cases hfind : f.find? n uncheckedName with
  | none => rfl
  | some flag => simp only [hg.value_eq (wf.has_child (List.mem_of_find?_eq_some hfind))]

theorem result_checkCeiling_of_le {hold : Hold} {w : World} {most passes : Nat} (h : most ≤ passes) :
    (checkCeiling (some most) passes).result hold w =
      (.error (.error (.ofCause (.tooManyPasses most))), w) := by
  unfold checkCeiling
  dsimp only
  rw [if_pos (by omega)]
  rfl

namespace WhileRuns

variable {engine : Engine} {hold : Hold} {n pristine : NodeId} {limit : Option Nat} {passes : Nat}
  {w w' : World} {tests : List World} {bodies : List Round} {ended : Except Error Flow}
  (h : WhileRuns engine hold n pristine limit passes w tests bodies ended w')

include h

theorem length_le {most : Nat} (hlimit : limit = some most) (hpasses : passes ≤ most) :
    passes + bodies.length ≤ most := by
  induction h with
  | unmet _ | untold _ | refused _ _ _ => simpa using hpasses
  | failed htests _ _ | left htests _ _ _ =>
    have hlt := htests.ceiling most hlimit
    simp only [List.length_singleton]
    omega
  | again htests _ _ _ _ ih =>
    have hlt := htests.ceiling most hlimit
    have hrest := ih (by omega)
    simp only [List.length_cons]
    omega

/-- When all passes that the ceiling allows went on, the condition is evaluated once more, and the loop
fails if it holds. -/
theorem refused_at_limit {most : Nat} (hlimit : limit = some most)
    (hall : passes + bodies.length = most) (hgoes : ∀ body ∈ bodies, body.ends = none) :
    ∃ test, tests[bodies.length]? = some test ∧
      ∀ offset u, (evaluateCondition engine n).result hold test = (.ok ⟨true, offset⟩, u) →
        ended = .error (.ofCause (.tooManyPasses most)) := by
  induction h with
  | unmet hcond =>
    refine ⟨_, rfl, fun offset u htrue => ?_⟩
    rw [hcond] at htrue
    cases htrue
  | untold hcond =>
    refine ⟨_, rfl, fun offset u htrue => ?_⟩
    rw [hcond] at htrue
    cases htrue
  | refused _ hsome _ =>
    refine ⟨_, rfl, fun offset u _ => ?_⟩
    rw [hlimit] at hsome
    cases hsome
    rfl
  -- The last body did not go on.
  | failed _ _ hends | left _ _ hends _ =>
    rw [hgoes _ (List.mem_singleton_self _)] at hends
    cases hends
  | again _ _ _ _ _ ih =>
    refine ih ?_ fun body hb => hgoes body (List.mem_cons_of_mem _ hb)
    rw [List.length_cons] at hall
    omega

theorem ended_ne : ended ≠ .ok .breaking ∧ ended ≠ .ok .continuing := by
  induction h with
  | unmet _ | untold _ | refused _ _ _ | failed _ _ _ => simp
  | left _ _ hends _ => exact (Round.ended_of_ends hends).2.2
  | again _ _ _ _ _ ih => exact ih

end WhileRuns

/-! ## Every run is such a run -/

section Runs

variable {engine : Engine} (he : engine.Keeping) {P : Plot} {hold : Hold} {n pristine : NodeId}
  {limit : Option Nat}

include he

theorem whilePasses_pass {fuel passes offset : Nat} {w w₁ w' : World} {ended : Except Error Flow}
    (hw : P.Ready w₁) (hn : P.Mine w₁.forest.size n)
    (htests : Tests engine hold n limit passes w offset w₁)
    (hrun : (whilePasses engine n pristine limit (fuel + 1) passes).result hold w =
      (resumed ended, w')) :
    ∃ body : Round, body.start = w₁ ∧ Ran engine hold n offset w₁ body.outcome body.left ∧
      P.After w₁ body.left ∧
      ((∃ e, body.ends = some (.error e) ∧ ended = .error e ∧ w' = body.left) ∨
        ∃ w₂, (restore n pristine).result hold body.left = (.ok (), w₂) ∧
          ((∃ flow, body.ends = some (.ok flow) ∧ ended = .ok flow ∧ w' = w₂) ∨
            body.ends = none ∧
              (whilePasses engine n pristine limit fuel (passes + 1)).result hold w₂ =
                (resumed ended, w'))) := by
  rcases hbody : (execute engine n offset).result hold w₁ with ⟨(e | _) | flow, w₂⟩
  · have hended : (execute engine n offset).result hold w₁ = (resumed (.error e), w₂) := hbody
    have hafter := (Plot.Keeps.execute he offset hn).after_ended hw hended
    rw [whilePasses, result_bind_ok htests.condition, if_pos rfl,
      result_bind_ok (result_checkCeiling htests.ceiling), result_bind_error hbody] at hrun
    rcases ended with e' | flow <;> cases hrun
    exact ⟨⟨w₁, .error e, _⟩, rfl, .of_result hended, hafter, Or.inl ⟨e, rfl, rfl, rfl⟩⟩
  · rw [whilePasses, result_bind_ok htests.condition, if_pos rfl,
      result_bind_ok (result_checkCeiling htests.ceiling), result_bind_error hbody] at hrun
    rcases ended with e | flow <;> cases hrun
  · obtain ⟨hafter, -⟩ := (Plot.Keeps.execute he offset hn).after_ok hw hbody
    have hrestore := result_restore hold hafter.tended.wellFormed (hn.mono hafter.size_le).2 pristine
    rw [result_whilePasses htests hbody, Pass.close, Pass.tidy, if_pos rfl,
      result_bind_ok hrestore] at hrun
    refine ⟨⟨w₁, .ok flow, w₂⟩, rfl, .of_result hbody, hafter, Or.inr ⟨_, hrestore, ?_⟩⟩
    cases hends : flow.pastLoop with
    | some past =>
      rw [hends] at hrun
      rcases ended with e | flow' <;> cases hrun
      exact Or.inl ⟨past, by simp [Round.ends, hends], rfl, rfl⟩
    | none =>
      rw [hends] at hrun
      exact Or.inr ⟨by simp [Round.ends, hends], hrun⟩

theorem whilePasses_runs {fuel passes : Nat} {w w' : World} {ended : Except Error Flow}
    (hw : P.Ready w) (hn : P.Mine w.forest.size n)
    (hrun : (whilePasses engine n pristine limit fuel passes).result hold w = (resumed ended, w')) :
    ∃ tests bodies, WhileRuns engine hold n pristine limit passes w tests bodies ended w' := by
  induction fuel generalizing passes w with
  | zero => rcases ended with e | flow <;> cases hrun
  | succ fuel ih =>
    rcases hcond : (evaluateCondition engine n).result hold w with ⟨(e | _) | ⟨value, offset⟩, w₁⟩
    · rw [whilePasses, result_bind_error hcond] at hrun
      rcases ended with e' | flow <;> cases hrun
      exact ⟨_, _, .untold hcond⟩
    · rw [whilePasses, result_bind_error hcond] at hrun
      rcases ended with e | flow <;> cases hrun
    cases value with
    | false =>
      rw [whilePasses, result_bind_ok hcond] at hrun
      rcases ended with e | flow <;> cases hrun
      exact ⟨_, _, .unmet hcond⟩
    | true =>
      by_cases hmost : ∃ most, limit = some most ∧ most ≤ passes
      · obtain ⟨most, rfl, hle⟩ := hmost
        rw [whilePasses, result_bind_ok hcond, if_pos rfl,
          result_bind_error (result_checkCeiling_of_le hle)] at hrun
        rcases ended with e | flow <;> cases hrun
        exact ⟨_, _, .refused hcond rfl hle⟩
      -- The condition holds and there is a pass left, so the body runs.
      have htests : Tests engine hold n limit passes w offset w₁ :=
        ⟨hcond, fun most hlimit => by_contra fun h => hmost ⟨most, hlimit, by omega⟩⟩
      have h₁ := htests.after he hn hw
      have hn₁ := hn.mono h₁.size_le
      obtain ⟨body, rfl, hran, h₂, ⟨e, hends, rfl, rfl⟩ | ⟨w₂, hrestore, hpast⟩⟩ :=
        whilePasses_pass he (h₁.ready hw) hn₁ htests hrun
      · exact ⟨_, _, .failed htests hran hends⟩
      · rcases hpast with ⟨flow, hends, rfl, rfl⟩ | ⟨hends, hrest⟩
        · exact ⟨_, _, .left htests hran hends hrestore⟩
        · have hn₂ := hn₁.mono h₂.size_le
          have h₃ := ((Plot.Keeps.restore hn₂).after_ok (h₂.ready (h₁.ready hw)) hrestore).1
          obtain ⟨tests, bodies, hruns⟩ :=
            ih (((h₁.trans h₂).trans h₃).ready hw) (hn₂.mono h₃.size_le) hrest
          exact ⟨_, _, .again htests hran hends hrestore hruns⟩

theorem WhileRuns.contents_tests {passes : Nat} {w w' : World} {tests : List World}
    {bodies : List Round} {ended : Except Error Flow}
    {shown : Option (Value (Tree Selector) Selector) × List (Tree Selector)}
    (h : WhileRuns engine hold n pristine limit passes w tests bodies ended w')
    (hw : P.Ready w) (hn : P.Mine w.forest.size n)
    (hback : ∀ u, P.Tended u → (u.restored n pristine).contents n = shown)
    (hstart : w.forest.contents n = shown) : ∀ test ∈ tests, test.forest.contents n = shown := by
  induction h with
  | unmet _ | untold _ | refused _ _ _ | failed _ _ _ | left _ _ _ _ => simpa using hstart
  | again htests hran _ hrestore _ ih =>
    have h₁ := htests.after he hn hw
    have hn₁ := hn.mono h₁.size_le
    have h₂ := (Plot.Keeps.execute he _ hn₁).after_ended (h₁.ready hw) hran.result_eq
    have hn₂ := hn₁.mono h₂.size_le
    have hput := result_restore hold h₂.tended.wellFormed hn₂.2 pristine
    obtain rfl := (Prod.mk.inj (hput.symm.trans hrestore)).2
    have h₃ := ((Plot.Keeps.restore hn₂).after_ok (h₂.ready (h₁.ready hw)) hput).1
    refine List.forall_mem_cons.mpr ⟨hstart, ?_⟩
    apply ih (((h₁.trans h₂).trans h₃).ready hw) (hn₂.mono h₃.size_le)
    rw [World.forest_on]
    exact hback _ h₂.tended

end Runs

/-! ## The main statement -/

/-- In a core context, whatever the body is and however it ends, `while` finds its node as it was at each
evaluation of its condition and leaves it so. Its body runs no more often than the settings allow, unless
the node says otherwise, and when the condition still holds then, the loop fails. -/
theorem while_restores_node {m : Machine} (hm : m.IsCore) {patience : Nat} {hold : Hold} {call : Call}
    {w w' : World} {outcome : Except Stop Flow} (hw : w.Sound) (hlisteners : w.session.bindings = [])
    (hn : w.forest.Has call.node) (hfinite : w.forest.IsFinite call.node)
    (hrun : (whileLoop (m.engine patience (m.perform patience)) call).result hold w = (outcome, w'))
    (hend : outcome ≠ .error .stalled) :
    ∃ tests bodies ended u,
      WhileRuns (m.engine patience (m.perform patience)) hold call.node (w.forest.copy call.node).1
        (ceiling m.settings.maxIterations w.forest call.node) 0 (w.on (w.forest.copy call.node).2)
        tests bodies ended u ∧
      outcome = resumed ended ∧ w' = u.on (u.forest.restored call.node (w.forest.copy call.node).1) ∧
      (∀ test ∈ tests, test.forest.contents call.node = w.forest.contents call.node) ∧
      w'.forest.contents call.node = w.forest.contents call.node ∧
      outcome ≠ .ok .breaking ∧ outcome ≠ .ok .continuing ∧
      (¬ w.forest.Unchecked call.node →
        bodies.length ≤ m.settings.maxIterations ∧
        (bodies.length = m.settings.maxIterations →
          (∀ body ∈ bodies, body.outcome = .ok .normal ∨ body.outcome = .ok .continuing) →
          ∃ test, tests[m.settings.maxIterations]? = some test ∧
            ∀ offset v, (evaluateCondition (m.engine patience (m.perform patience))
                call.node).result hold test = (.ok ⟨true, offset⟩, v) →
              ∃ e, outcome = .error (.error e) ∧ e.kind = .resourceExhausted)) := by
  have wf := hw.wellFormed
  have hc := Forest.copied wf call.node
  have he := hm.keeping patience
  have hready := hw.ready_besideCopy hlisteners call.node
  have hmine : (Plot.besideCopy wf call.node).Mine (w.forest.copy call.node).2.size call.node :=
    ⟨Or.inl hn, hc.grown.has hn⟩
  unfold whileLoop at hrun
  obtain ⟨ended, u, hloop, hafter, rfl, rfl⟩ := restoring_ends wf hn hrun hend hready
    (Plot.Keeps.askAny.bind fun b limit hb _ =>
      Plot.Keeps.whilePasses he (hmine.mono hb) _ limit patience 0)
  rw [result_bind_ok (result_ask _), World.forest_on, hc.grown.ceiling_eq wf hn] at hloop
  obtain ⟨tests, bodies, hruns⟩ := whilePasses_runs he hready hmine hloop
  have hstart : (w.forest.copy call.node).2.contents call.node = w.forest.contents call.node :=
    hfinite.contents_unchanged wf hn (fun k hk _ => hc.grown.cell_eq k hk) hc.wellFormed
      hc.grown.size_le
  have hback : ∀ f, (Plot.besideCopy wf call.node).Tended f →
      (f.restored call.node (w.forest.copy call.node).1).contents call.node =
        w.forest.contents call.node := fun f ht => ht.contents_back hn hfinite
  refine ⟨tests, bodies, ended, u, hruns, rfl, rfl, ?_, ?_, ?_⟩
  · apply hruns.contents_tests he hready hmine hback
    rw [World.forest_on]
    exact hstart
  · rw [World.forest_on]
    exact hback u.forest hafter.tended
  obtain ⟨hbreaking, hcontinuing⟩ := hruns.ended_ne
  refine ⟨fun h => hbreaking (resumed_eq_ok_iff.mp h), fun h => hcontinuing (resumed_eq_ok_iff.mp h),
    fun hchecked => ?_⟩
  have hlimit := ceiling_of_checked hchecked m.settings.maxIterations
  have hlength := hruns.length_le hlimit (Nat.zero_le _)
  rw [Nat.zero_add] at hlength
  refine ⟨hlength, fun hall hgoes => ?_⟩
  obtain ⟨test, htest, hrefused⟩ := hruns.refused_at_limit hlimit (by omega)
    fun body hb => Round.ends_eq_none_iff.mpr (hgoes body hb)
  refine ⟨test, hall ▸ htest, fun offset v hcond => ?_⟩
  rw [hrefused offset v hcond]
  exact ⟨_, rfl, rfl⟩

/-- A loop whose body makes its condition false. The loop is put back, so it holds again. -/
def treadmill : Tree Selector :=
  ⟨"while", some (.bool true),
    [⟨"set", some (.selector ⟨"/.?value", [.parent], .value⟩), [⟨"src", some (.bool false), []⟩]⟩]⟩

theorem while_restores_node_of_treadmill :
    let w : World := ⟨(Forest.plant treadmill .empty).2, default, default⟩
    let m : Machine := ⟨⟨2, 512, false⟩, coreTable⟩
    let result := (whileLoop (m.engine 8 (m.perform 8)) (.plain "while" ⟨0⟩)).result ⟨[], []⟩ w
    result.1 = .error (.error (.ofCause (.tooManyPasses 2))) ∧
      result.2.forest.contents ⟨0⟩ = w.forest.contents ⟨0⟩ ∧
      ∃ tests bodies ended u,
        WhileRuns (m.engine 8 (m.perform 8)) ⟨[], []⟩ ⟨0⟩ (w.forest.copy ⟨0⟩).1 (some 2) 0
          (w.on (w.forest.copy ⟨0⟩).2) tests bodies ended u ∧
        (∀ test ∈ tests, test.forest.contents ⟨0⟩ = w.forest.contents ⟨0⟩) ∧ bodies.length ≤ 2 := by
  intro w m result
  have herror : result.1 = .error (.error (.ofCause (.tooManyPasses 2))) := by decide +kernel
  have hplanted := Forest.revived_plant Forest.wellFormed_empty treadmill
  have hchecked : ¬ w.forest.Unchecked ⟨0⟩ := by
    rintro ⟨flag, hflag, -⟩
    have hnone : w.forest.find? ⟨0⟩ uncheckedName = none := by decide
    rw [hnone] at hflag
    cases hflag
  obtain ⟨tests, bodies, ended, u, hruns, -, -, htests, hcontents, -, -, hlimit⟩ :=
    while_restores_node (m := m) (Machine.isCore_coreTable _) (w := w)
      ⟨hplanted.wellFormed, fun call hcall => by cases hcall⟩ rfl hplanted.has hplanted.finite
      (Prod.eta result).symm (by rw [herror]; simp)
  exact ⟨herror, hcontents, tests, bodies, ended, u, hruns, htests, (hlimit hchecked).1⟩

end EventTree
