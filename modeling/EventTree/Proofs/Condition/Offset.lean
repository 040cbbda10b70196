import EventTree.Proofs.Condition.Reach
import EventTree.Proofs.Signal.Passing

/-!
# Where the body begins

Data and operators at the front of a conditional node belong to its condition, and the offset of a test
counts them. They are counted before the operators run. Markers that operators put there are gone again at
the end, but markers that stood there before are counted and then taken away.

Main statement: from the offset on stands the body without its markers and without as many children more
at its front as there were markers among those counted. So the offset is where the body begins exactly if
there were no markers, or if there is no body.
-/

namespace EventTree

open EventTree.Action Keyword

/-! ## Lists that are filtered -/

section Lists

variable {α : Type} (p : α → Bool)

theorem drop_filter_append (l r : List α) :
    ((l ++ r).filter p).drop l.length = (r.filter p).drop (l.countP (!p ·)) := by
  have hcount := List.length_eq_countP_add_countP p (l := l)
  have hkept : (l.filter p).length = l.countP p := List.countP_eq_length_filter.symm
  have hnone : (l.filter p).drop l.length = [] := List.drop_eq_nil_of_le (List.length_filter_le p l)
  have hrest : l.length - (l.filter p).length = l.countP (!p ·) := by
    simp only [Bool.not_eq_true, Bool.decide_eq_false] at hcount
    omega
  rw [List.filter_append, List.drop_append, hnone, hrest, List.nil_append]

theorem drop_filter_eq_self_iff (l : List α) (k : Nat) :
    (l.filter p).drop k = l ↔ l = [] ∨ k = 0 ∧ ∀ a ∈ l, p a = true := by
  constructor
  · intro h
    have hlength := congrArg List.length h
    rw [List.length_drop] at hlength
    have hle := List.length_filter_le p l
    by_cases hl : l = []
    · exact .inl hl
    · have hpos := List.length_pos_of_ne_nil hl
      -- Nothing is dropped and nothing is filtered out, or the rest would be shorter.
      have hall : (l.filter p).length = l.length := by omega
      exact .inr ⟨by omega, List.length_filter_eq_length_iff.mp hall⟩
  · rintro (rfl | ⟨rfl, hall⟩)
    · simp
    · rw [List.filter_eq_self.mpr hall, List.drop_zero]

end Lists

/-! ## Before the body -/

namespace Forest

variable {f g : Forest} {n : NodeId}

/-- Data and operators may stand before a body. -/
def leads (f : Forest) (c : NodeId) : Bool := !f.isStatement c || decide (f.name c ∈ operators)

/-- The children before the body of a conditional node. -/
def lead (f : Forest) (n : NodeId) : List NodeId := (f.children n).takeWhile f.leads

/-- The body of a conditional node: the first child that is neither data nor an operator, and all after it. -/
def body (f : Forest) (n : NodeId) : List NodeId := (f.children n).dropWhile f.leads

theorem lead_append_body (f : Forest) (n : NodeId) : f.lead n ++ f.body n = f.children n :=
  List.takeWhile_append_dropWhile

theorem leadingOperators_takeWhile (f : Forest) (cs : List NodeId) :
    f.leadingOperators operators cs =
      ((cs.takeWhile f.leads).filter f.isStatement, (cs.takeWhile f.leads).length) := by
  induction cs with
  | nil => rfl
  | cons c cs ih =>
    rw [leadingOperators, ih]
    by_cases hdata : isDataName (f.name c) = true
    · simp [leads, isStatement, hdata]
    · by_cases hname : f.name c ∈ operators
      · simp [leads, isStatement, hdata, hname]
      · simp [leads, isStatement, hdata, hname]

theorem conditionsOf_of_hasValue (hvalue : f.hasValue n = true) :
    f.conditionsOf operators n = .ok ((f.lead n).filter f.isStatement, (f.lead n).length) := by
  rw [conditionsOf, if_pos hvalue, leadingOperators_takeWhile, lead]

theorem RaisesOperators.of_lead (hvalue : f.hasValue n = true)
    (hlogic : ∀ c ∈ f.lead n, f.name c = "and" ∨ f.name c = "or" → f.RaisesOperators c) :
    f.RaisesOperators n := by
  have hconditions : ∀ {conditions offset}, f.conditionsOf operators n = .ok (conditions, offset) →
      (f.lead n).filter f.isStatement = conditions := fun h =>
    congrArg Prod.fst (Except.ok.inj ((conditionsOf_of_hasValue hvalue).symm.trans h))
  refine .mk (fun _ _ h c hc => ?_) fun _ _ h c hc => ?_
  · obtain ⟨hlead, hstatement⟩ := List.mem_filter.mp (hconditions h ▸ hc)
    simpa [leads, hstatement] using List.all_eq_true.mp List.all_takeWhile c hlead
  · exact hlogic c (List.mem_filter.mp (hconditions h ▸ hc)).1

/-! ## After a test -/

section Judged

variable {condition : Condition} (h : f.Judged n condition g)

include h

theorem Judged.children_filter : g.children n = (f.children n).filter (f.name · ≠ markerName) := by
  rw [← h.disturbed.children_eq, List.filter_eq_self.mpr fun k hk => decide_eq_true (h.unmarked k hk)]

variable (hvalue : f.hasValue n = true)

include hvalue

theorem Judged.offset_eq : condition.offset = (f.lead n).length := by
  obtain ⟨conditions, hconditions⟩ := h.offset
  rw [conditionsOf_of_hasValue hvalue] at hconditions
  exact (congrArg Prod.snd (Except.ok.inj hconditions)).symm

theorem Judged.drop_offset : (g.children n).drop condition.offset =
    ((f.body n).filter (f.name · ≠ markerName)).drop ((f.lead n).countP (f.name · = markerName)) := by
  have hmarkers : (fun c => !decide (f.name c ≠ markerName)) = fun c => decide (f.name c = markerName) := by
    simp
  rw [h.children_filter, h.offset_eq hvalue, ← lead_append_body, drop_filter_append, hmarkers]

theorem Judged.drop_offset_eq_body_iff : (g.children n).drop condition.offset = f.body n ↔
    f.body n = [] ∨ ∀ c ∈ f.children n, f.name c ≠ markerName := by
  rw [h.drop_offset hvalue, drop_filter_eq_self_iff, List.countP_eq_zero, ← lead_append_body,
    List.forall_mem_append]
  simp

end Judged

end Forest

theorem result_whilePasses_holding {engine : Engine} {hold : Hold} {w w' : World} {n pristine : NodeId}
    {limit : Option Nat} {fuel passes offset : Nat}
    (hcondition : (evaluateCondition engine n).result hold w = (.ok ⟨true, offset⟩, w'))
    (hlimit : ∀ most, limit = some most → passes < most) :
    (whilePasses engine n pristine limit (fuel + 1) passes).result hold w =
      (execute engine n offset >>= Pass.close ⟨n, pristine, true,
        whilePasses engine n pristine limit fuel (passes + 1)⟩).result hold w' := by
  rw [whilePasses, result_bind_ok hcondition, if_pos rfl, result_bind_ok (result_checkCeiling hlimit)]
  refine congrArg (Action.result · hold w') (bind_congr fun flow => ?_)
  cases flow <;> rfl

/-- What stands from the offset on when a test has succeeded, which is what `if` and `while` execute: nothing
of the condition, and of the body all but its markers and as many children at the front as there were
markers before the body. -/
theorem offset_passes_over_condition {m : Machine} (hm : m.IsCore) {patience : Nat} {hold : Hold}
    {w w' : World} {n : NodeId} {condition : Condition} (wf : w.forest.WellFormed)
    (hvalue : w.forest.hasValue n = true) (hr : w.forest.RaisesOperators n) (hw : PlainOperators w)
    (htest : (evaluateCondition (m.engine patience (m.perform patience)) n).result hold w =
      (.ok condition, w')) :
    condition.offset = (w.forest.lead n).length ∧
    w'.forest.children n = (w.forest.children n).filter (w.forest.name · ≠ markerName) ∧
    (w'.forest.children n).drop condition.offset =
      ((w.forest.body n).filter (w.forest.name · ≠ markerName)).drop
        ((w.forest.lead n).countP (w.forest.name · = markerName)) ∧
    ((w'.forest.children n).drop condition.offset = w.forest.body n ↔
      w.forest.body n = [] ∨ ∀ c ∈ w.forest.children n, w.forest.name c ≠ markerName) ∧
    (condition.value = true →
      (branch (m.engine patience (m.perform patience)) n).result hold w =
        (execute (m.engine patience (m.perform patience)) n condition.offset).result hold w' ∧
      ∀ pristine limit fuel passes, (∀ most, limit = some most → passes < most) →
        (whilePasses (m.engine patience (m.perform patience)) n pristine limit (fuel + 1)
            passes).result hold w =
          (execute (m.engine patience (m.perform patience)) n condition.offset >>=
            Pass.close ⟨n, pristine, true, whilePasses (m.engine patience (m.perform patience)) n pristine
              limit fuel (passes + 1)⟩).result hold w') := by
  obtain ⟨v, hv⟩ := Option.isSome_iff_exists.mp hvalue
  obtain ⟨g, rfl, hg⟩ := judges hm hw hold w.forest n wf (Forest.has_of_value hv) hr condition w' htest
  refine ⟨hg.offset_eq hvalue, hg.children_filter, hg.drop_offset hvalue, hg.drop_offset_eq_body_iff hvalue,
    fun htrue => ?_⟩
  obtain ⟨value, offset⟩ := condition
  obtain rfl : value = true := htrue
  exact ⟨result_branch htest, fun pristine limit fuel passes hlimit => result_whilePasses_holding htest hlimit⟩

/-! ## A condition among markers -/

/-- A disjunction and a conjunction with a comparison, and markers in front of the body and in it. -/
def thicket : Tree Selector :=
  ⟨"if", some (.bool false),
    [⟨"_note", none, []⟩, ⟨"or", some (.bool true), []⟩, ⟨"_maybe", none, []⟩,
      ⟨"and", some (.int 1), [⟨"=", some (.int 1), []⟩]⟩, ⟨"lambda", none, []⟩, ⟨"_maybe", none, []⟩,
      ⟨"break", none, []⟩]⟩

namespace Thicket

def world : World := ⟨(Forest.plant thicket .empty).2, default, default⟩

def machine : Machine := ⟨.default, coreTable⟩

def engine : Engine := machine.engine 4 (machine.perform 4)

/-- The world that the test leaves. -/
def tested : World := ((evaluateCondition engine ⟨0⟩).result (.ofCall ⟨0⟩ ⟨0⟩) world).2

theorem test : (evaluateCondition engine ⟨0⟩).result (.ofCall ⟨0⟩ ⟨0⟩) world = (.ok ⟨true, 4⟩, tested) := by
  have hvalue : ((evaluateCondition engine ⟨0⟩).result (.ofCall ⟨0⟩ ⟨0⟩) world).1 = .ok ⟨true, 4⟩ := by
    decide +kernel
  rw [← hvalue, tested]

theorem raisesOperators : world.forest.RaisesOperators ⟨0⟩ := by
  have hlogic : ∀ n ∈ [(⟨0⟩ : NodeId), ⟨2⟩, ⟨4⟩], ∀ c ∈ world.forest.lead n,
      world.forest.name c = "and" ∨ world.forest.name c = "or" → n = ⟨0⟩ ∧ (c = ⟨2⟩ ∨ c = ⟨4⟩) := by decide
  refine .of_lead (by decide) fun c hc hname => ?_
  obtain ⟨-, rfl | rfl⟩ := hlogic ⟨0⟩ (by simp) c hc hname
  · refine .of_lead (by decide) fun d hd hname => ?_
    cases (hlogic ⟨2⟩ (by simp) d hd hname).1
  · refine .of_lead (by decide) fun d hd hname => ?_
    cases (hlogic ⟨4⟩ (by simp) d hd hname).1

end Thicket

theorem offset_passes_over_condition_of_thicket :
    Thicket.world.forest.RaisesOperators ⟨0⟩ ∧
      (evaluateCondition Thicket.engine ⟨0⟩).result (.ofCall ⟨0⟩ ⟨0⟩) Thicket.world =
        (.ok ⟨true, 4⟩, Thicket.tested) ∧
      Thicket.world.forest.body ⟨0⟩ = [⟨6⟩, ⟨7⟩, ⟨8⟩] ∧
      Thicket.tested.forest.children ⟨0⟩ = [⟨1⟩, ⟨2⟩, ⟨4⟩, ⟨6⟩, ⟨8⟩] ∧
      (Thicket.tested.forest.children ⟨0⟩).drop 4 = [⟨8⟩] ∧
      (branch Thicket.engine ⟨0⟩).result (.ofCall ⟨0⟩ ⟨0⟩) Thicket.world =
        (execute Thicket.engine ⟨0⟩ 4).result (.ofCall ⟨0⟩ ⟨0⟩) Thicket.tested := by
  obtain ⟨-, hchildren, hdrop, -, hrun⟩ := offset_passes_over_condition (m := Thicket.machine)
    (Machine.isCore_coreTable _) (Forest.planted thicket .empty Forest.wellFormed_empty).wellFormed
    (by decide) Thicket.raisesOperators (fun event _ => World.plain_start _ event) Thicket.test
  refine ⟨Thicket.raisesOperators, Thicket.test, by decide, hchildren.trans (by decide),
    hdrop.trans (by decide), (hrun rfl).1⟩

/-! ## A body that is not run -/

/-- A marker before the only statement. -/
def misled : Tree Selector :=
  ⟨"if", some (.int 1), [⟨"_maybe", none, []⟩, ⟨"break", none, []⟩]⟩

/-- The body is a `break` that stands behind a marker. The condition is true, but the body is not where the
offset says, so the branch ends normally. -/
theorem misled_passes_over_body :
    let w : World := ⟨(Forest.plant misled .empty).2, default, default⟩
    let m : Machine := ⟨.default, coreTable⟩
    let test := (evaluateCondition (m.engine 4 (m.perform 4)) ⟨0⟩).result (.ofCall ⟨0⟩ ⟨0⟩) w
    w.forest.body ⟨0⟩ = [⟨2⟩] ∧ w.forest.name ⟨2⟩ = "break" ∧
      test.1 = .ok ⟨true, 1⟩ ∧ test.2.forest.children ⟨0⟩ = [⟨2⟩] ∧
      (test.2.forest.children ⟨0⟩).drop 1 = [] ∧
      ((branch (m.engine 4 (m.perform 4)) ⟨0⟩).result (.ofCall ⟨0⟩ ⟨0⟩) w).1 = .ok .normal := by
  decide +kernel

end EventTree
