import EventTree.Proofs.Trap.Stages

/-!
# Traps take their course

When a sequence comes to a trap, the bodies run as the course of the trap says, the sequence goes on
behind the trap or ends as the trap did, and nothing is left of an error.
-/

namespace EventTree

open EventTree.Action Keyword

namespace Trap

variable {T : Trap}

/-! ## Bodies that ran -/

theorem Stands.nodup_nodes {f : Forest} (h : T.Stands f) (wf : f.WellFormed) : T.nodes.Nodup := by
  have hnodup := wf.nodup T.scope
  rw [h.children] at hnodup
  exact (List.nodup_append.mp (List.nodup_append.mp hnodup).2.1).1

section Counts

variable {engine : Engine} {hold : Hold} {w w' : World} {first pending final : Except Error Flow}
  {ran details : List NodeId}

/-- How often a `catch` runs: once after an error. -/
def timesCaught : Except Error Flow → Nat
  | .ok _ => 0
  | .error _ => 1

theorem Pending.count_onError (h : T.Pending engine hold w first pending ran details w')
    (hnodup : T.nodes.Nodup) {c : NodeId} (hc : T.onError = some c) :
    ran.count c = timesCaught first := by
  have hne : T.body ≠ c := by
    rintro rfl
    simp [nodes, hc] at hnodup
  cases h with
  | plain hran hnone =>
    cases first with
    | ok flow => simp [timesCaught, hne]
    | error e => simp [hnone e rfl] at hc
  | rescued _ hc' =>
    obtain rfl := Option.some.inj (hc.symm.trans hc')
    simp [timesCaught, hne]

theorem Pending.not_mem_last (h : T.Pending engine hold w first pending ran details w')
    (hnodup : T.nodes.Nodup) {l : NodeId} (hl : T.last = some l) : l ∉ ran := by
  have hne : T.body ≠ l := by
    rintro rfl
    simp [nodes, hl] at hnodup
  cases h with
  | plain => simpa using hne.symm
  | rescued _ hc =>
    simp only [nodes, hc, hl, Option.toList_some, List.nodup_cons,
      List.mem_singleton, List.singleton_append] at hnodup
    simp only [List.mem_cons, List.not_mem_nil, or_false, not_or]
    exact ⟨hne.symm, fun h => hnodup.2.1 h.symm⟩

theorem Course.count_onError (h : T.Course engine hold w first final ran details w')
    (hnodup : T.nodes.Nodup) {c : NodeId} (hc : T.onError = some c) :
    ran.count c = timesCaught first := by
  have hne : ∀ l, T.last = some l → l ≠ c := by
    rintro l hl rfl
    simp [nodes, hc, hl] at hnodup
  cases h with
  | bare _ hp => exact hp.count_onError hnodup hc
  | closed hl hp =>
    rw [List.count_append, hp.count_onError hnodup hc, List.count_cons_of_ne (hne _ hl),
      List.count_nil, Nat.add_zero]

theorem Course.count_last (h : T.Course engine hold w first final ran details w')
    (hnodup : T.nodes.Nodup) {l : NodeId} (hl : T.last = some l) : ran.count l = 1 := by
  cases h with
  | bare hnone => simp [hnone] at hl
  | closed hl' hp =>
    obtain rfl := Option.some.inj (hl.symm.trans hl')
    rw [List.count_append, List.count_eq_zero_of_not_mem (hp.not_mem_last hnodup hl)]
    simp

end Counts

/-! ## The trap in a sequence -/

theorem closing_of_normal {hold : Hold} {l : NodeId} (first : Except Error Flow) :
    T.closing hold l first (.ok .normal) = hold.adding [l] := by
  cases first <;> rfl

theorem closing_of_flow {hold : Hold} {l : NodeId} {flow : Flow} (hne : flow ≠ .normal) :
    T.closing hold l (.ok flow) (.ok flow) = (hold.adding [T.body]).goingBeside T.body l := by
  cases flow with
  | normal => exact absurd rfl hne
  | breaking | continuing | returning => rfl

theorem closing_of_error {hold : Hold} {l : NodeId} {e : Error} (hnone : T.onError = none) :
    T.closing hold l (.error e) (.error e) =
      (hold.adding [T.scope, T.body]).goingBeside T.body l := by
  rw [closing, hnone]
  simp

theorem closing_of_rescued {hold : Hold} {l c : NodeId} {e : Error} {second : Except Error Flow}
    (hc : T.onError = some c) (hne : second ≠ .ok .normal) :
    T.closing hold l (.error e) second = (hold.adding [T.scope, c]).goingBeside c l := by
  match second with
  | .ok .normal => exact absurd rfl hne
  | .ok .breaking | .ok .continuing | .ok (.returning _) | .error _ =>
    rw [closing, hc]
    simp

theorem overriding_normal (final : Except Error Flow) : overriding (.ok .normal) final = final := by
  match final with
  | .ok .normal | .ok .breaking | .ok .continuing | .ok (.returning _) | .error _ => rfl

theorem executeFrom_proceeds {engine : Engine} {scope x : NodeId} {hold : Hold} {w w' : World}
    {l r l' r' : List NodeId} {event : String} {final : Except Error Flow} (fuel : Nat)
    (hc : w.forest.children scope = l ++ x :: r) (hname : w.forest.name x = event)
    (hdata : isDataName event = false)
    (h : (engine.raiseFlow event x).result hold w = leaving event (resumed final, w'))
    (wf : w'.forest.WellFormed) (hc' : w'.forest.children scope = l' ++ x :: r') :
    (executeFrom engine scope (fuel + 1) l.length).result hold w =
      proceeding event final w' ((executeFrom engine scope fuel (l'.length + 1)).result hold
        w'.shallower) := by
  match final with
  | .ok .normal => exact executeFrom_of_normal fuel hc hname hdata h wf hc'
  | .ok .breaking | .ok .continuing | .ok (.returning _) | .error _ =>
    rw [executeFrom_of_not_normal fuel hc hname hdata] <;> rw [h]
    · rfl
    · simp [leaving, crossing, resumed]

section Sequence

variable {m : Machine} (hm : m.IsCore) {patience : Nat} {hold : Hold} (hs : T.scope ∈ hold.held)
  {w₁ : World} (hw : T.Poised w₁) {depth : Nat} (hdepth : w₁.session.depth = depth + 1)
  (hlimit : depth < m.settings.maxDepth)

include hm hs hw hdepth hlimit

theorem executeFrom_passes_catch (fuel : Nat) :
    (executeFrom (m.engine (patience + 1) (m.perform (patience + 1))) T.scope
        (T.onError.toList.length + fuel) (T.before.length + 1)).result hold w₁.shallower =
      (executeFrom (m.engine (patience + 1) (m.perform (patience + 1))) T.scope fuel
        (T.before.length + 1 + T.onError.toList.length)).result hold w₁.shallower := by
  cases hc : T.onError with
  | none => simp
  | some c =>
    have wf := hw.sound.wellFormed
    have hs' : T.scope ∈ (hold.adding [c]).held := List.mem_cons_of_mem _ hs
    have hsplit := hw.stands.split_onError hc
    have hfollows : (w₁.forest.seen (hold.adding [c])).follows "try" c := by
      rw [wf.follows_seen hs' hsplit, List.getLast?_concat]
      simp [Forest.hasName, hw.stands.body]
    -- No error is left in the scope, so there is nothing to catch.
    have hidle : (catchBlock (m.engine patience (m.perform patience)) (.plain "catch" c)).result
        (hold.adding [c]) w₁.shallower.deeper = (.ok .normal, w₁) := by
      rw [World.deeper_shallower hdepth]
      exact result_catchBlock_idle hfollows (wf.parent_seen hs' (wf.parent_of_split hsplit))
        (find?_trapped_none hw.stands.untrapped)
    have hraise := Machine.result_raiseKeyword hm rfl (by decide) (hw.shallower.calm.plain "catch" (by simp))
      (by simpa [World.shallower, hdepth] using hlimit) hidle (hw.calm.plain "catch" (by simp))
    have hstep := executeFrom_of_normal fuel (hw.shallower.stands.split_onError hc)
      (hw.stands.onError c hc) (by decide) hraise wf (hw.shallower.stands.split_onError hc)
    simpa [Nat.add_comm] using hstep

theorem Tame.close {w : World} (ht : T.Tame (m.engine patience (m.perform patience)) hold w)
    {first : Except Error Flow} {ran details : List NodeId}
    (hp : T.Pending (m.engine patience (m.perform patience)) hold w first (.ok .normal) ran details w₁)
    (fuel : Nat) :
    ∃ final ran' w₂,
      T.Course (m.engine patience (m.perform patience)) hold w first final ran' details w₂ ∧
      (executeFrom (m.engine (patience + 1) (m.perform (patience + 1))) T.scope
        (T.last.toList.length + fuel) (T.before.length + 1 + T.onError.toList.length)).result hold
          w₁.shallower = proceeding "finally" final w₂
            ((executeFrom (m.engine (patience + 1) (m.perform (patience + 1))) T.scope fuel
              (T.before.length + T.nodes.length)).result hold w₂.shallower) ∧
      T.Poised w₂ ∧ Left w₁ w₂ := by
  cases hl : T.last with
  | none =>
    refine ⟨.ok .normal, ran, w₁, .bare hl hp, ?_, hw, hw.sound, Nat.le_refl _, rfl,
      fun _ _ _ h => h⟩
    have hnext : T.before.length + T.nodes.length = T.before.length + 1 + T.onError.toList.length := by
      simp [nodes, hl]
      omega
    rw [hnext, Option.toList_none, List.length_nil, Nat.zero_add]
    rfl
  | some l =>
    obtain ⟨final, w₂, hran, hw₂, hleft⟩ := ht.run (hm.keeping patience) (.last hp hl) hw.sound
      hw.calm.bindings (hw.has_last hl)
    have hcourse := Course.closed hl hp hran
    rw [overriding_normal] at hcourse
    refine ⟨final, _, w₂, hcourse, ?_, hw₂, hleft⟩
    rw [closing_of_normal] at hran
    have hs' : T.scope ∈ (hold.adding [l]).held := List.mem_cons_of_mem _ hs
    obtain ⟨previous, hprevious, hplaced⟩ := hw.stands.placed hw.sound.wellFormed hs' hl
    have hfinally : (finallyBlock (m.engine patience (m.perform patience)) (.plain "finally" l)).result
        (hold.adding [l]) w₁.shallower.deeper = (resumed final, w₂) := by
      rw [World.deeper_shallower hdepth, result_finallyBlock hprevious hplaced, hran.result_eq]
    have hraise := Machine.result_raiseKeyword hm rfl (by decide)
      (hw.shallower.calm.plain "finally" (by simp)) (by simpa [World.shallower, hdepth] using hlimit)
      hfinally (hw₂.calm.plain "finally" (by simp))
    have hstep := executeFrom_proceeds fuel (hw.shallower.stands.split_last hl)
      (hw.stands.last l hl) (by decide) hraise hw₂.sound.wellFormed (hw₂.stands.split_last hl)
    have hfuel : [l].length + fuel = fuel + 1 := Nat.add_comm 1 fuel
    have hhere : T.before.length + 1 + T.onError.toList.length =
        (T.before ++ T.body :: T.onError.toList).length := by
      rw [List.length_append, List.length_cons]
      omega
    have hnext : T.before.length + T.nodes.length =
        (T.before ++ T.body :: T.onError.toList).length + 1 := by
      simp [nodes, hl, Nat.add_assoc]
    rw [Option.toList_some, hfuel, hhere, hnext]
    exact hstep

end Sequence

theorem proceeding_of_ne {event : String} {final : Except Error Flow} (hne : final ≠ .ok .normal)
    (w : World) (rest rest' : Except Stop Flow × World) :
    proceeding event final w rest = proceeding event final w rest' := by
  match final with
  | .ok .normal => exact absurd rfl hne
  | .ok .breaking | .ok .continuing | .ok (.returning _) | .error _ => rfl

theorem executeFrom_catch {m : Machine} (hm : m.IsCore) {patience fuel : Nat} {hold : Hold}
    {w u w₁ : World} (hw : T.Poised w) {depth : Nat} (hdepth : u.session.depth = depth + 1)
    (hlimit : depth < m.settings.maxDepth) {e : Error} {c : NodeId} (hc : T.onError = some c)
    (hu : T.Trapped e w u) (hw₁ : T.Poised w₁) {outcome : Except Error Flow}
    (h : (catchBlock (m.engine patience (m.perform patience)) (.plain "catch" c)).result
      (hold.adding [c]) u = (resumed outcome, w₁)) :
    (executeFrom (m.engine (patience + 1) (m.perform (patience + 1))) T.scope (fuel + 1)
        (T.before.length + 2)).result hold u.shallower =
      proceeding "catch" outcome w₁
        ((executeFrom (m.engine (patience + 1) (m.perform (patience + 1))) T.scope fuel
          (T.before.length + 2)).result hold w₁.shallower) := by
  rw [← World.deeper_shallower hdepth] at h
  have hname : u.forest.name c = "catch" := by
    rw [hu.name_eq hw (hw.has_onError hc), hw.stands.onError c hc]
  have hraise := Machine.result_raiseKeyword hm rfl (by decide)
    (hu.plain (hw.calm.plain "catch" (by simp))).shallower
    (by simpa [World.shallower, hdepth] using hlimit) h (hw₁.calm.plain "catch" (by simp))
  have hsplit : u.shallower.forest.children T.scope = _ := hu.split_onError hw hc
  have hstep := executeFrom_proceeds fuel hsplit hname (by decide) hraise
    hw₁.sound.wellFormed (hw₁.stands.split_onError hc)
  rw [List.length_cons, List.length_append, List.length_singleton] at hstep
  exact hstep

/-- A run of a sequence that comes to a trap takes the course of the trap. -/
def Takes (T : Trap) (m : Machine) (patience : Nat) (hold : Hold) (fuel : Nat) (w : World)
    (run : Except Stop Flow × World) : Prop :=
  ∃ event first final ran details w', event ∈ ["try", "catch", "finally"] ∧
    T.Course (m.engine patience (m.perform patience)) hold w first final ran details w' ∧
    run = proceeding event final w'
      ((executeFrom (m.engine (patience + 1) (m.perform (patience + 1))) T.scope fuel
        (T.before.length + T.nodes.length)).result hold w'.shallower) ∧
    T.Poised w' ∧ Gone details w'

section Body

variable {m : Machine} (hm : m.IsCore) {patience : Nat} {hold : Hold} (hs : T.scope ∈ hold.held)
  {w w₁ : World} (hw : T.Poised w) (hclosed : T.Closed w.forest)
  (hdepth : w.session.depth < m.settings.maxDepth)
  (ht : T.Tame (m.engine patience (m.perform patience)) hold w.deeper) (hw₁ : T.Poised w₁)
  (hleft : Left w.deeper w₁) (fuel : Nat)

include hm hw hdepth

theorem executeFrom_try {outcome : Except Error Flow} {u : World} {l r : List NodeId}
    (htry : (tryBlock (m.engine patience (m.perform patience)) (.plain "try" T.body)).result
      (hold.adding [T.body]) w.deeper = (resumed outcome, u))
    (hplain : u.Plain "try") (wf : u.forest.WellFormed)
    (hsplit : u.forest.children T.scope = l ++ T.body :: r) :
    (executeFrom (m.engine (patience + 1) (m.perform (patience + 1))) T.scope
        (T.nodes.length + fuel) T.before.length).result hold w =
      proceeding "try" outcome u
        ((executeFrom (m.engine (patience + 1) (m.perform (patience + 1))) T.scope
          (T.onError.toList.length + (T.last.toList.length + fuel)) (l.length + 1)).result hold
            u.shallower) := by
  have hraise := Machine.result_raiseKeyword hm rfl (by decide) (hw.calm.plain "try" (by simp)) hdepth htry
    hplain
  have hfuel : T.nodes.length + fuel =
      (T.onError.toList.length + (T.last.toList.length + fuel)) + 1 := by
    rw [nodes, List.length_cons, List.length_append]
    omega
  rw [hfuel]
  exact executeFrom_proceeds _ hw.stands.split_body hw.stands.body (by decide) hraise wf hsplit

include ht hw₁

theorem takes_of_settled {first : Except Error Flow} {hold' : Hold}
    (hran : Ran (m.engine patience (m.perform patience)) (hold.adding [T.body]) T.body 0 w.deeper
      first w₁) (hne : first ≠ .ok .normal) (hnone : ∀ e, first = .error e → T.onError = none)
    (hhold : ∀ l, hold'.goingBeside T.body l = T.closing hold l first first)
    (htry : (tryBlock (m.engine patience (m.perform patience)) (.plain "try" T.body)).result
      (hold.adding [T.body]) w.deeper =
        (settle (m.engine patience (m.perform patience)) T.body T.last first).result hold' w₁) :
    T.Takes m patience hold fuel w.deeper
      ((executeFrom (m.engine (patience + 1) (m.perform (patience + 1))) T.scope
        (T.nodes.length + fuel) T.before.length).result hold w) := by
  have hpending := Pending.plain hran hnone
  obtain ⟨final, ran, w₂, hcourse, hsettle, hfinal, hw₂, -⟩ :=
    ht.run_settle (hm.keeping patience) hpending hne hw₁ hhold
  refine ⟨"try", first, final, ran, [], w₂, by simp, hcourse, ?_, hw₂, fun d hd => by cases hd⟩
  rw [executeFrom_try hm hw hdepth fuel (htry.trans hsettle) (hw₂.calm.plain "try" (by simp))
    hw₂.sound.wellFormed hw₂.stands.split_body]
  exact proceeding_of_ne hfinal w₂ _ _

include hs hclosed hleft

theorem takes_of_normal
    (hran : Ran (m.engine patience (m.perform patience)) (hold.adding [T.body]) T.body 0 w.deeper
      (.ok .normal) w₁) :
    T.Takes m patience hold fuel w.deeper
      ((executeFrom (m.engine (patience + 1) (m.perform (patience + 1))) T.scope
        (T.nodes.length + fuel) T.before.length).result hold w) := by
  have htry : (tryBlock (m.engine patience (m.perform patience)) (.plain "try" T.body)).result
      (hold.adding [T.body]) w.deeper = (resumed (.ok .normal), w₁) :=
    result_tryBlock_normal (hw.deeper.rescue_body hclosed hs) hran
  have hpending := Pending.plain hran fun e he => by cases he
  obtain ⟨final, ran, w₂, hcourse, hclose, hw₂, -⟩ :=
    ht.close hm hs hw₁ hleft.depth hdepth hpending fuel
  refine ⟨"finally", _, final, ran, [], w₂, by simp, hcourse, ?_, hw₂, fun d hd => by cases hd⟩
  rw [executeFrom_try hm hw hdepth fuel htry (hw₁.calm.plain "try" (by simp)) hw₁.sound.wellFormed
    hw₁.stands.split_body, ← hclose]
  exact executeFrom_passes_catch hm hs hw₁ hleft.depth hdepth _

theorem takes_of_rescued {e : Error} {c : NodeId} (hc : T.onError = some c)
    (hran : Ran (m.engine patience (m.perform patience)) (hold.adding [T.body]) T.body 0 w.deeper
      (.error e) w₁) :
    T.Takes m patience hold fuel w.deeper
      ((executeFrom (m.engine (patience + 1) (m.perform (patience + 1))) T.scope
        (T.nodes.length + fuel) T.before.length).result hold w) := by
  obtain ⟨u, hleave, hu⟩ := hw₁.leaveTrapped (hold.adding [T.body]) e
  have htry : (tryBlock (m.engine patience (m.perform patience)) (.plain "try" T.body)).result
      (hold.adding [T.body]) w.deeper = (resumed (.ok .normal), u) :=
    result_tryBlock_rescued (hw.deeper.rescue_body hclosed hs) hran (hw₁.parent_body hs) hc hleave
  have hfirst := executeFrom_try hm hw hdepth fuel htry (hu.plain (hw₁.calm.plain "try" (by simp)))
    hu.lent.wellFormed (hu.split_body hw₁)
  obtain ⟨second, details, w₂, hpending, hw₂, hdepth₂, hgone, hcatch⟩ :=
    ht.run_catch (hm.keeping patience) hs hran hw₁ hc hu
  have hdepthu : u.session.depth = w.session.depth + 1 := by rw [hu.session]; exact hleft.depth
  have hstep : ∀ outcome w₃, T.Poised w₃ →
      (catchBlock (m.engine patience (m.perform patience)) (.plain "catch" c)).result
        (hold.adding [c]) u = (resumed outcome, w₃) →
      (executeFrom (m.engine (patience + 1) (m.perform (patience + 1))) T.scope
          (T.nodes.length + fuel) T.before.length).result hold w =
        proceeding "catch" outcome w₃
          ((executeFrom (m.engine (patience + 1) (m.perform (patience + 1))) T.scope
            (T.last.toList.length + fuel) (T.before.length + 2)).result hold w₃.shallower) := by
    intro outcome w₃ hw₃ h
    rw [hfirst, ← executeFrom_catch hm hw₁ hdepthu hdepth hc hu hw₃ h, hc, Option.toList_some,
      List.length_singleton, Nat.add_comm 1]
    rfl
  -- After a normal end what comes last is a statement of its own, otherwise the `catch` runs it.
  by_cases hnormal : second = .ok .normal
  · subst hnormal
    rw [if_pos rfl] at hcatch
    obtain ⟨final, ran, w₃, hcourse, hclose, hw₃, hleft₃⟩ :=
      ht.close hm hs hw₂ (hdepth₂.trans hleft.depth) hdepth hpending fuel
    refine ⟨"finally", _, final, ran, details, w₃, by simp, hcourse, ?_, hw₃, hgone.left hleft₃⟩
    rw [hstep (.ok .normal) w₂ hw₂ hcatch, ← hclose, hc]
    rfl
  · rw [if_neg hnormal] at hcatch
    obtain ⟨final, ran, w₃, hcourse, hsettle, hfinal, hw₃, hleft₃⟩ :=
      ht.run_settle (hm.keeping patience) hpending hnormal hw₂ fun l =>
        (closing_of_rescued hc hnormal).symm
    refine ⟨"catch", _, final, ran, details, w₃, by simp, hcourse, ?_, hw₃, hgone.left hleft₃⟩
    rw [hstep _ w₃ hw₃ (hcatch.trans hsettle)]
    exact proceeding_of_ne hfinal w₃ _ _

end Body

end Trap

/-- When a sequence comes to a trap, the trap takes its course. The `catch` runs once after an error and
not at all otherwise, the `finally` runs once, and the sequence goes on behind the trap or ends as the
trap did. No error is left in the scope, and its details stand alone. -/
theorem trap_takes_course (m : Machine) (hm : m.IsCore) (patience fuel : Nat) (T : Trap) (hold : Hold)
    (w : World) (hscope : T.scope ∈ hold.held) (hw : T.Poised w) (hclosed : T.Closed w.forest)
    (hdepth : w.session.depth < m.settings.maxDepth)
    (htame : T.Tame (m.engine patience (m.perform patience)) hold w.deeper) :
    ∃ first final ran details w',
      T.Course (m.engine patience (m.perform patience)) hold w.deeper first final ran details w' ∧
      (∃ event ∈ ["try", "catch", "finally"],
        (executeFrom (m.engine (patience + 1) (m.perform (patience + 1))) T.scope
            (T.nodes.length + fuel) T.before.length).result hold w =
          Trap.proceeding event final w'
            ((executeFrom (m.engine (patience + 1) (m.perform (patience + 1))) T.scope fuel
              (T.before.length + T.nodes.length)).result hold w'.shallower)) ∧
      (∀ c, T.onError = some c → ran.count c = Trap.timesCaught first) ∧
      (∀ l, T.last = some l → ran.count l = 1) ∧
      T.Stands w'.forest ∧ ∀ d ∈ details, w'.forest.parent d = none := by
  obtain ⟨first, w₁, hran, hw₁, hleft⟩ := htame.run_body (hm.keeping patience) hw.deeper
  have htakes : T.Takes m patience hold fuel w.deeper
      ((executeFrom (m.engine (patience + 1) (m.perform (patience + 1))) T.scope
        (T.nodes.length + fuel) T.before.length).result hold w) := by
    -- How the body ended decides which keyword runs what comes last.
    cases first with
    | ok flow =>
      by_cases hnormal : flow = .normal
      · subst hnormal
        exact Trap.takes_of_normal hm hscope hw hclosed hdepth htame hw₁ hleft fuel hran
      · refine Trap.takes_of_settled hm hw hdepth htame hw₁ fuel hran (by simpa using hnormal)
          (fun e he => by cases he) (fun l => (Trap.closing_of_flow hnormal).symm) ?_
        exact result_tryBlock_flow (hw.deeper.rescue_body hclosed hscope) hnormal hran
    | error e =>
      cases hc : T.onError with
      | none =>
        refine Trap.takes_of_settled hm hw hdepth htame hw₁ fuel hran (by simp) (fun _ _ => hc)
          (fun l => (Trap.closing_of_error hc).symm) ?_
        exact result_tryBlock_error (hw.deeper.rescue_body hclosed hscope) hran
          (hw₁.parent_body hscope) hc
      | some c => exact Trap.takes_of_rescued hm hscope hw hclosed hdepth htame hw₁ hleft fuel hc hran
  obtain ⟨event, first, final, ran, details, w', hevent, hcourse, hrun, hw', hgone⟩ := htakes
  have hnodup := hw'.stands.nodup_nodes hw'.sound.wellFormed
  exact ⟨first, final, ran, details, w', hcourse, ⟨event, hevent, hrun⟩,
    fun c hc => hcourse.count_onError hnodup hc, fun l hl => hcourse.count_last hnodup hl, hw'.stands,
    fun d hd => (hgone d hd).2⟩

/-! ## A trap that is run -/

/-- A `try` that fails, with a `catch` that fails too and a `finally` that ends a loop. -/
def lapse : Tree Selector :=
  ⟨"root", none,
    [⟨"try", none, [⟨"throw", some (.string "lost"), []⟩]⟩,
      ⟨"catch", none, [⟨"throw", some (.string "worse"), []⟩]⟩, ⟨"finally", none, [⟨"break", none, []⟩]⟩]⟩

theorem result_throwStatement {engine : Engine} {call : Call} {message : String} {hold : Hold} {w : World}
    (wf : w.forest.WellFormed) (hvalue : w.forest.value call.node = some (.string message)) :
    (throwStatement engine call).result hold w = (.error (.error (.ofCause (.thrown message))), w) := by
  have hread : (observe fun f => (f.singleValue call.node).map f.text).result hold w =
      (.ok (some message), w) := by
    rw [result_observe, Forest.singleValue, (Forest.seen_pruned wf hold).value_eq, hvalue]
    rfl
  rw [throwStatement, result_bind_ok hread]
  rfl

/-- A body comes to a statement that ends it and leaves the world as it is. -/
theorem Ran.of_statement {m : Machine} (hm : m.IsCore) {patience : Nat} {hold : Hold} {w : World}
    {n x : NodeId} {l r : List NodeId} {event : String} {handler : Handler} {outcome : Except Stop Flow}
    {final : Except Error Flow} (hc : w.forest.children n = l ++ x :: r) (hname : w.forest.name x = event)
    (hdata : isDataName event = false) (hhandler : coreTable.handlersOf event = [handler])
    (hevent : event ≠ catchAll) (hw : w.Plain event) (hdepth : w.session.depth < m.settings.maxDepth)
    (hr : (handler (m.engine patience (m.perform patience)) (.plain event x)).result
      ((hold.adding [n]).adding [x]) w.deeper = (outcome, w.deeper))
    (hfinal : crossing event outcome = resumed final) (hend : final ≠ .ok .normal) :
    Ran (m.engine (patience + 1) (m.perform (patience + 1))) hold n l.length w final w := by
  have hraise := Machine.result_raiseKeyword hm hhandler hevent hw hdepth hr hw.deeper
  refine .of_result ?_
  change (executeFrom _ n (patience + 1) l.length).result (hold.adding [n]) w = _
  rw [executeFrom_of_not_normal patience hc hname hdata] <;> rw [hraise, leaving, hfinal]
  · rfl
  · match final with
    | .ok .normal => exact absurd rfl hend
    | .ok .breaking | .ok .continuing | .ok (.returning _) | .error _ => simp [resumed]

namespace Lapse

def trap : Trap := ⟨⟨0⟩, [], ⟨1⟩, some ⟨3⟩, some ⟨5⟩, [], Or.inl rfl⟩

def world : World := ⟨(Forest.plant lapse .empty).2, default, default⟩

def machine : Machine := ⟨.default, coreTable⟩

def engine : Engine := machine.engine 2 (machine.perform 2)

def hold : Hold := .ofCall ⟨0⟩ ⟨0⟩

def lost : Error := ⟨.thrown "lost", ["throw"]⟩

def worse : Error := ⟨.thrown "worse", ["throw"]⟩

theorem poised : trap.Poised world := by
  refine ⟨⟨by decide, by decide, ?_, ?_, ?_, by decide⟩, ⟨fun event _ => World.plain_start _ event, rfl⟩,
    (Forest.planted lapse .empty Forest.wellFormed_empty).wellFormed, ?_⟩
  · rintro c ⟨⟩
    decide
  · rintro l ⟨⟩
    decide
  · rintro ⟨⟩
  · rintro call ⟨⟩

theorem throws : Ran engine (hold.adding [⟨1⟩]) ⟨1⟩ 0 world.deeper (.error lost) world.deeper := by
  with_unfolding_all rfl

theorem throws_again {e : Error} {details : List NodeId} {w₁ w₂ : World} {hold' : Hold}
    (hran : Ran engine (hold.adding [⟨1⟩]) ⟨1⟩ 0 world.deeper (.error e) w₁)
    (ha : Armed ⟨3⟩ e w₁ details w₂) :
    e = lost ∧ trap.Poised w₂ ∧ Ran engine hold' ⟨3⟩ details.length w₂ (.error worse) w₂ := by
  obtain ⟨he, rfl⟩ := hran.unique throws
  obtain rfl := Except.error.inj he
  have hname : w₂.forest.name ⟨4⟩ = "throw" := ha.name_eq poised.deeper.sound (by decide)
  have hvalue : w₂.forest.value ⟨4⟩ = some (.string "worse") := by
    rw [ha.lent.value_eq]
    decide
  refine ⟨rfl, poised.deeper.armed rfl ha, ?_⟩
  exact .of_statement (Machine.isCore_coreTable _) ha.children hname (by decide) (by rfl) (by decide)
    ((World.plain_start _ _).deeper.of_eq ha.store ha.session) (by rw [ha.session]; decide)
    (result_throwStatement ha.lent.wellFormed hvalue) rfl (by simp)

theorem pending {first second : Except Error Flow} {ran details : List NodeId} {w₁ : World}
    (hp : trap.Pending engine hold world.deeper first second ran details w₁) :
    first = .error lost ∧ trap.Poised w₁ ∧
      Ran engine (trap.closing hold ⟨5⟩ first second) ⟨5⟩ 0 w₁ (.ok .breaking) w₁ := by
  cases hp with
  | plain hran hnone =>
    obtain ⟨rfl, -⟩ := Ran.unique hran throws
    cases hnone _ rfl
  | rescued hran hc ha hsecond hd =>
    cases hc
    obtain ⟨rfl, hw, hcatch⟩ := throws_again hran ha
    obtain ⟨-, rfl⟩ := hsecond.unique hcatch
    obtain ⟨-, rfl⟩ := hran.unique throws
    have hchildren : w₁.forest.children ⟨5⟩ = [⟨6⟩] := by
      rw [hd.givenBack.children_eq, if_neg (by decide),
        ha.children_eq poised.deeper.sound (by decide) (by decide)]
      decide
    have hname : w₁.forest.name ⟨6⟩ = "break" := by
      rw [hd.givenBack.name_eq, ha.name_eq poised.deeper.sound (by decide)]
      decide
    have hsession := hd.session.trans ha.session
    refine ⟨rfl, hw.disarmed rfl hd, ?_⟩
    exact .of_statement (l := []) (Machine.isCore_coreTable _) hchildren hname (by decide) (by rfl)
      (by decide) ((World.plain_start _ _).deeper.of_eq (hd.store.trans ha.store) hsession)
      (by rw [hsession]; decide) rfl rfl (by simp)

theorem tame : trap.Tame engine hold world.deeper := by
  intro n position hold₁ w₁ hstarted
  cases hstarted with
  | body => exact ⟨_, _, throws, poised.deeper.stands, poised.deeper.calm⟩
  | onError hran hc ha =>
    cases hc
    obtain ⟨-, hw, hcatch⟩ := throws_again hran ha
    exact ⟨_, _, hcatch, hw.stands, hw.calm⟩
  | last hp hl =>
    cases hl
    obtain ⟨-, hw, hfinally⟩ := pending hp
    exact ⟨_, _, hfinally, hw.stands, hw.calm⟩

theorem course_ends {first final : Except Error Flow} {ran details : List NodeId} {w' : World}
    (h : trap.Course engine hold world.deeper first final ran details w') :
    first = .error lost ∧ final = .ok .breaking := by
  cases h with
  | bare hnone => cases hnone
  | closed hl hp hran =>
    cases hl
    obtain ⟨rfl, -, hfinally⟩ := pending hp
    obtain ⟨rfl, -⟩ := hran.unique hfinally
    exact ⟨rfl, rfl⟩

end Lapse

theorem trap_takes_course_of_lapse :
    Lapse.trap.Tame Lapse.engine Lapse.hold Lapse.world.deeper ∧
      ∃ first final ran details w',
        Lapse.trap.Course Lapse.engine Lapse.hold Lapse.world.deeper first final ran details w' ∧
        first = .error Lapse.lost ∧ final = .ok .breaking ∧
        ran.count ⟨3⟩ = Trap.timesCaught first ∧ ran.count ⟨5⟩ = 1 ∧
        Lapse.trap.Stands w'.forest ∧ ∀ d ∈ details, w'.forest.parent d = none := by
  refine ⟨Lapse.tame, ?_⟩
  have hclosed : Lapse.trap.Closed Lapse.world.forest := by rintro n ⟨⟩
  obtain ⟨first, final, ran, details, w', hcourse, -, hcaught, hlast, hstands, hgone⟩ :=
    trap_takes_course Lapse.machine (Machine.isCore_coreTable _) 2 5 Lapse.trap Lapse.hold Lapse.world
      (by decide) Lapse.poised hclosed (by decide) Lapse.tame
  obtain ⟨hfirst, hfinal⟩ := Lapse.course_ends hcourse
  exact ⟨first, final, ran, details, w', hcourse, hfirst, hfinal, hcaught _ rfl, hlast _ rfl, hstands, hgone⟩

/-! ## A trap that does not stand -/

/-- A `catch` that gives the node after it the name `finally` and then fails. -/
def usurpation : Tree Selector :=
  ⟨"root", none,
    [⟨"try", none, [⟨"throw", some (.string "first"), []⟩]⟩,
      ⟨"catch", none,
        [⟨"set", some (.selector ⟨"/../x?name", [.root, .named "x"], .name⟩),
            [⟨"src", some (.string "finally"), []⟩]⟩,
          ⟨"throw", some (.string "second"), []⟩]⟩,
      ⟨"x", none, [⟨"return", some (.int 5), []⟩]⟩]⟩

/-- Where a body names the node after a trap `finally`, that node runs and its end counts. The children
of the scope and the names in the trap are as they were, and the trap has no `finally`. -/
theorem renamed_sibling_comes_last :
    let w : World := ⟨(Forest.plant usurpation .empty).2, default, default⟩
    let m : Machine := ⟨.default, coreTable⟩
    let result := (execute (m.engine 8 (m.perform 8)) ⟨0⟩ 0).result (.ofCall ⟨0⟩ ⟨0⟩) w
    w.forest.children ⟨0⟩ = [⟨1⟩, ⟨3⟩, ⟨7⟩] ∧
      [⟨1⟩, ⟨3⟩, ⟨7⟩].map w.forest.name = ["try", "catch", "x"] ∧
      result.2.forest.children ⟨0⟩ = [⟨1⟩, ⟨3⟩, ⟨7⟩] ∧
      [⟨1⟩, ⟨3⟩].map result.2.forest.name = ["try", "catch"] ∧
      result.1 = .ok (.returning ⟨13⟩) := by
  decide +kernel

end EventTree
