import EventTree.Proofs.Trap.Blocks

/-!
# The stages of a trap

A trap whose bodies leave it standing is poised again after each of them: after the body, while the
error is left in the scope, after the `catch` and after the `finally`.
-/

namespace EventTree

open EventTree.Action Keyword

/-! ## Worlds around a trap -/

namespace World

theorem Calm.of_eq {w w' : World} (h : w.Calm) (hstore : w'.store = w.store)
    (hsession : w'.session = w.session) : w'.Calm :=
  ⟨fun event he => (h.plain event he).of_eq hstore hsession, hsession ▸ h.bindings⟩

end World

namespace Trap

variable {T : Trap} {w w' : World}

theorem Poised.deeper (h : T.Poised w) : T.Poised w.deeper :=
  ⟨h.stands, ⟨fun event he => (h.calm.plain event he).deeper, h.calm.bindings⟩, h.sound.wellFormed, h.sound.base⟩

theorem Poised.shallower (h : T.Poised w) : T.Poised w.shallower :=
  ⟨h.stands, ⟨fun event he => (h.calm.plain event he).shallower, h.calm.bindings⟩, h.sound.wellFormed, h.sound.base⟩

theorem Poised.has_scope (h : T.Poised w) : w.forest.Has T.scope :=
  h.sound.wellFormed.has_parent (h.sound.wellFormed.parent_of_split h.stands.split_body)

theorem Poised.has_body (h : T.Poised w) : w.forest.Has T.body :=
  Forest.has_of_parent (h.sound.wellFormed.parent_of_split h.stands.split_body)

theorem Poised.has_onError (h : T.Poised w) {c : NodeId} (hc : T.onError = some c) :
    w.forest.Has c :=
  Forest.has_of_parent (h.sound.wellFormed.parent_of_split (h.stands.split_onError hc))

theorem Poised.has_last (h : T.Poised w) {l : NodeId} (hl : T.last = some l) : w.forest.Has l :=
  Forest.has_of_parent (h.sound.wellFormed.parent_of_split (h.stands.split_last hl))

theorem Poised.rescue_body (h : T.Poised w) (hclosed : T.Closed w.forest) {hold : Hold}
    (hs : T.scope ∈ hold.held) :
    rescue (w.forest.seen (hold.adding [T.body])) T.body = .ok ⟨T.onError, T.last⟩ :=
  h.stands.rescue_seen h.sound.wellFormed hclosed (List.mem_cons_of_mem _ hs)

theorem Poised.parent_body (h : T.Poised w) {hold : Hold} (hs : T.scope ∈ hold.held) :
    (w.forest.seen (hold.adding [T.body])).parent T.body = some T.scope :=
  h.sound.wellFormed.parent_seen (List.mem_cons_of_mem _ hs)
    (h.sound.wellFormed.parent_of_split h.stands.split_body)

section Run

variable {engine : Engine} {hold : Hold} (he : engine.Keeping) (ht : T.Tame engine hold w)

include he ht

theorem Tame.run {n : NodeId} {position : Nat} {hold₁ : Hold} {w₁ : World}
    (hstarted : T.Started engine hold w n position hold₁ w₁) (hw : w₁.Sound)
    (hb : w₁.session.bindings = []) (hn : w₁.forest.Has n) :
    ∃ outcome w₂, Ran engine hold₁ n position w₁ outcome w₂ ∧ T.Poised w₂ ∧ Left w₁ w₂ := by
  obtain ⟨outcome, w₂, hran, hstands, hcalm⟩ := ht n position hold₁ w₁ hstarted
  have hleft := hran.left he hw hb hn
  exact ⟨outcome, w₂, hran, ⟨hstands, hcalm, hleft.sound⟩, hleft⟩

theorem Tame.run_body (hw : T.Poised w) :
    ∃ first w₁, Ran engine (hold.adding [T.body]) T.body 0 w first w₁ ∧ T.Poised w₁ ∧ Left w w₁ :=
  ht.run he .body hw.sound hw.calm.bindings hw.has_body

theorem Tame.run_settle {first pending : Except Error Flow} {ran details : List NodeId} {w₁ : World}
    (hp : T.Pending engine hold w first pending ran details w₁) (hne : pending ≠ .ok .normal)
    (hw : T.Poised w₁) {n : NodeId} {hold' : Hold}
    (hhold : ∀ l, hold'.goingBeside n l = T.closing hold l first pending) :
    ∃ final ran' w₂, T.Course engine hold w first final ran' details w₂ ∧
      (settle engine n T.last pending).result hold' w₁ = (resumed final, w₂) ∧
      final ≠ .ok .normal ∧ T.Poised w₂ ∧ Left w₁ w₂ := by
  cases hl : T.last with
  | none =>
    have hself : Left w₁ w₁ := ⟨hw.sound, Nat.le_refl _, rfl, fun _ _ _ h => h⟩
    exact ⟨pending, ran, w₁, .bare hl hp, result_settle_none, hne, hw, hself⟩
  | some l =>
    obtain ⟨final, w₂, hran, hw₂, hleft⟩ :=
      ht.run he (.last hp hl) hw.sound hw.calm.bindings (hw.has_last hl)
    refine ⟨_, _, w₂, .closed hl hp hran, result_settle_some ?_, ?_, hw₂, hleft⟩
    · rwa [hhold l]
    · match final with
      | .ok .normal => exact hne
      | .ok .breaking | .ok .continuing | .ok (.returning _) | .error _ => simp [overriding]

end Run

end Trap

/-! ## The catch -/

/-- Nodes that are there but stand alone. -/
def Gone (nodes : List NodeId) (w : World) : Prop :=
  ∀ d ∈ nodes, w.forest.Has d ∧ w.forest.parent d = none

theorem Gone.left {nodes : List NodeId} {w w' : World} (h : Gone nodes w) (hleft : Left w w') :
    Gone nodes w' := by
  intro d hd
  obtain ⟨hhas, hroot⟩ := h d hd
  refine ⟨Nat.lt_of_lt_of_le hhas hleft.size_le, ?_⟩
  cases hp : w'.forest.parent d with
  | none => rfl
  | some p =>
    have hparent := hleft.parent d p hhas hp
    rw [hroot] at hparent
    cases hparent

namespace Armed

variable {c : NodeId} {e : Error} {w w₁ : World} {details : List NodeId}
  (ha : Armed c e w details w₁)

include ha

theorem size_le (hw : w.Sound) : w.forest.size ≤ w₁.forest.size := by
  rw [ha.lent.size_eq]
  exact (Forest.planted (trapped e) w.forest hw.wellFormed).grown.size_le

theorem sound (hw : w.Sound) : w₁.Sound := by
  refine ⟨ha.lent.wellFormed, fun call hc => ?_⟩
  rw [ha.session] at hc
  exact Nat.lt_of_lt_of_le (hw.base call hc) (ha.size_le hw)

theorem name_eq (hw : w.Sound) {n : NodeId} (hn : w.forest.Has n) :
    w₁.forest.name n = w.forest.name n := by
  rw [ha.lent.name_eq]
  exact (Forest.planted (trapped e) w.forest hw.wellFormed).grown.name_eq hn

/-- The details are new, so they come from below no node that was there. -/
theorem children_eq (hw : w.Sound) {n : NodeId} (hn : w.forest.Has n) (hne : n ≠ c) :
    w₁.forest.children n = w.forest.children n := by
  have hp := Forest.planted (trapped e) w.forest hw.wellFormed
  rw [ha.lent.children_ne n hne, hp.grown.children_eq hn, List.filter_eq_self]
  refine fun m hm => decide_eq_true fun hd => hp.not_has ?_
  rw [ha.details_eq, hp.wellFormed.linked, hp.grown.parent_eq (hw.wellFormed.has_child hm)] at hd
  exact hw.wellFormed.has_parent hd

theorem parent_detail {d : NodeId} (hd : d ∈ details) : w₁.forest.parent d = some c := by
  rw [ha.lent.parent_eq, if_pos hd]

end Armed

theorem Disarmed.gone {c : NodeId} {w w₁ w₂ : World} {details : List NodeId}
    (hd : Disarmed c w₁ details w₂) (hleft : Left w w₁)
    (hparent : ∀ d ∈ details, w.forest.parent d = some c) : Gone details w₂ := by
  intro d hmem
  have hold := Forest.has_of_parent (hparent d hmem)
  refine ⟨?_, ?_⟩
  · rw [Forest.Has, hd.givenBack.size_eq]
    exact Nat.lt_of_lt_of_le hold hleft.size_le
  · rw [hd.givenBack.parent_eq]
    split
    · rfl
    · -- No old node gets another parent, so a detail that has left `c` stands alone.
      rename_i hne
      cases hp : w₁.forest.parent d with
      | none => rfl
      | some p =>
        have hpc := hleft.parent d p hold hp
        rw [hparent d hmem] at hpc
        exact absurd ⟨hmem, hpc ▸ hp⟩ hne

namespace Trap

variable {T : Trap}

theorem Poised.scope_ne {w : World} (hw : T.Poised w) {c : NodeId} (hc : T.onError = some c) :
    T.scope ≠ c := by
  rintro rfl
  have hparent := hw.sound.wellFormed.parent_of_split (hw.stands.split_onError hc)
  exact hw.sound.wellFormed.acyclic _ (Forest.above_of_parent hparent)

theorem Poised.armed {w w₁ : World} (hw : T.Poised w) {c : NodeId} (hc : T.onError = some c)
    {e : Error} {details : List NodeId} (ha : Armed c e w details w₁) : T.Poised w₁ := by
  refine ⟨hw.stands.congr (ha.children_eq hw.sound hw.has_scope (hw.scope_ne hc)) fun n hn => ?_,
    hw.calm.of_eq ha.store ha.session, ha.sound hw.sound⟩
  exact ha.name_eq hw.sound (hw.sound.wellFormed.has_child hn)

theorem Poised.disarmed {w w₁ : World} (hw : T.Poised w) {c : NodeId} (hc : T.onError = some c)
    {details : List NodeId} (hd : Disarmed c w details w₁) : T.Poised w₁ := by
  have hback := hd.givenBack
  have hchildren : w₁.forest.children T.scope = w.forest.children T.scope := by
    rw [hback.children_eq, if_neg (hw.scope_ne hc)]
  refine ⟨hw.stands.congr hchildren fun n _ => hback.name_eq n,
    hw.calm.of_eq hd.store hd.session, hback.wellFormed,
    fun call hcall => ?_⟩
  rw [hd.session] at hcall
  rw [Forest.Has, hback.size_eq]
  exact hw.sound.base call hcall

/-- `u` is `w` with an error left in the scope. -/
structure Trapped (T : Trap) (e : Error) (w u : World) : Prop where
  lent : Lent T.scope [(Forest.plant (trapped e) w.forest).1] (Forest.plant (trapped e) w.forest).2
    u.forest
  children : u.forest.children T.scope =
    (Forest.plant (trapped e) w.forest).1 :: w.forest.children T.scope
  store : u.store = w.store
  session : u.session = w.session

theorem Poised.leaveTrapped {w : World} (hw : T.Poised w) (hold : Hold) (e : Error) :
    ∃ u, (leaveTrapped T.scope e).result hold w = (.ok (), u) ∧ T.Trapped e w u := by
  obtain ⟨g, hrun, hl, hg⟩ :=
    leaveTrapped_lends hold hw.sound.wellFormed hw.has_scope hw.stands.untrapped e
  exact ⟨_, hrun, hl, hg, rfl, rfl⟩

namespace Trapped

variable {e : Error} {w u : World} (hu : T.Trapped e w u)

include hu

theorem plain {event : String} (h : w.Plain event) : u.Plain event := h.of_eq hu.store hu.session

variable (hw : T.Poised w)

include hw

theorem name_eq {n : NodeId} (hn : w.forest.Has n) : u.forest.name n = w.forest.name n := by
  rw [hu.lent.name_eq]
  exact (Forest.planted (trapped e) w.forest hw.sound.wellFormed).grown.name_eq hn

theorem find?_eq :
    u.forest.find? T.scope trappedName = some (Forest.plant (trapped e) w.forest).1 := by
  have hname : u.forest.name (Forest.plant (trapped e) w.forest).1 = trappedName := by
    rw [hu.lent.name_eq, Forest.name_plant hw.sound.wellFormed]
    rfl
  rw [Forest.find?, hu.children, List.find?_cons_of_pos]
  rw [Forest.hasName, hname, beq_self_eq_true]

theorem result_untie {hold : Hold} (hs : T.scope ∈ hold.held) :
    (untie (Forest.plant (trapped e) w.forest).1).result hold u =
      (.ok (), { w with forest := (Forest.plant (trapped e) w.forest).2 }) := by
  have hp := Forest.planted (trapped e) w.forest hw.sound.wellFormed
  have hparent := hu.lent.wellFormed.parent_of_split (l := []) hu.children
  have hg := hu.children
  rw [← hp.grown.children_eq hw.has_scope] at hg
  rw [Action.result_untie (hu.lent.wellFormed.parent_seen hs hparent),
    hu.lent.detach_eq hp.wellFormed hp.root hg, hu.store, hu.session]

theorem split_body : u.forest.children T.scope =
    ((Forest.plant (trapped e) w.forest).1 :: T.before) ++
      T.body :: (T.onError.toList ++ (T.last.toList ++ T.after)) := by
  rw [hu.children, hw.stands.split_body]
  rfl

theorem split_onError {c : NodeId} (hc : T.onError = some c) : u.forest.children T.scope =
    ((Forest.plant (trapped e) w.forest).1 :: (T.before ++ [T.body])) ++
      c :: (T.last.toList ++ T.after) := by
  rw [hu.children, hw.stands.split_onError hc]
  rfl

theorem follows_try {hold : Hold} (hs : T.scope ∈ hold.held) {c : NodeId} (hc : T.onError = some c) :
    (u.forest.seen hold).follows "try" c := by
  rw [hu.lent.wellFormed.follows_seen hs (hu.split_onError hw hc), ← List.cons_append,
    List.getLast?_concat]
  simp [Forest.hasName, hu.name_eq hw hw.has_body, hw.stands.body]

end Trapped

theorem Tame.run_catch {engine : Engine} (he : engine.Keeping) {hold : Hold}
    (hs : T.scope ∈ hold.held) {w w₁ u : World} (ht : T.Tame engine hold w) {e : Error}
    (hran : Ran engine (hold.adding [T.body]) T.body 0 w (.error e) w₁) (hw : T.Poised w₁)
    {c : NodeId} (hc : T.onError = some c) (hu : T.Trapped e w₁ u) :
    ∃ second details w₂, T.Pending engine hold w (.error e) second [T.body, c] details w₂ ∧
      T.Poised w₂ ∧ w₂.session.depth = w₁.session.depth ∧ Gone details w₂ ∧
      (catchBlock engine (.plain "catch" c)).result (hold.adding [c]) u =
        if second = .ok .normal then (.ok .normal, w₂)
        else (settle engine c T.last second).result (hold.adding [T.scope, c]) w₂ := by
  have hs' : T.scope ∈ (hold.adding [c]).held := List.mem_cons_of_mem _ hs
  have hs'' : T.scope ∈ (hold.adding [T.scope, c]).held := List.mem_cons_self
  have hc' : c ∈ (hold.adding [T.scope, c]).held := List.mem_cons_of_mem _ List.mem_cons_self
  -- The details are lent to the `catch`, its body runs, and what is left of them is given back.
  obtain ⟨w₂, hlend, harmed⟩ := insertAll_arms (hold.adding [T.scope, c]) hw.sound.wellFormed
    (hw.has_onError hc) e rfl
  have hw₂ := hw.armed hc harmed
  obtain ⟨second, w₃, hsecond, hw₃, hleft⟩ := ht.run he (.onError hran hc harmed) hw₂.sound
    hw₂.calm.bindings (hw₂.has_onError hc)
  obtain ⟨g, hback, hgiven⟩ := untieFrom_givesBack hc'
    ((Forest.plant (trapped e) w₁.forest).2.children (Forest.plant (trapped e) w₁.forest).1)
    hw₃.sound.wellFormed
  let w₄ : World := { w₃ with forest := g }
  have hdisarmed : Disarmed c w₃ _ w₄ := ⟨hgiven, rfl, rfl⟩
  have hw₄ := hw₃.disarmed hc hdisarmed
  have hlast : (w₄.forest.seen (hold.adding [T.scope, c])).nextNamed? "finally" c = T.last := by
    rw [hw₄.sound.wellFormed.nextNamed?_seen hs'' (hw₄.stands.split_onError hc), hw₄.stands.last_next]
  refine ⟨second, _, w₄, .rescued hran hc harmed hsecond hdisarmed, hw₄, ?_, ?_, ?_⟩
  · change w₃.session.depth = w₁.session.depth
    rw [hleft.depth, harmed.session]
  · exact hdisarmed.gone hleft fun d hd => harmed.parent_detail hd
  · have hparent := hu.lent.wellFormed.parent_of_split (hu.split_onError hw hc)
    rw [result_catchBlock_caught (hu.follows_try hw hs' hc)
      (hu.lent.wellFormed.parent_seen hs' hparent) (hu.find?_eq hw) (hu.result_untie hw hs'') rfl
      hlend hsecond hback]
    rw [show (hold.adding [c]).adding [T.scope] = hold.adding [T.scope, c] from rfl, hlast]

end Trap

end EventTree
