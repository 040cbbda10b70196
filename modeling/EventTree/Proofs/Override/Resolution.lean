import EventTree.Proofs.Balance
import EventTree.Proofs.Override.Graph
import Mathlib.Algebra.BigOperators.Group.List.Basic
import Mathlib.Data.List.Chain
import Mathlib.Data.List.Count
import Mathlib.Data.List.Infix

/-!
# Resolving overrides

Raising an event is running the ends of all ways that lead from it through the overrides, one after the
other, as long as what runs leaves the overrides alone.
-/

namespace EventTree

open EventTree.Action

/-! ## Ways -/

/-- A way through overrides: the event that it leads to, and those that it comes from, the nearest
first. -/
structure Way where
  leaf : String
  back : List String
  deriving DecidableEq, Repr

namespace Way

/-- The events of a way, from its end to its beginning. -/
def events (way : Way) : List String := way.leaf :: way.back

/-- The way as it is gone. -/
def path (way : Way) : List String := way.events.reverse

/-- The way that comes from one event more. -/
def after (event : String) (way : Way) : Way := ⟨way.leaf, way.back ++ [event]⟩

/-- The call that a way leads to, when it begins with a call that has bases of its own. -/
def call (n : NodeId) (bases : List String) (way : Way) : Call := ⟨way.leaf, n, way.back ++ bases⟩

@[simp]
theorem events_after (event : String) (way : Way) : (way.after event).events = way.events ++ [event] :=
  rfl

@[simp]
theorem path_after (event : String) (way : Way) : (way.after event).path = event :: way.path := by
  simp [path]

@[simp]
theorem call_after (event : String) (n : NodeId) (bases : List String) (way : Way) :
    (way.after event).call n bases = way.call n (event :: bases) := by
  simp [call, after]

theorem exists_after {way : Way} {event next : String} {rest : List String}
    (h : way.path = event :: next :: rest) :
    ∃ way' : Way, way'.path = next :: rest ∧ way'.after event = way := by
  obtain ⟨leaf, back⟩ := way
  rcases List.eq_nil_or_concat back with rfl | ⟨back', last, rfl⟩
  · cases h
  · have hpath : last :: Way.path ⟨leaf, back'⟩ = event :: next :: rest := by
      rw [← h]
      simp [path, events]
    obtain ⟨rfl, hrest⟩ := List.cons.inj hpath
    exact ⟨⟨leaf, back'⟩, hrest, by simp [after]⟩

theorem leaf_eq_of_path {way : Way} {event : String} (h : way.path = [event]) : way = ⟨event, []⟩ := by
  obtain ⟨leaf, back⟩ := way
  have hevents : leaf :: back = [event] := by
    rw [← List.reverse_inj]
    exact h
  obtain ⟨rfl, rfl⟩ := List.cons.inj hevents
  rfl

end Way

namespace OverrideGraph

/-- The ways from an event, depth first and in the order in which overrides were added. The number bounds
how long they can be. -/
def ways (g : OverrideGraph) : Nat → String → List Way
  | 0, event => if g.isOverridden event then [] else [⟨event, []⟩]
  | bound + 1, event =>
    match g.supers? event with
    | none => [⟨event, []⟩]
    | some supers => supers.flatMap fun super => (g.ways bound super).map (·.after event)

/-- No path of overrides from an event is longer. -/
def Within (g : OverrideGraph) (event : String) (bound : Nat) : Prop :=
  ∀ rest, List.IsChain g.Sends (event :: rest) → rest.length ≤ bound

variable {g : OverrideGraph} {event : String} {bound : Nat}

theorem ways_of_none (h : g.supers? event = none) : g.ways bound event = [⟨event, []⟩] := by
  cases bound with
  | zero => simp [ways, isOverridden, h]
  | succ bound => rw [ways, h]

theorem Within.pos {super : String} (h : g.Within event bound) (hs : g.Sends event super) : 0 < bound :=
  h [super] (List.isChain_pair.mpr hs)

theorem Within.super {super : String} (h : g.Within event bound) (hs : g.Sends event super) :
    g.Within super (bound - 1) := fun rest hrest =>
  Nat.le_sub_of_add_le (h (super :: rest) (List.isChain_cons_cons.mpr ⟨hs, hrest⟩))

theorem ways_of_some {supers : List String} (h : g.supers? event = some supers)
    (hwithin : g.Within event bound) : g.ways bound event =
      supers.flatMap fun super => (g.ways (bound - 1) super).map (·.after event) := by
  cases bound with
  | zero =>
    -- An event with no room for an override has a list of supers that is empty.
    have hnone : supers = [] := List.eq_nil_iff_forall_not_mem.mpr fun super hm =>
      absurd (hwithin.pos ((sends_iff h super).mpr hm)) (Nat.lt_irrefl 0)
    simp [ways, isOverridden, h, hnone]
  | succ bound =>
    rw [ways, h]
    rfl

theorem within_of_rank (rank : String → Nat)
    (h : ∀ base super, g.Sends base super → rank super < rank base) : g.Within event (rank event) := by
  intro rest
  induction rest generalizing event with
  | nil => exact fun _ => Nat.zero_le _
  | cons next rest ih =>
    intro hchain
    obtain ⟨hsends, hrest⟩ := List.isChain_cons_cons.mp hchain
    exact Nat.succ_le_of_lt (Nat.lt_of_le_of_lt (ih hrest) (h event next hsends))

/-- A path of overrides to an event that is not overridden. -/
structure Leads (g : OverrideGraph) (event : String) (way : Way) : Prop where
  head : way.path.head? = some event
  chain : way.path.IsChain g.Sends
  leaf : g.supers? way.leaf = none

theorem leads_of_none (h : g.supers? event = none) (way : Way) :
    g.Leads event way ↔ way = ⟨event, []⟩ := by
  constructor
  · rintro ⟨hhead, hchain, -⟩
    obtain ⟨rest, hpath⟩ := List.head?_eq_some_iff.mp hhead
    rw [hpath] at hchain
    cases rest with
    | nil => exact Way.leaf_eq_of_path hpath
    | cons next rest => exact absurd (List.isChain_cons_cons.mp hchain).1 (not_sends h next)
  · rintro rfl
    exact ⟨rfl, List.isChain_singleton event, h⟩

theorem leads_of_some {supers : List String} (h : g.supers? event = some supers) (way : Way) :
    g.Leads event way ↔ ∃ super ∈ supers, ∃ way', g.Leads super way' ∧ way'.after event = way := by
  constructor
  · rintro ⟨hhead, hchain, hleaf⟩
    obtain ⟨rest, hpath⟩ := List.head?_eq_some_iff.mp hhead
    rw [hpath] at hchain
    cases rest with
    | nil =>
      rw [Way.leaf_eq_of_path hpath, h] at hleaf
      cases hleaf
    | cons next rest =>
      obtain ⟨hsends, hrest⟩ := List.isChain_cons_cons.mp hchain
      obtain ⟨way', hpath', rfl⟩ := Way.exists_after hpath
      exact ⟨next, (sends_iff h next).mp hsends, way', ⟨by simp [hpath'], hpath' ▸ hrest, hleaf⟩, rfl⟩
  · rintro ⟨super, hsuper, way', ⟨hhead, hchain, hleaf⟩, rfl⟩
    obtain ⟨rest, hpath⟩ := List.head?_eq_some_iff.mp hhead
    refine ⟨by simp, ?_, hleaf⟩
    rw [Way.path_after, hpath]
    exact List.isChain_cons_cons.mpr ⟨(sends_iff h super).mpr hsuper, hpath ▸ hchain⟩

theorem mem_ways_iff (h : g.Within event bound) (way : Way) :
    way ∈ g.ways bound event ↔ g.Leads event way := by
  induction bound using Nat.strong_induction_on generalizing event way with
  | h bound ih =>
    cases hs : g.supers? event with
    | none => rw [ways_of_none hs, leads_of_none hs, List.mem_singleton]
    | some supers =>
      rw [ways_of_some hs h, leads_of_some hs, List.mem_flatMap]
      refine exists_congr fun super => and_congr_right fun hm => ?_
      have hsends := (sends_iff hs super).mpr hm
      rw [List.mem_map]
      exact exists_congr fun way' => and_congr_left fun _ =>
        ih (bound - 1) (Nat.sub_one_lt_of_lt (h.pos hsends)) (h.super hsends) way'

/-- How often a path of overrides is there, since an override may have been added more than once. -/
def times (g : OverrideGraph) : List String → Nat
  | base :: super :: rest => (g.supersOf base).count super * g.times (super :: rest)
  | _ => 1

theorem count_map_after (event : String) (way : Way) (ways : List Way) :
    (ways.map (·.after event)).count (way.after event) = ways.count way := by
  refine List.count_map_of_injective ways (·.after event) (fun way₁ way₂ h => ?_) way
  obtain ⟨hleaf, hback⟩ := Way.mk.inj h
  obtain ⟨leaf, back⟩ := way₁
  exact congrArg₂ Way.mk hleaf (List.append_cancel_right hback)

theorem count_ways (h : g.Within event bound) {way : Way} (hl : g.Leads event way) :
    (g.ways bound event).count way = g.times way.path := by
  induction bound using Nat.strong_induction_on generalizing event way with
  | h bound ih =>
    cases hs : g.supers? event with
    | none =>
      obtain rfl := (leads_of_none hs way).mp hl
      rw [ways_of_none hs, List.count_singleton_self]
      rfl
    | some supers =>
      obtain ⟨super, hm, way', hl', rfl⟩ := (leads_of_some hs way).mp hl
      obtain ⟨rest, hpath⟩ := List.head?_eq_some_iff.mp hl'.head
      have hsends := (sends_iff hs super).mpr hm
      have hcount := ih (bound - 1) (Nat.sub_one_lt_of_lt (h.pos hsends)) (h.super hsends) hl'
      rw [Way.path_after, hpath, times, ← hpath, ← hcount, supersOf_of_some hs, ways_of_some hs h,
        List.count_flatMap, List.sum_map_eq_nsmul_single super]
      · exact congrArg _ (count_map_after event way' _)
      · -- The way begins with `super`, so it is no way from another event.
        intro other hne hother
        refine (count_map_after event way' _).trans (List.count_eq_zero.mpr fun hw => hne ?_)
        have hl := (mem_ways_iff (h.super ((sends_iff hs other).mpr hother)) way').mp hw
        exact Option.some.inj (hl.head.symm.trans hl'.head)

end OverrideGraph

/-! ## The end of a way -/

namespace World

/-- The world with more events being raised. -/
def deeperBy (w : World) (levels : Nat) : World :=
  { w with session := { w.session with depth := w.session.depth + levels } }

/-- The world with fewer events being raised. -/
def shallowerBy (w : World) (levels : Nat) : World :=
  { w with session := { w.session with depth := w.session.depth - levels } }

theorem deeperBy_succ (w : World) (levels : Nat) : w.deeperBy (levels + 1) = w.deeper.deeperBy levels := by
  simp only [deeperBy, deeper]
  rw [Nat.add_assoc, Nat.add_comm 1 levels]

theorem shallowerBy_succ (w : World) (levels : Nat) :
    w.shallowerBy (levels + 1) = (w.shallowerBy levels).shallower := by
  simp only [shallowerBy, shallower]
  rw [Nat.sub_sub]

end World

/-- The outcome once an error has left events, one after the other. -/
def crossingAll (events : List String) : Except Stop Flow → Except Stop Flow
  | .error (.error e) => .error (.error { e with trace := e.trace ++ events })
  | other => other

theorem crossing_crossingAll (event : String) (events : List String) (outcome : Except Stop Flow) :
    crossing event (crossingAll events outcome) = crossingAll (events ++ [event]) outcome := by
  match outcome with
  | .error (.error e) => simp [crossingAll, crossing, Error.crossing]
  | .error .stalled => rfl
  | .ok _ => rfl

theorem crossingAll_singleton (event : String) (outcome : Except Stop Flow) :
    crossingAll [event] outcome = crossing event outcome := by
  match outcome with
  | .error (.error _) => rfl
  | .error .stalled => rfl
  | .ok _ => rfl

theorem crossingAll_eq_ok {events : List String} {outcome : Except Stop Flow} {flow : Flow}
    (h : crossingAll events outcome = .ok flow) : outcome = .ok flow := by
  match outcome, h with
  | .ok _, h => exact h

namespace Machine

/-- The handlers of a name: the static ones, and then those of listeners. -/
def layers (m : Machine) (engine : Engine) (call : Call) (key : String) : List (Action Flow) :=
  [inTurn (m.table.handlersOf key) fun handler => handler engine call, m.runBindings engine call key]

/-- The handlers of an event, and then those for every event. -/
def handled (m : Machine) (engine : Engine) (call : Call) : Action Flow :=
  holding [call.node] <| inTurn (m.layers engine call call.event ++
    if call.event = catchAll then [] else m.layers engine call catchAll) id

/-- The end of a way is handled with all events of the way being counted, and an error leaves all of
them. -/
def fire (m : Machine) (patience : Nat) (n : NodeId) (bases : List String) (way : Way) : Action Flow :=
  fun hold => ExceptT.mk fun w =>
    let levels := way.events.length
    let engine := m.engine (patience - levels) (m.perform (patience - levels))
    let r := (m.handled engine (way.call n bases)).result hold (w.deeperBy levels)
    (crossingAll way.events r.1, r.2.shallowerBy levels)

theorem inTurn_layers (m : Machine) (engine : Engine) (call : Call) (key : String) :
    inTurn (m.layers engine call key) id =
      andThen (inTurn (m.table.handlersOf key) fun handler => handler engine call)
        (m.runBindings engine call key) := by
  rw [layers, inTurn, inTurn, inTurn, andThen_pure_normal]
  rfl

theorem invoke_eq_handled (m : Machine) (engine : Engine) (call : Call) :
    m.invoke engine call = m.handled engine call := by
  have hlayers : m.layers engine call call.event ++
      (if call.event = catchAll then [] else m.layers engine call catchAll) =
        (keysOf call.event).flatMap (m.layers engine call) := by
    by_cases h : call.event = catchAll
    · simp [keysOf, h]
    · simp [keysOf, h]
  unfold handled invoke
  rw [hlayers, inTurn_flatMap]
  simp only [inTurn_layers]

variable {m : Machine} {n : NodeId} {bases : List String} {hold : Hold} {w w' : World} {patience : Nat}

theorem result_fire_after (event : String) (way : Way) :
    (m.fire (patience + 1) n bases (way.after event)).result hold w =
      leaving event ((m.fire patience n (event :: bases) way).result hold w.deeper) := by
  have hlevels : (way.after event).events.length = way.events.length + 1 := by simp
  have hpatience : patience + 1 - (way.events.length + 1) = patience - way.events.length := by omega
  change (crossingAll _ _, World.shallowerBy _ _) = (crossing event (crossingAll _ _), _)
  rw [crossing_crossingAll, hlevels, hpatience, Way.call_after, World.deeperBy_succ,
    World.shallowerBy_succ]
  rfl

theorem result_fire_leaf (event : String) :
    (m.fire (patience + 1) n bases ⟨event, []⟩).result hold w =
      leaving event ((m.invoke (m.engine patience (m.perform patience)) ⟨event, n, bases⟩).result hold
        w.deeper) := by
  rw [invoke_eq_handled, leaving, ← crossingAll_singleton]
  rfl

theorem fire_depth (hm : m.Obeying balance) {way : Way} {flow : Flow}
    (h : (m.fire patience n bases way).result hold w = (.ok flow, w')) :
    w'.session.depth = w.session.depth := by
  obtain ⟨houtcome, rfl⟩ := Prod.mk.inj h
  have hobeys := Obeys.invoke hm (hm.engine (patience - way.events.length)) (way.call n bases)
  rw [invoke_eq_handled] at hobeys
  have hbalanced := hobeys.balanced (Prod.ext (crossingAll_eq_ok houtcome) rfl) (by simp)
  exact Nat.sub_eq_of_eq_add hbalanced.depth

end Machine

/-! ## Resolution -/

/-- After every item that ends normally something holds of the world. -/
def Action.Along {α : Type} (inv : World → Prop) (hold : Hold) (act : α → Action Flow) :
    List α → World → Prop
  | [], _ => True
  | item :: rest, w => ∀ w', (act item).result hold w = (.ok .normal, w') →
      inv w' ∧ Along inv hold act rest w'

namespace Action.Along

variable {α : Type} {inv : World → Prop} {hold : Hold} {act : α → Action Flow} {items items' : List α}
  {w w' : World}

theorem left (h : Along inv hold act (items ++ items') w) : Along inv hold act items w := by
  induction items generalizing w with
  | nil => trivial
  | cons item rest ih => exact fun w' hw' => ⟨(h w' hw').1, ih (h w' hw').2⟩

theorem right (h : Along inv hold act (items ++ items') w) (hw : inv w)
    (hr : (inTurn items act).result hold w = (.ok .normal, w')) :
    inv w' ∧ Along inv hold act items' w' := by
  induction items generalizing w with
  | nil =>
    obtain ⟨-, rfl⟩ := Prod.mk.inj hr
    exact ⟨hw, h⟩
  | cons item rest ih =>
    rw [inTurn] at hr
    by_cases hfirst : ((act item).result hold w).1 = .ok .normal
    · have hfirst : (act item).result hold w = (.ok .normal, ((act item).result hold w).2) :=
        Prod.ext hfirst rfl
      rw [result_andThen_normal hfirst] at hr
      obtain ⟨hinv, hrest⟩ := h _ hfirst
      exact ih hrest hinv hr
    · rw [result_andThen_of_not_normal hfirst] at hr
      exact absurd (congrArg Prod.fst hr) hfirst

theorem of_inits
    (h : ∀ done w', done <+: items → (inTurn done act).result hold w = (.ok .normal, w') → inv w') :
    Along inv hold act items w := by
  induction items generalizing w with
  | nil => trivial
  | cons item rest ih =>
    intro w' hw'
    refine ⟨h [item] w' (by simp) ((result_inTurn_singleton item act).trans hw'), ih ?_⟩
    intro done w'' hd hr
    refine h (item :: done) w'' ((List.prefix_cons_inj item).mpr hd) ?_
    rw [inTurn, result_andThen_normal hw', hr]

theorem adding {kept both : World → Prop} (h : Along inv hold act items w)
    (hkept : ∀ item w w', kept w → (act item).result hold w = (.ok .normal, w') → kept w')
    (hboth : ∀ w, inv w → kept w → both w) (hw : kept w) : Along both hold act items w := by
  induction items generalizing w with
  | nil => trivial
  | cons item rest ih =>
    intro w' hw'
    have hk := hkept item w w' hw hw'
    exact ⟨hboth w' (h w' hw').1 hk, ih (h w' hw').2 hk⟩

/-- Actions that each come to several items come to all of these in turn. -/
theorem result_flatMap {β : Type} {act' : β → Action Flow} {f : β → List α} {groups : List β}
    (hact : ∀ group ∈ groups, ∀ w, inv w → Along inv hold act (f group) w →
      (act' group).result hold w = (inTurn (f group) act).result hold w)
    (h : Along inv hold act (groups.flatMap f) w) (hw : inv w) :
    (inTurn groups act').result hold w = (inTurn (groups.flatMap f) act).result hold w := by
  induction groups generalizing w with
  | nil => rfl
  | cons group rest ih =>
    rw [List.flatMap_cons] at h ⊢
    rw [inTurn_append]
    refine result_andThen_congr (hact group List.mem_cons_self w hw h.left) fun w' hr => ?_
    obtain ⟨hw', hrest⟩ := h.right hw hr
    exact ih (fun g hg => hact g (List.mem_cons_of_mem _ hg)) hrest hw'

end Action.Along

/-- The overrides and the count of events are these. -/
structure World.Steady (g : OverrideGraph) (depth : Nat) (w : World) : Prop where
  overrides : w.session.overrides = g
  depth : w.session.depth = depth

namespace World.Steady

variable {g : OverrideGraph} {depth : Nat} {w : World}

theorem deeper (h : w.Steady g depth) : w.deeper.Steady g (depth + 1) :=
  ⟨h.overrides, congrArg (· + 1) h.depth⟩

theorem deeper_shallower (h : w.Steady g (depth + 1)) : w.shallower.deeper = w :=
  World.deeper_shallower h.depth

end World.Steady

namespace Machine

variable {m : Machine} {n : NodeId} {hold : Hold} {g : OverrideGraph} {depth patience : Nat}
  {event : String} {bases : List String} {w : World}

theorem along_after {ways : List Way}
    (h : Along (World.Steady g depth) hold (m.fire (patience + 1) n bases) (ways.map (·.after event)) w)
    (hm : m.Obeying balance) :
    Along (World.Steady g (depth + 1)) hold (m.fire patience n (event :: bases)) ways w.deeper := by
  induction ways generalizing w with
  | nil => trivial
  | cons way rest ih =>
    intro w' hw'
    have hafter : (m.fire (patience + 1) n bases (way.after event)).result hold w =
        (.ok .normal, w'.shallower) := by
      rw [result_fire_after, hw']
      rfl
    have hdepth : w'.session.depth = w.session.depth + 1 := fire_depth hm hw'
    obtain ⟨hsteady, hrest⟩ := h _ hafter
    rw [← World.deeper_shallower hdepth]
    exact ⟨hsteady.deeper, ih hrest⟩

theorem result_inTurn_after {ways : List Way}
    (h : Along (World.Steady g (depth + 1)) hold (m.fire patience n (event :: bases)) ways w.deeper) :
    (inTurn (ways.map (·.after event)) (m.fire (patience + 1) n bases)).result hold w =
      leaving event ((inTurn ways (m.fire patience n (event :: bases))).result hold w.deeper) := by
  induction ways generalizing w with
  | nil => rfl
  | cons way rest ih =>
    rw [List.map_cons, inTurn, inTurn]
    have hafter : (m.fire (patience + 1) n bases (way.after event)).result hold w =
        leaving event ((m.fire patience n (event :: bases) way).result hold w.deeper) :=
      result_fire_after event way
    by_cases hnormal : ((m.fire patience n (event :: bases) way).result hold w.deeper).1 = .ok .normal
    · generalize hr : (m.fire patience n (event :: bases) way).result hold w.deeper = r at hafter hnormal
      obtain ⟨_, w₁⟩ := r
      obtain rfl := hnormal
      -- Between two ways the count goes up and down again, which makes no difference.
      obtain ⟨hsteady, hrest⟩ := h w₁ hr
      rw [← hsteady.deeper_shallower] at hrest
      rw [result_andThen_normal hafter, result_andThen_normal hr, ih hrest, hsteady.deeper_shallower]
    · have hne : ((m.fire (patience + 1) n bases (way.after event)).result hold w).1 ≠ .ok .normal := by
        rw [hafter]
        intro h
        exact hnormal (crossingAll_eq_ok ((crossingAll_singleton event _).trans h))
      rw [result_andThen_of_not_normal hne, result_andThen_of_not_normal hnormal, hafter]

theorem result_perform_of_none (hdepth : w.session.depth < m.settings.maxDepth)
    (hs : w.session.overrides.supers? event = none) :
    (m.perform (patience + 1) .resolved ⟨event, n, bases⟩).result hold w =
      leaving event ((m.invoke (m.engine patience (m.perform patience)) ⟨event, n, bases⟩).result hold
        w.deeper) := by
  rw [perform_succ, result_entering_of_lt hdepth, inside, result_bind_ok (result_askSession _)]
  change leaving event _ = _
  rw [show w.deeper.session.overrides.supers? event = none from hs]

theorem result_perform_of_some {supers : List String} (hdepth : w.session.depth < m.settings.maxDepth)
    (hs : w.session.overrides.supers? event = some supers) :
    (m.perform (patience + 1) .resolved ⟨event, n, bases⟩).result hold w =
      leaving event ((inTurn supers fun super =>
        m.perform patience .resolved ⟨super, n, event :: bases⟩).result hold w.deeper) := by
  rw [perform_succ, result_entering_of_lt hdepth, inside, result_bind_ok (result_askSession _)]
  change leaving event _ = _
  rw [show w.deeper.session.overrides.supers? event = some supers from hs]
  rfl

/-- Raising an event comes to the ends of its ways. -/
theorem result_perform_ways (hm : m.Obeying balance) {bound : Nat} (hbound : g.Within event bound)
    (hpatience : bound < patience) (hdepth : depth + bound < m.settings.maxDepth)
    (hw : w.Steady g depth)
    (halong : Along (World.Steady g depth) hold (m.fire patience n bases) (g.ways bound event) w) :
    (m.perform patience .resolved ⟨event, n, bases⟩).result hold w =
      (inTurn (g.ways bound event) (m.fire patience n bases)).result hold w := by
  induction bound using Nat.strong_induction_on generalizing patience depth event bases w with
  | h bound ih =>
    obtain ⟨patience, rfl⟩ := Nat.exists_eq_succ_of_ne_zero (Nat.ne_zero_of_lt hpatience)
    have hroom : w.session.depth < m.settings.maxDepth := by
      rw [hw.depth]
      omega
    cases hs : g.supers? event with
    | none =>
      rw [result_perform_of_none hroom (hw.overrides ▸ hs), OverrideGraph.ways_of_none hs,
        result_inTurn_singleton, result_fire_leaf]
    | some supers =>
      rw [OverrideGraph.ways_of_some hs hbound, ← List.map_flatMap] at halong ⊢
      -- Inside the event the ways are one step shorter, and there is one unit of patience less.
      have hinner := along_after halong hm
      rw [result_perform_of_some hroom (hw.overrides ▸ hs), result_inTurn_after hinner]
      refine congrArg (leaving event) (hinner.result_flatMap ?_ hw.deeper)
      intro super hsuper v hv halong
      have hsends := (OverrideGraph.sends_iff hs super).mpr hsuper
      have hpos := hbound.pos hsends
      exact ih (bound - 1) (Nat.sub_one_lt_of_lt hpos) (hbound.super hsends) (by omega) (by omega) hv
        halong

end Machine

/-! ## The way back -/

/-- Going from a call to what it stands in for, again and again, leads through these events and ends where
there is nothing more. -/
inductive Call.Returns : Call → List String → Prop
  | done {call : Call} : (∀ engine : Engine, engine.callBase call = pure .normal) → Returns call []
  | step {call base : Call} {events : List String} : base.node = call.node →
      (∀ engine : Engine, engine.callBase call = engine.raiseDirect base) → Returns base events →
      Returns call (base.event :: events)

theorem Call.returns (event : String) (n : NodeId) (bases : List String) :
    Call.Returns ⟨event, n, bases⟩ bases := by
  induction bases generalizing event with
  | nil => exact .done fun _ => rfl
  | cons base rest ih =>
    refine .step ?_ ?_ (ih base)
    · rfl
    · exact fun _ => rfl

/-- Raising an event comes to handling the ends of all its ways, one after the other up to the first that
does not end normally, provided that these leave the overrides alone and that there is room for the
longest way. The ways are the paths of overrides to events that are not overridden, each as often as it is
there, and the call at the end of a way leads back along it. -/
theorem raiseFlow_resolves (m : Machine) (hm : m.Obeying balance) (patience : Nat) (event : String)
    (n : NodeId) (hold : Hold) (w : World) (bound : Nat)
    (hbound : w.session.overrides.Within event bound) (hpatience : bound < patience)
    (hdepth : w.session.depth + bound < m.settings.maxDepth)
    (hspared : ∀ done w', done <+: w.session.overrides.ways bound event →
      (inTurn done (m.fire patience n [])).result hold w = (.ok .normal, w') →
        w'.session.overrides = w.session.overrides) :
    ((m.engine patience (m.perform patience)).raiseFlow event n).result hold w =
      (inTurn (w.session.overrides.ways bound event) (m.fire patience n [])).result hold w ∧
    ∀ way, (way ∈ w.session.overrides.ways bound event ↔ w.session.overrides.Leads event way) ∧
      (w.session.overrides.Leads event way →
        (w.session.overrides.ways bound event).count way = w.session.overrides.times way.path ∧
        (way.call n []).Returns way.back) := by
  have hspared : Along (·.session.overrides = w.session.overrides) hold (m.fire patience n [])
      (w.session.overrides.ways bound event) w := .of_inits hspared
  have hsteady : Along (World.Steady w.session.overrides w.session.depth) hold (m.fire patience n [])
      (w.session.overrides.ways bound event) w :=
    hspared.adding (fun _ _ _ hd hr => (Machine.fire_depth hm hr).trans hd) (fun _ hg hd => ⟨hg, hd⟩) rfl
  refine ⟨Machine.result_perform_ways hm hbound hpatience hdepth ⟨rfl, rfl⟩ hsteady, fun way => ?_⟩
  refine ⟨OverrideGraph.mem_ways_iff hbound way, fun hl => ⟨OverrideGraph.count_ways hbound hl, ?_⟩⟩
  rw [Way.call, List.append_nil]
  exact Call.returns _ _ _

/-- A session with an event that is sent on to four others, of which one comes twice and three end up at
the same event, and with handlers that note what they are called for. The last one fails. -/
def forked : Machine × World :=
  let entry : TableEntry := ⟨0, "clerk", .on "d", Probe.hit⟩
  let binding : Binding := ⟨0, ⟨"clerk", "clerk"⟩, 0⟩
  (⟨.default, ⟨[("d", Probe.note), ("e", Probe.failing), (catchAll, Probe.note)], [], [entry]⟩⟩,
    { forest := (Forest.plant ⟨"a", none, []⟩ .empty).2
      store := default
      session := ⟨⟨[("a", ["b", "c", "c", "e"]), ("b", ["d"]), ("c", ["d"])]⟩, [("d", [binding])], [], 3,
        []⟩ })

theorem forked_balanced : forked.1.Obeying balance := by
  have hnote : Handler.Obeying Probe.note balance :=
    Probe.static_obeying (rfl : Probe.static? "note" = some Probe.note)
  have hfailing : Handler.Obeying Probe.failing balance :=
    Probe.static_obeying (rfl : Probe.static? "fail" = some Probe.failing)
  constructor
  · exact List.forall_iff_forall_mem.mp ⟨hnote, hfailing, hnote⟩
  · intro entry he
    obtain rfl := List.mem_singleton.mp he
    exact Probe.listener_obeying (rfl : Probe.listener? "note" = some Probe.hit)

theorem forked_within : forked.2.session.overrides.Within "a" 2 := by
  let rank (event : String) : Nat := if event = "a" then 2 else if event = "b" ∨ event = "c" then 1 else 0
  have hrank : ∀ edge ∈ forked.2.session.overrides.edges, ∀ super ∈ edge.2, rank super < rank edge.1 := by
    decide
  refine OverrideGraph.within_of_rank rank fun base super h => ?_
  obtain ⟨supers, hs, hm⟩ := OverrideGraph.Sends.exists_mem h
  exact hrank (base, supers) hs super hm

theorem raiseFlow_resolves_forked :
    let m := forked.1
    let w := forked.2
    let result := ((m.engine 8 (m.perform 8)).raiseFlow "a" ⟨0⟩).result ⟨[], []⟩ w
    let ways : List Way := [⟨"d", ["b", "a"]⟩, ⟨"d", ["c", "a"]⟩, ⟨"d", ["c", "a"]⟩, ⟨"e", ["a"]⟩]
    result = (inTurn ways (m.fire 8 ⟨0⟩ [])).result ⟨[], []⟩ w ∧
      result.1 = .error (.error ⟨.handlerFailed "handler failed for [e]", ["e", "a"]⟩) ∧
      (result.2.forest.children ⟨0⟩).length = 9 := by
  intro m w result ways
  have hways : w.session.overrides.ways 2 "a" = ways := by decide
  have hspared : ∀ done ∈ ways.inits,
      ((inTurn done (m.fire 8 ⟨0⟩ [])).result ⟨[], []⟩ w).2.session.overrides = w.session.overrides := by
    decide +kernel
  have hresolves := raiseFlow_resolves m forked_balanced 8 "a" ⟨0⟩ ⟨[], []⟩ w 2 forked_within (by decide)
    (by decide) fun done w' hd hr => by
      have h := hspared done (List.mem_inits done ways |>.mpr (hways ▸ hd))
      rwa [hr] at h
  rw [hways] at hresolves
  exact ⟨hresolves.1, by decide +kernel, by decide +kernel⟩

end EventTree
