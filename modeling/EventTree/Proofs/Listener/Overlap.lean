import EventTree.Proofs.Listener.Histories

/-!
# Listeners with the same overrides

Two listeners may bring the same override. When the first of them goes, the override added last is taken out,
which is that of the second. So the second listener keeps all its bindings and as many overrides as before,
but those that both brought now stand where the first one had put them.
-/

namespace EventTree.Session

variable {s : Session} {table : Table} {listener : Listener} {owner other : Nat}

/-! ## What one listener brings beside another -/

/-- The supers that registering a listener adds to those of an event. -/
def brings (s : Session) (table : Table) (listener : Listener) (base : String) : List String :=
  supersIn (overridesWith (s.fresh table listener)) base

theorem binds_gaining_of_ne (hne : owner ≠ other) (items : List (Level × TableEntry)) (entry : TableEntry) :
    (s.gaining owner items).binds other entry = s.binds other entry := by
  rw [Bool.eq_iff_iff, binds_iff, binds_iff, bindingsOf_gaining]
  constructor
  · rintro ⟨b, hb, howner, hentry⟩
    rcases List.mem_append.mp hb with hb | hb
    · exact ⟨b, hb, howner, hentry⟩
    · obtain ⟨item, -, rfl⟩ := List.mem_map.mp hb
      exact absurd howner hne
  · rintro ⟨b, hb, howner⟩
    exact ⟨b, List.mem_append_left _ hb, howner⟩

theorem unbound_congr {s' : Session} (h : ∀ entry, s'.binds owner entry = s.binds owner entry)
    (seen : List Nat) (items : List (Level × TableEntry)) :
    s'.unbound owner seen items = s.unbound owner seen items := by
  induction items generalizing seen with
  | nil => rfl
  | cons item rest ih => simp only [unbound, h, ih]

theorem fresh_gaining (hne : owner ≠ listener.id) (items : List (Level × TableEntry)) :
    (s.gaining owner items).fresh table listener = s.fresh table listener :=
  unbound_congr (binds_gaining_of_ne hne items) [] _

section Both

variable (hne : other ≠ owner) (items more : List (Level × TableEntry))

include hne

theorem bindingsOf_unregister_first (horderly : Orderly s.bindings)
    (hbindings : ∀ event, ∀ b ∈ s.bindingsOf event, b.owner ≠ owner) (event : String) :
    (((s.gaining owner items).gaining other more).unregister owner).bindingsOf event =
      (s.gaining other more).bindingsOf event := by
  have horderly' := orderly_bindAll (orderly_bindAll horderly (bindingsWith owner items))
    (bindingsWith other more)
  have hkept : ((s.bindingsOf event).filter fun b => b.owner ≠ owner) = s.bindingsOf event := by
    simpa using hbindings event
  rw [bindingsOf_unregister horderly', bindingsOf_gaining, bindingsOf_gaining, bindingsOf_gaining,
    List.filter_append, List.filter_append, hkept]
  simp [List.filter_map, Function.comp_def, hne]

theorem overrides_unregister_first (hinstalled : ∀ i ∈ s.installed, i.owner ≠ owner) :
    (((s.gaining owner items).gaining other more).unregister owner).overrides =
      ((s.overrides.pushAll (overridesWith items)).pushAll (overridesWith more)).removeAll
        (overridesWith items) := by
  have hnone : ((installedWith other more).filter fun i => i.owner = owner) = [] := by
    refine List.filter_eq_nil_iff.mpr fun i hi => ?_
    simpa [owner_of_installedWith hi] using hne
  -- Only the overrides of the first listener have it as their owner.
  have hmine : (((s.gaining owner items).gaining other more).installed.filter fun i => i.owner = owner) =
      installedWith owner items := by
    rw [gaining, List.filter_append, hnone, mine_gaining hinstalled, List.append_nil]
  rw [overrides_unregister, hmine, pairs_installedWith]
  rfl

end Both

/-! ## The first of two listeners goes -/

/-- If two listeners came one after the other and the first goes, then every event has the bindings that it
would have with the second alone, and each base the same supers as often. Supers that both brought come first
among those of the second. If they brought none in common, the order is that of the second alone. -/
theorem unregister_first_of_two {settings : Settings} {calls : List LoaderCall} {present : List Listener}
    (htable : ((Loader.empty settings).perform calls).table = table) (hs : Reached table present s)
    {a b : Listener} (hne : a.id ≠ b.id) (habsent : ∀ other ∈ present, other.id ≠ a.id) {s₁ s₂ : Session}
    (hfirst : s.register table a = .ok s₁) (hsecond : s₁.register table b = .ok s₂) :
    ∃ s', s.register table b = .ok s' ∧
      (∀ event, (s₂.unregister a.id).bindingsOf event = s'.bindingsOf event) ∧
      ∀ base,
        s'.overrides.supersOf base = s.overrides.supersOf base ++ s.brings table b base ∧
        (s₂.unregister a.id).overrides.supersOf base = s.overrides.supersOf base ++
          ((s.brings table a base).bagInter (s.brings table b base) ++
            eraseEach (s.brings table b base) (s.brings table a base)) ∧
        ((s₂.unregister a.id).overrides.supersOf base).Perm (s'.overrides.supersOf base) ∧
        ((s.brings table a base).Disjoint (s.brings table b base) →
          (s₂.unregister a.id).overrides.supersOf base = s'.overrides.supersOf base) := by
  have hsound := hs.sound (htable ▸ Loader.nodup_table settings calls)
  obtain ⟨rfl, -⟩ := eq_gaining_of_register hfirst
  obtain ⟨rfl, g, hadd⟩ := eq_gaining_of_register hsecond
  rw [fresh_gaining hne] at hadd ⊢
  have hacyclic₁ := ((hs.register hfirst).sound (htable ▸ Loader.nodup_table settings calls)).acyclic
  -- what closes no cycle beside the overrides of both closes none beside those of the second alone
  obtain ⟨g', hadd'⟩ : ∃ g', s.overrides.addAll (overridesWith (s.fresh table b)) = .ok g' := by
    refine (OverrideGraph.exists_addAll_iff hsound.acyclic _).mpr ?_
    refine ((OverrideGraph.exists_addAll_iff hacyclic₁ _).mp ⟨g, hadd⟩).mono fun x y hxy => ?_
    exact hxy.imp_left fun hsends => (OverrideGraph.sends_pushAll ..).mpr (.inl hsends)
  have halone : s.register table b = .ok (s.gaining b.id (s.fresh table b)) := by
    rw [register_eq, hadd']
    rfl
  have hafter : ∀ base, (((s.gaining a.id (s.fresh table a)).gaining b.id (s.fresh table b)).unregister
      a.id).overrides.supersOf base = s.overrides.supersOf base ++
        ((s.brings table a base).bagInter (s.brings table b base) ++
          eraseEach (s.brings table b base) (s.brings table a base)) := by
    intro base
    rw [overrides_unregister_first hne.symm _ _ fun _ => hsound.installed_ne habsent,
      ((hsound.proper.pushAll _).pushAll _).supersOf_removeAll, OverrideGraph.supersOf_pushAll,
      OverrideGraph.supersOf_pushAll, List.append_assoc, eraseEach_append]
    rfl
  have hsecond : ∀ base, (s.gaining b.id (s.fresh table b)).overrides.supersOf base =
      s.overrides.supersOf base ++ s.brings table b base :=
    fun base => OverrideGraph.supersOf_pushAll ..
  refine ⟨_, halone, fun event => ?_, fun base => ⟨hsecond base, hafter base, ?_, fun hdisjoint => ?_⟩⟩
  · exact bindingsOf_unregister_first hne.symm _ _ hsound.orderly (fun _ _ => hsound.owner_ne habsent) event
  · rw [hafter, hsecond]
    exact (bagInter_append_eraseEach_perm _ _).append_left _
  · rw [hafter, hsecond, bagInter_append_eraseEach_of_disjoint hdisjoint]

/-- Listeners of two types send `e` to `x`, and those of the second type send it to `y` first. -/
def sharedTable : Table :=
  ((Loader.empty .default).perform [.load ⟨"shared", [],
    [⟨"A", .onOverride "x" "e", fun _ _ _ => return .normal⟩,
      ⟨"B", .onOverride "y" "e", fun _ _ _ => return .normal⟩,
      ⟨"B", .onOverride "x" "e", fun _ _ _ => return .normal⟩]⟩]).table

/-- A listener that stays has sent `e` to `x` before. -/
theorem unregister_first_of_two_shared :
    ∃ s s₁ s₂ s', Reached sharedTable [⟨2, [⟨"A", "stays"⟩]⟩] s ∧
      s.register sharedTable ⟨0, [⟨"A", "goes"⟩]⟩ = .ok s₁ ∧
      s₁.register sharedTable ⟨1, [⟨"B", "comes"⟩]⟩ = .ok s₂ ∧
      s.register sharedTable ⟨1, [⟨"B", "comes"⟩]⟩ = .ok s' ∧
      (s₂.unregister 0).bindingsOf "x" = s'.bindingsOf "x" ∧
      (s₂.unregister 0).overrides.supersOf "e" = ["x", "x", "y"] ∧
      s'.overrides.supersOf "e" = ["x", "y", "x"] := by
  let s : Session :=
    ⟨⟨[("e", ["x"])]⟩, [("x", [⟨2, ⟨"A", "stays"⟩, 0⟩])], [⟨2, "e", "x"⟩], 0, []⟩
  let s₁ : Session :=
    ⟨⟨[("e", ["x", "x"])]⟩, [("x", [⟨2, ⟨"A", "stays"⟩, 0⟩, ⟨0, ⟨"A", "goes"⟩, 0⟩])],
      [⟨2, "e", "x"⟩, ⟨0, "e", "x"⟩], 0, []⟩
  have hs : Reached sharedTable [⟨2, [⟨"A", "stays"⟩]⟩] s :=
    Reached.register (.start (g := .empty) rfl) rfl
  have hfirst : s.register sharedTable ⟨0, [⟨"A", "goes"⟩]⟩ = .ok s₁ := rfl
  obtain ⟨s₂, hsecond⟩ : ∃ s₂, s₁.register sharedTable ⟨1, [⟨"B", "comes"⟩]⟩ = .ok s₂ := ⟨_, rfl⟩
  obtain ⟨s', halone, hbindings, hsupers⟩ :=
    unregister_first_of_two rfl hs (by decide) (by simp) hfirst hsecond
  obtain ⟨hs', hs₂, -, -⟩ := hsupers "e"
  exact ⟨s, s₁, s₂, s', hs, hfirst, hsecond, halone, hbindings "x", hs₂, hs'⟩

/-- The order of the supers is not that of the second listener alone. -/
theorem unregister_reorders_supers :
    ∃ s₁ s₂ s', (start .empty).register sharedTable ⟨0, [⟨"A", "goes"⟩]⟩ = .ok s₁ ∧
      s₁.register sharedTable ⟨1, [⟨"B", "comes"⟩]⟩ = .ok s₂ ∧
      (start .empty).register sharedTable ⟨1, [⟨"B", "comes"⟩]⟩ = .ok s' ∧
      (s₂.unregister 0).overrides.supersOf "e" = ["x", "y"] ∧ s'.overrides.supersOf "e" = ["y", "x"] :=
  ⟨_, _, _, rfl, rfl, rfl, rfl, rfl⟩

end EventTree.Session
