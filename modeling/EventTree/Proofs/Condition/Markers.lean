import EventTree.Proofs.Condition.Reading
import EventTree.Proofs.Forest.Planting
import EventTree.Proofs.Lending

/-!
# A condition under way

While a conditional node is tested, values within it change, new nodes appear, and a marker may stand
before its children. Everything else is as it was.
-/

namespace EventTree

open EventTree.Action Keyword

namespace Forest

/-! ## Subtrees -/

section Subtrees

variable {f g : Forest} (wf : f.WellFormed)

include wf

theorem WellFormed.not_within_child {n c : NodeId} (hc : f.parent c = some n) : ¬ f.Within c n := by
  rintro (rfl | h)
  · exact wf.ne_parent hc rfl
  · exact wf.acyclic n ((above_of_parent hc).trans h)

theorem WellFormed.within_unique {n c d m : NodeId} (hc : f.parent c = some n)
    (hd : f.parent d = some n) (hcm : f.Within c m) (hdm : f.Within d m) : c = d := by
  -- A sibling is not above a sibling.
  have hup : ∀ a b : NodeId, f.parent a = some n → f.parent b = some n → f.Above a b → a = b := by
    intro a b ha hb hab
    obtain ⟨p, hp, hap⟩ := above_iff.mp hab
    obtain rfl : n = p := Option.some.inj (hb.symm.trans hp)
    exact absurd (hap.imp Eq.symm id) (wf.not_within_child ha)
  induction m using wf.wellFounded.induction with
  | _ m ih =>
    rcases hcm with rfl | hcm
    · rcases hdm with rfl | hdm
      · rfl
      · exact (hup d m hd hc hdm).symm
    · rcases hdm with rfl | hdm
      · exact hup c m hc hd hcm
      · obtain ⟨p, hp, hcp⟩ := above_iff.mp hcm
        obtain ⟨q, hq, hdq⟩ := above_iff.mp hdm
        obtain rfl : p = q := Option.some.inj (hp.symm.trans hq)
        exact ih p hp (hcp.imp Eq.symm id) (hdq.imp Eq.symm id)

theorem WellFormed.not_within_sibling {n c : NodeId} {l r : List NodeId}
    (hs : f.children n = l ++ c :: r) {m : NodeId} (hm : f.Within c m) : ∀ d ∈ r, ¬ f.Within d m := by
  intro d hd hdm
  have hmem : ∀ x ∈ c :: r, f.parent x = some n := by
    intro x hx
    rw [← wf.linked, hs]
    exact List.mem_append_right _ hx
  obtain rfl := wf.within_unique (hmem c List.mem_cons_self) (hmem d (List.mem_cons_of_mem _ hd)) hm hdm
  have hnodup := wf.nodup n
  rw [hs] at hnodup
  exact (List.nodup_cons.mp (List.nodup_append.mp hnodup).2.1).1 hd

theorem WellFormed.above_of_parents (hparent : ∀ m, f.Has m → g.parent m = f.parent m)
    {a m : NodeId} (hm : f.Has m) : g.Above a m ↔ f.Above a m := by
  constructor
  · intro h
    induction h with
    | single hp =>
      rename_i c
      exact above_of_parent ((hparent c hm).symm.trans hp)
    | tail _ hp ih =>
      rename_i b c _
      have hp : f.parent c = some b := (hparent c hm).symm.trans hp
      exact (ih (wf.has_parent hp)).trans (above_of_parent hp)
  · intro h
    refine h.mono fun c p hp => ?_
    rw [hparent c (has_of_parent hp), hp]

theorem WellFormed.within_of_parents (hparent : ∀ m, f.Has m → g.parent m = f.parent m)
    {a m : NodeId} (hm : f.Has m) : g.Within a m ↔ f.Within a m := by
  rw [Within, wf.above_of_parents hparent hm, Within]

end Subtrees

/-! ## Under way -/

/-- `g` is what `f` has become while `n` is tested. -/
structure Underway (f : Forest) (n : NodeId) (marker : Option NodeId) (g : Forest) : Prop where
  wellFormed : g.WellFormed
  size_le : f.size ≤ g.size
  name_eq : ∀ m, f.Has m → g.name m = f.name m
  parent_eq : ∀ m, f.Has m → g.parent m = f.parent m
  children_ne : ∀ m, f.Has m → m ≠ n → g.children m = f.children m
  children_eq : g.children n = marker.toList ++ f.children n
  value_eq : ∀ m, f.Has m → ¬ f.Within n m → g.value m = f.value m
  marker_new : ∀ k, marker = some k → ¬ f.Has k
  marker_name : ∀ k, marker = some k → g.name k = markerName

namespace Underway

variable {f g : Forest} {n : NodeId} {marker : Option NodeId}

theorem has (h : f.Underway n marker g) {m : NodeId} (hm : f.Has m) : g.Has m :=
  Nat.lt_of_lt_of_le hm h.size_le

theorem refl (wf : f.WellFormed) : f.Underway n none f :=
  ⟨wf, Nat.le_refl _, fun _ _ => rfl, fun _ _ => rfl, fun _ _ _ => rfl, rfl, fun _ _ _ => rfl,
    (fun _ hk => by cases hk), (fun _ hk => by cases hk)⟩

theorem grown (h : f.Underway n marker g) {k : Forest} (hk : g.Grown k) (wf : k.WellFormed)
    (hn : f.Has n) : f.Underway n marker k where
  wellFormed := wf
  size_le := Nat.le_trans h.size_le hk.size_le
  name_eq m hm := by rw [hk.name_eq (h.has hm), h.name_eq m hm]
  parent_eq m hm := by rw [hk.parent_eq (h.has hm), h.parent_eq m hm]
  children_ne m hm hne := by rw [hk.children_eq (h.has hm), h.children_ne m hm hne]
  children_eq := by rw [hk.children_eq (h.has hn), h.children_eq]
  value_eq m hm hout := by rw [hk.value_eq (h.has hm), h.value_eq m hm hout]
  marker_new := h.marker_new
  marker_name m hm := by
    have hmem : m ∈ g.children n := by
      rw [h.children_eq, hm]
      exact List.mem_cons_self
    rw [hk.name_eq (h.wellFormed.has_child hmem), h.marker_name m hm]

theorem mark (wf : f.WellFormed) (h : f.Underway n none g) {d : NodeId} {k : Forest}
    (hd : ¬ f.Has d) (hname : g.name d = markerName) (hl : Lent n [d] g k)
    (hk : k.children n = d :: g.children n) : f.Underway n (some d) k where
  wellFormed := hl.wellFormed
  size_le := by rw [hl.size_eq]; exact h.size_le
  name_eq m hm := by rw [hl.name_eq, h.name_eq m hm]
  parent_eq m hm := by
    have hne : m ∉ [d] := fun hmem => hd (List.mem_singleton.mp hmem ▸ hm)
    rw [hl.parent_eq, if_neg hne, h.parent_eq m hm]
  children_ne m hm hne := by
    rw [hl.children_ne m hne, h.children_ne m hm hne, List.filter_eq_self]
    refine fun c hc => decide_eq_true fun hmem => hd ?_
    exact List.mem_singleton.mp hmem ▸ wf.has_child hc
  children_eq := by rw [hk, h.children_eq]; rfl
  value_eq m hm hout := by rw [hl.value_eq, h.value_eq m hm hout]
  marker_new k hk := Option.some.inj hk ▸ hd
  marker_name k hk := by rw [← Option.some.inj hk, hl.name_eq, hname]

theorem unmark (wf : f.WellFormed) {d : NodeId} (h : f.Underway n (some d) g) :
    f.Underway n none (g.detach d) := by
  have hd := h.marker_new d rfl
  -- A marker is new, so it was nobody's child before.
  have hself : ∀ m, (f.children m).filter (· ≠ d) = f.children m := fun m => by
    rw [List.filter_eq_self]
    exact fun c hc => decide_eq_true fun hcd => hd (hcd ▸ wf.has_child hc)
  refine ⟨h.wellFormed.detach d, by simpa using h.size_le, fun m hm => ?_, fun m hm => ?_,
    fun m hm hne => ?_, ?_, fun m hm hout => ?_, (fun k hk => by cases hk),
    (fun k hk => by cases hk)⟩
  · rw [name_detach, h.name_eq m hm]
  · have hne : m ≠ d := fun hmd => hd (hmd ▸ hm)
    rw [parent_detach, if_neg hne, h.parent_eq m hm]
  · rw [h.wellFormed.children_detach, h.children_ne m hm hne, hself]
  · rw [h.wellFormed.children_detach, h.children_eq, Option.toList_some, List.singleton_append,
      List.filter_cons_of_neg (by simp), hself]
    rfl
  · rw [value_detach, h.value_eq m hm hout]

theorem setValue (h : f.Underway n marker g) {m : NodeId} (hm : f.Within n m ∨ ¬ f.Has m) (b : Bool) :
    f.Underway n marker (g.setValue m (some (.bool b))) where
  wellFormed := h.wellFormed.setValue m fun k hk => by cases hk
  size_le := by simpa using h.size_le
  name_eq k hk := by rw [name_setValue, h.name_eq k hk]
  parent_eq k hk := by rw [parent_setValue, h.parent_eq k hk]
  children_ne k hk hne := by rw [children_setValue, h.children_ne k hk hne]
  children_eq := by rw [children_setValue, h.children_eq]
  value_eq k hk hout := by
    have hne : k ≠ m := by
      rintro rfl
      exact hm.elim hout fun h => h hk
    rw [value, Forest.setValue, cell_update_ne hne]
    exact h.value_eq k hk hout
  marker_new := h.marker_new
  marker_name k hk := by rw [name_setValue, h.marker_name k hk]

theorem nested (wf : f.WellFormed) (h : f.Underway n marker g) {c : NodeId} {k : Forest}
    (hc : f.parent c = some n) (hk : g.Underway c none k) : f.Underway n marker k where
  wellFormed := hk.wellFormed
  size_le := Nat.le_trans h.size_le hk.size_le
  name_eq m hm := by rw [hk.name_eq m (h.has hm), h.name_eq m hm]
  parent_eq m hm := by rw [hk.parent_eq m (h.has hm), h.parent_eq m hm]
  children_ne m hm hne := by
    by_cases hmc : m = c
    · subst hmc
      rw [hk.children_eq, h.children_ne m hm hne]
      rfl
    · rw [hk.children_ne m (h.has hm) hmc, h.children_ne m hm hne]
  children_eq := by
    have hne : n ≠ c := (wf.ne_parent hc).symm
    rw [hk.children_ne n (h.has (wf.has_parent hc)) hne, h.children_eq]
  value_eq m hm hout := by
    rw [hk.value_eq m (h.has hm), h.value_eq m hm hout]
    rw [wf.within_of_parents h.parent_eq hm]
    exact fun hin => hout (hin.of_child hc)
  marker_new := h.marker_new
  marker_name m hm := by
    have hmem : m ∈ g.children n := by
      rw [h.children_eq, hm]
      exact List.mem_cons_self
    rw [hk.name_eq m (h.wellFormed.has_child hmem), h.marker_name m hm]

theorem value_nested (wf : f.WellFormed) (h : f.Underway n marker g) {c : NodeId} {k : Forest}
    (hk : g.Underway c none k) {m : NodeId} (hm : f.Has m) (hout : ¬ f.Within c m) :
    k.value m = g.value m := by
  refine hk.value_eq m (h.has hm) ?_
  rwa [wf.within_of_parents h.parent_eq hm]

section Marker

variable (h : f.Underway n marker g) (hunmarked : ∀ c ∈ f.children n, f.name c ≠ markerName)

include h

theorem parent_marker {k : NodeId} (hk : marker = some k) : g.parent k = some n := by
  rw [← h.wellFormed.linked, h.children_eq, hk]
  exact List.mem_cons_self

theorem marked_setValue {c : NodeId} (hc : f.Has c) (v : Option LiveValue) :
    (marker.any fun d => Value.isTruthy ((g.setValue c v).value d)) =
      marker.any fun d => Value.isTruthy (g.value d) := by
  cases hm : marker with
  | none => rfl
  | some d =>
    have hne : d ≠ c := fun hdc => h.marker_new d hm (hdc ▸ hc)
    rw [Option.any_some, Option.any_some, value_setValue (h.has hc), if_neg hne]

theorem marked_nested {c : NodeId} (hc : f.parent c = some n) {k : Forest}
    (hk : g.Underway c none k) :
    (marker.any fun d => Value.isTruthy (k.value d)) =
      marker.any fun d => Value.isTruthy (g.value d) := by
  cases hm : marker with
  | none => rfl
  | some d =>
    have hd := h.parent_marker hm
    have hhas := has_of_parent hc
    have hgc : g.parent c = some n := (h.parent_eq c hhas).trans hc
    -- The marker is a sibling of what was tested.
    have hout : ¬ g.Within c d := by
      intro hin
      have hcd := h.wellFormed.within_unique hgc hd hin (Or.inl rfl)
      exact h.marker_new d hm (hcd ▸ hhas)
    simp only [Option.any_some, hk.value_eq d (has_of_parent hd) hout]

variable (wf : f.WellFormed)

include hunmarked wf

theorem hasName_child {c : NodeId} (hc : c ∈ f.children n) : g.hasName markerName c = false := by
  rw [hasName, h.name_eq c (wf.has_child hc)]
  simpa using hunmarked c hc

theorem find?_marker : g.find? n markerName = marker := by
  have hnone : (f.children n).find? (g.hasName markerName) = none := by
    rw [List.find?_eq_none]
    exact fun c hc => by simp [h.hasName_child hunmarked wf hc]
  rw [find?, h.children_eq]
  cases hm : marker with
  | none => exact hnone
  | some k => simp [hasName, h.marker_name k hm]

theorem findAll_marker : g.findAll n markerName = marker.toList := by
  have hnone : (f.children n).filter (g.hasName markerName) = [] := by
    rw [List.filter_eq_nil_iff]
    exact fun c hc => by simp [h.hasName_child hunmarked wf hc]
  rw [findAll, h.children_eq, List.filter_append, hnone, List.append_nil]
  cases hm : marker with
  | none => rfl
  | some k => simp [hasName, h.marker_name k hm]

end Marker

end Underway

end Forest

namespace Keyword

/-! ## Setting and clearing markers -/

theorem createWith_grows {f : Forest} (wf : f.WellFormed) {n : NodeId} (hn : f.Has n) (name : String)
    (b : Bool) (hold : Hold) (w : World) :
    ∃ g, (createWith name (some (.bool b))).result hold (w.on f) = (.ok ⟨f.size⟩, w.on g) ∧
      f.Grown g ∧ g.WellFormed ∧ g.Attachable n ⟨f.size⟩ ∧ g.name ⟨f.size⟩ = name ∧
      g.value ⟨f.size⟩ = some (.bool b) := by
  refine ⟨(f.create name).2.setValue ⟨f.size⟩ (some (.bool b)), rfl, ?_, ?_, ?_, ?_, ?_⟩
  · exact ((Forest.Grown.refl f).create name).setValue (Nat.lt_irrefl _) fun m hm => by cases hm
  · exact wf.createWith name fun m hm => by cases hm
  · exact wf.attachable_created hn name
  · rw [Forest.name_setValue, Forest.name, Forest.cell_create_self]
    rfl
  · rw [Forest.value_setValue Forest.has_create_self, if_pos rfl]

section Marker

variable {f g : Forest} {n : NodeId} {marker : Option NodeId} (h : f.Underway n marker g)
  (hunmarked : ∀ c ∈ f.children n, f.name c ≠ markerName) (wf : f.WellFormed) (hn : f.Has n)
  (hold : Hold) (w : World)

include h hunmarked wf hn

theorem setMarker_underway (b : Bool) :
    ∃ k g', (setMarker n b).result hold (w.on g) = (.ok (), w.on g') ∧ f.Underway n (some k) g' ∧
      g'.value k = some (.bool b) ∧ ∀ m, f.Has m → g'.value m = g.value m := by
  cases hm : marker with
  | some k =>
    have hk := h.marker_new k hm
    have hhas : g.Has k := Forest.has_of_parent (h.parent_marker hm)
    refine ⟨k, g.setValue k (some (.bool b)), ?_, hm ▸ h.setValue (Or.inr hk) b, ?_, ?_⟩
    · rw [setMarker, result_bind_ok (result_ask _), World.forest_on, h.find?_marker hunmarked wf, hm]
      rfl
    · rw [Forest.value_setValue hhas, if_pos rfl]
    · intro m hold
      rw [Forest.value_setValue hhas, if_neg]
      rintro rfl
      exact hk hold
  | none =>
    subst hm
    obtain ⟨g₁, hcreate, hgrown, hwf, ha, hname, hvalue⟩ :=
      createWith_grows h.wellFormed (h.has hn) markerName b hold w
    have hd : ¬ f.Has ⟨g.size⟩ := Nat.not_lt.mpr h.size_le
    obtain ⟨g₂, hinsert, hl, hg₂⟩ := insertFirst_lends (w := w.on g₁) hold hwf ha
    rw [World.forest_on] at hl hg₂
    refine ⟨⟨g.size⟩, g₂, ?_, ?_, ?_, ?_⟩
    · rw [setMarker, result_bind_ok (result_ask _), World.forest_on, h.find?_marker hunmarked wf]
      dsimp only
      rw [result_bind_ok hcreate]
      exact hinsert
    · exact (h.grown hgrown hwf hn).mark wf hd hname hl hg₂
    · rw [hl.value_eq, hvalue]
    · intro m hm
      rw [hl.value_eq, hgrown.value_eq (h.has hm)]

omit hn in
theorem result_marked :
    (ask fun f => (f.find? n markerName).any fun m => Value.isTruthy (f.value m)).result hold (w.on g) =
      (.ok (marker.any fun k => Value.isTruthy (g.value k)), w.on g) := by
  rw [result_ask, World.forest_on, h.find?_marker hunmarked wf]

omit hn in
theorem clearMarkers_underway (hheld : n ∈ hold.held) :
    ∃ g', (clearMarkers n).result hold (w.on g) = (.ok (), w.on g') ∧ f.Underway n none g' ∧
      ∀ m, g'.value m = g.value m := by
  have hall : (ask (·.findAll n markerName)).result hold (w.on g) = (.ok marker.toList, w.on g) := by
    rw [result_ask, World.forest_on, h.findAll_marker hunmarked wf]
  cases hm : marker with
  | none =>
    refine ⟨g, ?_, hm ▸ h, fun _ => rfl⟩
    rw [clearMarkers, result_bind_ok hall, hm]
    rfl
  | some k =>
    have hparent : ((w.on g).forest.seen hold).parent k = some n :=
      h.wellFormed.parent_seen hheld (h.parent_marker hm)
    refine ⟨g.detach k, ?_, (hm ▸ h).unmark wf, fun m => Forest.value_detach⟩
    rw [clearMarkers, result_bind_ok hall, hm, Option.toList_some, forEach,
      result_bind_ok (result_untie hparent)]
    rfl

theorem unsetMarker_underway (hheld : n ∈ hold.held) (b : Bool) :
    ∃ g' marker', (if b then setMarker n false else clearMarkers n).result hold (w.on g) =
        (.ok (), w.on g') ∧ f.Underway n marker' g' ∧
      (marker'.any fun k => Value.isTruthy (g'.value k)) = false ∧
      ∀ m, f.Has m → g'.value m = g.value m := by
  cases b with
  | true =>
    obtain ⟨k, g', hmark, hu', hk, hsame⟩ := setMarker_underway h hunmarked wf hn hold w false
    exact ⟨g', some k, hmark, hu', by simp [hk, Value.isTruthy], hsame⟩
  | false =>
    obtain ⟨g', hclear, hu', hsame⟩ := clearMarkers_underway h hunmarked wf hold w hheld
    exact ⟨g', none, hclear, hu', rfl, fun m _ => hsame m⟩

end Marker

end Keyword

end EventTree
