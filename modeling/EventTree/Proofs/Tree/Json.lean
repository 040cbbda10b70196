import Mathlib
import EventTree.Proofs.Json
import EventTree.Proofs.Tree
import EventTree.Tree.Json

/-!
# Trees read back from their text

A tree whose text nests no deeper than the reader follows, and whose doubles are finite, is the tree that
its text is read as. A tree that was read has both properties.
-/

namespace EventTree

namespace Json

variable {τ : Type}

mutual

/-- How many objects and arrays nest in a value. -/
def depth : Json τ → Nat
  | .array items => depthAll items + 1
  | .object fields => depthFields fields + 1
  | _ => 0

def depthAll : List (Json τ) → Nat
  | [] => 0
  | item :: items => max item.depth (depthAll items)

def depthFields : List (τ × Json τ) → Nat
  | [] => 0
  | (_, value) :: fields => max value.depth (depthFields fields)

end

end Json

namespace Tree

/-! ## The parts of a tree as JSON -/

/-- The field of a value, if there is one. -/
def valueJson (v : Option (Value Snapshot String)) : Option (Json String) :=
  v.map fun v => .object [valueField v]

/-- The field of the children, if there are any. -/
def childrenJson (ts : List Snapshot) : Option (Json String) :=
  if ts = [] then none else some (.array (toJsonAll ts))

def optionalField (key : String) (j : Option (Json String)) : List (String × Json String) :=
  (j.map (key, ·)).toList

theorem toJson_mk (name : String) (v : Option (Value Snapshot String)) (ts : List Snapshot) :
    toJson ⟨name, v, ts⟩ = .object (("name", .string name) ::
      (optionalField "value" (valueJson v) ++ optionalField "children" (childrenJson ts))) := by
  unfold toJson
  cases v <;> cases ts <;> simp [optionalField, valueJson, childrenJson, toJsonAll]

theorem record?_fields (name : Json String) (value children : Option (Json String)) :
    Json.record? ["name", "value", "children"] (Json.asRead (.object (("name", name) ::
        (optionalField "value" value ++ optionalField "children" children)))) =
      some [some name.asRead, value.map Json.asRead, children.map Json.asRead] := by
  cases value <;> cases children <;>
    simp [optionalField, Json.asRead, Json.asReadFields, Json.record?]

theorem depth_toJson (name : String) (v : Option (Value Snapshot String)) (ts : List Snapshot) :
    (toJson ⟨name, v, ts⟩).depth =
      max (((valueJson v).map Json.depth).getD 0) (((childrenJson ts).map Json.depth).getD 0) + 1 := by
  rw [toJson_mk]
  cases valueJson v <;> cases childrenJson ts <;>
    simp [optionalField, Json.depth, Json.depthFields]

theorem inOrderFields_append {fields more : List (String × Json String)}
    (h : Json.InOrderFields fields) (hmore : Json.InOrderFields more) :
    Json.InOrderFields (fields ++ more) := by
  induction fields with
  | nil => exact hmore
  | cons field fields ih => exact ⟨h.1, ih h.2⟩

theorem inOrder_optionalField {key : String} {j : Option (Json String)} (h : ∀ i ∈ j, i.InOrder) :
    Json.InOrderFields (optionalField key j) := by
  cases j with
  | none => trivial
  | some i => exact ⟨h i rfl, trivial⟩

mutual

theorem inOrder_toJson : (t : Snapshot) → t.toJson.InOrder
  | ⟨name, v, ts⟩ => by
    rw [toJson_mk]
    refine ⟨trivial, inOrderFields_append (inOrder_optionalField ?_) (inOrder_optionalField ?_)⟩
    · intro i hi
      obtain ⟨v, rfl, rfl⟩ := Option.map_eq_some_iff.mp hi
      exact ⟨inOrder_valueField v, trivial⟩
    · intro i hi
      unfold childrenJson at hi
      split at hi
      · cases hi
      · cases hi
        exact inOrderAll_toJsonAll ts

theorem inOrder_valueField : (v : Value Snapshot String) → (valueField v).2.InOrder
  | .bool _ => trivial
  | .int i => Numeral.inOrder_ofInt i.toInt
  | .float x => by
    unfold valueField
    dsimp only
    split
    · exact Numeral.inOrder_numeral jsonDouble x
    · trivial
  | .string _ => trivial
  | .node t => inOrder_toJson t
  | .selector _ => trivial

theorem inOrderAll_toJsonAll : (ts : List Snapshot) → Json.InOrderAll (toJsonAll ts)
  | [] => trivial
  | t :: ts => ⟨inOrder_toJson t, inOrderAll_toJsonAll ts⟩

end

/-! ## Reading a tree back -/

/-- The text of a double is read back to the same bits. -/
def ReadsBack (x : Double) : Prop :=
  ∃ n, Numeral.read (jsonDouble.numeral x).text = some (n, []) ∧ n.toDouble? = some x

theorem ReadsBack.toDouble? {x : Double} (h : ReadsBack x) :
    (jsonDouble.numeral x).toDouble? = some x := by
  obtain ⟨n, hread, hx⟩ := h
  have hsame : Numeral.read ((jsonDouble.numeral x).text ++ []) = _ :=
    Numeral.read_text (Numeral.inOrder_numeral jsonDouble x) (by simp [Numeral.Ends])
  rw [List.append_nil, hread] at hsame
  cases hsame
  exact hx

/-- A double that a tree may hold when it is to be read back. -/
def Readable (x : Double) : Prop := x.isFinite = true ∧ ReadsBack x

theorem ofJson?_toJson_mk {room : Nat} {name : String} {v : Option (Value Snapshot String)}
    {ts : List Snapshot} (hv : ofJsonOptional? room ((valueJson v).map Json.asRead) = some v)
    (hts : ofJsonAll? room ((childrenJson ts).map Json.asRead) = some ts) :
    ofJson? (room + 1) (toJson ⟨name, v, ts⟩).asRead = some ⟨name, v, ts⟩ := by
  rw [toJson_mk, ofJson?, record?_fields]
  simp [Json.asRead, hv, hts]

theorem ofJsonOptional?_valueJson {room : Nat} {v : Option (Value Snapshot String)}
    (h : ∀ w ∈ v, ofJsonValue? room (Json.asRead (.object [valueField w])) = some w) :
    ofJsonOptional? room ((valueJson v).map Json.asRead) = some v := by
  cases v with
  | none => simp [valueJson, ofJsonOptional?]
  | some w =>
    have hw := h w rfl
    rw [Json.asRead] at hw
    simp [valueJson, Json.asRead, ofJsonOptional?, hw]

mutual

theorem ofJson?_toJson : (t : Snapshot) → (∀ x, .float x ∈ t.values → Readable x) → {room : Nat} →
    t.toJson.depth ≤ room → ofJson? room t.toJson.asRead = some t
  | ⟨name, v, ts⟩, hfloats, room, hdepth => by
    rw [depth_toJson] at hdepth
    rw [values] at hfloats
    -- Each object and each array takes one level off the room.
    obtain _ | room := room
    · omega
    apply ofJson?_toJson_mk
    · apply ofJsonOptional?_valueJson
      cases v with
      | none => simp
      | some w =>
        rintro _ ⟨⟩
        apply ofJsonValue?_valueField w fun x hx => hfloats x (List.mem_append_left _ hx)
        simp [valueJson, Json.depth, Json.depthFields] at hdepth
        omega
    · cases ts with
      | nil => simp [childrenJson, ofJsonAll?]
      | cons t ts =>
        simp only [childrenJson, reduceCtorEq, if_false, Option.map_some, Option.getD_some, Json.depth]
          at hdepth
        obtain _ | room := room
        · omega
        have hts : (Json.asReadAll (toJsonAll (t :: ts))).mapM (ofJson? room) = some (t :: ts) :=
          mapM_toJsonAll (t :: ts) (fun x hx => hfloats x (List.mem_append_right _ hx)) (by omega)
        simp [childrenJson, Json.asRead, ofJsonAll?, hts]

theorem ofJsonValue?_valueField : (v : Value Snapshot String) →
    (∀ x, .float x ∈ valuesOf (some v) → Readable x) → {room : Nat} → (valueField v).2.depth < room →
    ofJsonValue? room (Json.asRead (.object [valueField v])) = some v
  | v, hfloats, room, hdepth => by
    obtain _ | room := room
    · omega
    cases v with
    | bool b => simp [valueField, Json.asRead, Json.asReadFields, ofJsonValue?]
    | int i =>
      simp [valueField, Json.asRead, Json.asReadFields, ofJsonValue?, Numeral.toInt64?_ofInt]
    | float x =>
      obtain ⟨hfinite, hback⟩ := hfloats x (by simp [valuesOf])
      simp [valueField, hfinite, Json.asRead, Json.asReadFields, ofJsonValue?, hback.toDouble?]
    | string s => simp [valueField, Json.asRead, Json.asReadFields, ofJsonValue?]
    | selector s => simp [valueField, Json.asRead, Json.asReadFields, ofJsonValue?]
    | node t =>
      have ht := ofJson?_toJson t (fun x hx => hfloats x (by simp [valuesOf, hx])) (Nat.le_of_lt_succ hdepth)
      simp [valueField, Json.asRead, Json.asReadFields, ofJsonValue?, ht]

theorem mapM_toJsonAll : (ts : List Snapshot) → (∀ x, .float x ∈ valuesAll ts → Readable x) →
    {room : Nat} → Json.depthAll (toJsonAll ts) ≤ room →
    (Json.asReadAll (toJsonAll ts)).mapM (ofJson? room) = some ts
  | [], _, _, _ => rfl
  | t :: ts, hfloats, room, hdepth => by
    rw [toJsonAll, Json.depthAll] at hdepth
    rw [valuesAll] at hfloats
    have ht := ofJson?_toJson t (fun x hx => hfloats x (List.mem_append_left _ hx))
      (Nat.le_trans (Nat.le_max_left _ _) hdepth)
    have hts := mapM_toJsonAll ts (fun x hx => hfloats x (List.mem_append_right _ hx))
      (Nat.le_trans (Nat.le_max_right _ _) hdepth)
    simp [toJsonAll, Json.asReadAll, List.mapM_cons, ht, hts]

end

/-! ## What was read -/

/-- Its text nests no deeper than `room`, and its doubles are finite. -/
structure Fits (room : Nat) (t : Snapshot) : Prop where
  depth_le : t.toJson.depth ≤ room
  isFinite : ∀ x, .float x ∈ t.values → x.isFinite = true

theorem of_ofJson? {room : Nat} {j : Json (Option String)} {t : Snapshot}
    (h : ofJson? (room + 1) j = some t) :
    (∃ value, ofJsonOptional? room value = some t.value) ∧
      ∃ children, ofJsonAll? room children = some t.children := by
  rw [ofJson?] at h
  split at h
  · rename_i name value children heq
    simp only [Option.bind_eq_bind, Option.bind_eq_some_iff] at h
    obtain ⟨v, hv, ts, hts, ht⟩ := h
    cases ht
    exact ⟨⟨value, hv⟩, children, hts⟩
  · cases h

theorem finite_of_ofJsonValue? {room : Nat} {j : Json (Option String)} {v : Value Snapshot String}
    (ih : ∀ smaller < room, ∀ i t, ofJson? smaller i = some t → Fits smaller t)
    (h : ofJsonValue? room j = some v) :
    (valueField v).2.depth < room ∧ ∀ x, .float x ∈ valuesOf (some v) → x.isFinite = true := by
  unfold ofJsonValue? at h
  split at h
  · split at h
    · cases h
      simp [valueField, Json.depth, valuesOf]
    · obtain ⟨i, -, rfl⟩ := Option.map_eq_some_iff.mp h
      simp [valueField, Json.depth, valuesOf]
    · obtain ⟨x, hx, rfl⟩ := Option.map_eq_some_iff.mp h
      have hfinite := Numeral.isFinite_of_toDouble? hx
      simp [valueField, Json.depth, valuesOf, hfinite]
    · obtain ⟨s, -, rfl⟩ := Option.map_eq_some_iff.mp h
      simp [valueField, Json.depth, valuesOf]
    · obtain ⟨t, ht, rfl⟩ := Option.map_eq_some_iff.mp h
      have hfits := ih _ (Nat.lt_succ_self _) _ t ht
      refine ⟨Nat.lt_succ_of_le hfits.depth_le, fun x hx => hfits.isFinite x ?_⟩
      simpa [valuesOf] using hx
    · obtain ⟨s, -, rfl⟩ := Option.map_eq_some_iff.mp h
      simp [valueField, Json.depth, valuesOf]
    · cases h
  · cases h

theorem forall_of_mapM {room : Nat} {items : List (Json (Option String))} {ts : List Snapshot}
    (h : items.mapM (ofJson? room) = some ts) : ∀ t ∈ ts, ∃ i, ofJson? room i = some t := by
  induction items generalizing ts with
  | nil =>
    cases h
    simp
  | cons item items ih =>
    simp only [List.mapM_cons, Option.bind_eq_bind, Option.bind_eq_some_iff] at h
    obtain ⟨t, ht, rest, hrest, heq⟩ := h
    cases heq
    intro u hu
    rcases List.mem_cons.mp hu with rfl | hu
    · exact ⟨item, ht⟩
    · exact ih hrest u hu

theorem depthAll_toJsonAll_le {room : Nat} {ts : List Snapshot} (h : ∀ t ∈ ts, Fits room t) :
    Json.depthAll (toJsonAll ts) ≤ room := by
  induction ts with
  | nil => exact Nat.zero_le _
  | cons t ts ih =>
    exact Nat.max_le.mpr ⟨(h t List.mem_cons_self).depth_le, ih fun u hu => h u (List.mem_cons_of_mem _ hu)⟩

theorem isFinite_of_mem_valuesAll {room : Nat} {ts : List Snapshot} (h : ∀ t ∈ ts, Fits room t)
    {x : Double} (hx : .float x ∈ valuesAll ts) : x.isFinite = true := by
  induction ts with
  | nil => cases hx
  | cons t ts ih =>
    rw [valuesAll] at hx
    rcases List.mem_append.mp hx with hx | hx
    · exact (h t List.mem_cons_self).isFinite x hx
    · exact ih (fun u hu => h u (List.mem_cons_of_mem _ hu)) hx

theorem fits_of_ofJson? {room : Nat} {j : Json (Option String)} {t : Snapshot}
    (h : ofJson? room j = some t) : Fits room t := by
  induction room using Nat.strong_induction_on generalizing j t with
  | _ room ih =>
    obtain _ | room := room
    · rw [ofJson?] at h
      cases h
    obtain ⟨name, v, ts⟩ := t
    obtain ⟨⟨value, hvalue⟩, children, hchildren⟩ := of_ofJson? h
    dsimp only at hvalue hchildren
    have hv : ((valueJson v).map Json.depth).getD 0 ≤ room ∧
        ∀ x, .float x ∈ valuesOf v → x.isFinite = true := by
      unfold ofJsonOptional? at hvalue
      split at hvalue
      · cases hvalue
        simp [valueJson, valuesOf]
      · cases hvalue
        simp [valueJson, valuesOf]
      · obtain ⟨w, hw, rfl⟩ := Option.map_eq_some_iff.mp hvalue
        obtain ⟨hdepth, hfinite⟩ := finite_of_ofJsonValue?
          (fun smaller hlt i t hi => ih smaller (Nat.lt_succ_of_lt hlt) hi) hw
        refine ⟨?_, hfinite⟩
        simp [valueJson, Json.depth, Json.depthFields]
        omega
    have hts : ((childrenJson ts).map Json.depth).getD 0 ≤ room ∧
        ∀ x, .float x ∈ valuesAll ts → x.isFinite = true := by
      unfold ofJsonAll? at hchildren
      split at hchildren
      · cases hchildren
        simp [childrenJson, valuesAll]
      · rename_i smaller items
        -- Children are read with less room than the array that they stand in.
        have hall : ∀ t ∈ ts, Fits smaller t := by
          intro t ht
          obtain ⟨i, hi⟩ := forall_of_mapM hchildren t ht
          exact ih smaller (by omega) hi
        have hdepth := depthAll_toJsonAll_le hall
        refine ⟨?_, fun x => isFinite_of_mem_valuesAll hall⟩
        unfold childrenJson
        split
        · exact Nat.zero_le _
        · exact Nat.succ_le_succ hdepth
      · cases hchildren
    refine ⟨?_, fun x hx => ?_⟩
    · rw [depth_toJson]
      omega
    · rw [values] at hx
      rcases List.mem_append.mp hx with hx | hx
      · exact hv.2 x hx
      · exact hts.2 x hx

/-! ## The whole text -/

theorem parse_eq_ok_iff {text : String} {t : Snapshot} :
    parse text = .ok t ↔ ∃ j, Json.read text = some j ∧ ofJson? deepest j = some t := by
  unfold parse
  cases hread : (Json.read text).bind (ofJson? deepest) with
  | none =>
    simp only [reduceCtorEq, false_iff]
    rintro ⟨j, hj, ht⟩
    simp [hj, ht] at hread
  | some u =>
    obtain ⟨j, hj, hu⟩ := Option.bind_eq_some_iff.mp hread
    simp only [Except.ok.injEq]
    constructor
    · rintro rfl
      exact ⟨j, hj, hu⟩
    · rintro ⟨i, hi, ht⟩
      rw [hj, Option.some.injEq] at hi
      rw [← hi, hu, Option.some.injEq] at ht
      exact ht

theorem parse_print {t : Snapshot} (hfits : Fits deepest t)
    (hback : ∀ x, .float x ∈ t.values → ReadsBack x) : parse t.print = .ok t := by
  refine parse_eq_ok_iff.mpr ⟨t.toJson.asRead, Json.read_pretty (inOrder_toJson t), ?_⟩
  exact ofJson?_toJson t (fun x hx => ⟨hfits.isFinite x hx, hback x hx⟩) hfits.depth_le

theorem fits_of_parse {text : String} {t : Snapshot} (h : parse text = .ok t) : Fits deepest t := by
  obtain ⟨j, -, ht⟩ := parse_eq_ok_iff.mp h
  exact fits_of_ofJson? ht

/-- Reading undoes printing for exactly the trees whose text nests at most 127 objects and arrays and
whose doubles are finite, and so for each tree that was read from any text. Of the doubles it is only
asked that the text of each is read back to the same bits. -/
theorem parse_inverts_print :
    (∀ t : Snapshot, (∀ x, .float x ∈ t.values → x.isFinite = true → ReadsBack x) →
      (parse t.print = .ok t ↔
        t.toJson.depth ≤ 127 ∧ ∀ x, .float x ∈ t.values → x.isFinite = true)) ∧
    ∀ text t, parse text = .ok t → (∀ x, .float x ∈ t.values → ReadsBack x) → parse t.print = .ok t := by
  refine ⟨fun t hback => ⟨fun h => ?_, fun h => ?_⟩, fun text t h hback => ?_⟩
  · have hfits := fits_of_parse h
    exact ⟨hfits.depth_le, hfits.isFinite⟩
  · exact parse_print ⟨h.1, h.2⟩ fun x hx => hback x hx (h.2 x hx)
  · exact parse_print (fits_of_parse h) hback

namespace Specimen

/-- Two and a half, and minus zero. -/
def floats : List Double := [⟨0x4004000000000000⟩, ⟨0x8000000000000000⟩]

def tree : Snapshot :=
  ⟨"a \"quote\", a \\ and a \x07", some (.node ⟨"é😀", some (.float ⟨0x4004000000000000⟩), []⟩),
    [⟨"least", some (.int (-9223372036854775808)), []⟩,
      ⟨"", some (.selector "/.."), [⟨"nothing", some (.float ⟨0x8000000000000000⟩), []⟩]⟩,
      ⟨"tab", some (.string "\t"), [⟨"yes", some (.bool true), []⟩]⟩]⟩

/-- With blanks, escapes, an unknown field and a node that is written as a list. -/
def text : String :=
  " \x7b\"value\": null, \"other\": [1e2], \"name\": \"\\u00e9\\ud83d\\ude00\", " ++
    "\"children\": [[\"a\", \x7b\"int\": -7\x7d]]\x7d"

def found : Snapshot := ⟨"é😀", none, [⟨"a", some (.int (-7)), []⟩]⟩

theorem readsBack {x : Double} (h : x ∈ floats) : ReadsBack x := by
  rcases List.mem_cons.mp h with rfl | h
  · refine ⟨⟨false, ['2'], some ['5'], none⟩, by decide +kernel, ?_⟩
    change some (Double.ofMagnitude false
      (Numeral.divideByPower (Double.ofRatio false 25 1) 1).magnitude) = _
    rw [Numeral.divideByPower]
    decide +kernel
  · rw [List.mem_singleton.mp h]
    exact ⟨⟨true, ['0'], some ['0'], none⟩, by decide +kernel, by decide +kernel⟩

theorem mem_floats {x : Double} (h : .float x ∈ tree.values) : x ∈ floats := by
  simpa [tree, floats, values, valuesOf, valuesAll] using h

end Specimen

theorem parse_inverts_print_of_specimen :
    parse (print Specimen.tree) = .ok Specimen.tree ∧
    parse Specimen.text = .ok Specimen.found ∧ parse (print Specimen.found) = .ok Specimen.found := by
  refine ⟨(parse_inverts_print.1 Specimen.tree ?_).mpr ⟨by decide +kernel, ?_⟩, ?_⟩
  · exact fun x hx _ => Specimen.readsBack (Specimen.mem_floats hx)
  · intro x hx
    have hall : ∀ x ∈ Specimen.floats, x.isFinite = true := by decide
    exact hall x (Specimen.mem_floats hx)
  · have hparse : parse Specimen.text = .ok Specimen.found := by cbv
    refine ⟨hparse, parse_inverts_print.2 _ _ hparse ?_⟩
    simp [Specimen.found, values, valuesOf, valuesAll]

end Tree

end EventTree
