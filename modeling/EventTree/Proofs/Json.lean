import EventTree.Json.Printer
import EventTree.Json.Reader
import EventTree.Proofs.Number.Numerals

/-!
# Printing and reading JSON

A value whose numbers are in order is read back from its text over many lines. Every part of the text is
read on its own, whatever blanks stand before it and whatever follows that cannot be taken for more of it.
-/

namespace EventTree.Json

/-! ## Blanks -/

theorem skipBlanks_append {blanks rest : List Char} (hblanks : ∀ c ∈ blanks, isBlank c = true)
    (hrest : ∀ c ∈ rest.head?, isBlank c = false) : skipBlanks (blanks ++ rest) = rest := by
  unfold skipBlanks
  rw [List.dropWhile_append_of_pos hblanks]
  cases rest with
  | nil => rfl
  | cons c more => rw [List.dropWhile_cons_of_neg (by simp [hrest c rfl])]

theorem isBlank_of_mem_newline {level : Nat} {c : Char} (h : c ∈ newline level) : isBlank c = true := by
  unfold newline at h
  rcases List.mem_cons.mp h with rfl | h
  · rfl
  · rw [List.eq_of_mem_replicate h]
    rfl

/-! ## Strings -/

/-- A piece before what else was read. -/
def before (piece : Piece) (found : List Piece × List Char) : List Piece × List Char :=
  (piece :: found.1, found.2)

theorem readPieces_control {c : Char} (h : c.toNat < 0x20) (rest : List Char) :
    readPieces ('\\' :: 'u' :: '0' :: '0' :: hexDigit (c.toNat / 16) :: hexDigit (c.toNat % 16) :: rest) =
      (readPieces rest).map (before (.char c)) := by
  have hunits : ∀ n < 0x20, escapedUnit? '0' '0' (hexDigit (n / 16)) (hexDigit (n % 16)) =
      some (.char (Char.ofNat n)) := by decide
  rw [readPieces, hunits c.toNat h, Char.ofNat_toNat]
  cases readPieces rest with
  | none => rfl
  | some found => rfl

theorem readPieces_plain {c : Char} (hquote : c ≠ '"') (hslash : c ≠ '\\') (h : ¬ c.toNat < 0x20)
    (rest : List Char) : readPieces (c :: rest) = (readPieces rest).map (before (.char c)) := by
  rw [readPieces, if_neg h]
  · cases readPieces rest with
    | none => rfl
    | some found => rfl
  all_goals simp [hquote, hslash]

theorem readPieces_escaped (c : Char) (rest : List Char) :
    readPieces (escaped c ++ rest) = (readPieces rest).map (before (.char c)) := by
  unfold escaped
  split
  case h_8 hquote hslash _ _ _ _ _ =>
    split
    · rename_i h
      exact readPieces_control h rest
    · rename_i h
      exact readPieces_plain hquote hslash h rest
  all_goals
    cases hrest : readPieces rest with
    | none => simp [readPieces, escapedChar?, hrest]
    | some found => simp [readPieces, escapedChar?, hrest, before]

theorem readPieces_flatMap (cs rest : List Char) :
    readPieces (cs.flatMap escaped ++ '"' :: rest) = some (cs.map .char, rest) := by
  induction cs with
  | nil => rfl
  | cons c cs ih => simp [List.flatMap_cons, readPieces_escaped, ih, before]

theorem assemble_map (cs : List Char) : assemble (cs.map .char) = some cs := by
  induction cs with
  | nil => rfl
  | cons c cs ih => simp [assemble, ih]

theorem readString_append (s : String) (rest : List Char) :
    readString (s.toList.flatMap escaped ++ '"' :: rest) = some (some s, rest) := by
  unfold readString
  rw [readPieces_flatMap]
  simp [assemble_map]

/-! ## Values -/

mutual

/-- A value as it comes out of a text, where each string spells something. -/
def asRead : Json String → Json (Option String)
  | .null => .null
  | .bool b => .bool b
  | .number n => .number n
  | .string s => .string (some s)
  | .array items => .array (asReadAll items)
  | .object fields => .object (asReadFields fields)

def asReadAll : List (Json String) → List (Json (Option String))
  | [] => []
  | item :: items => asRead item :: asReadAll items

def asReadFields : List (String × Json String) → List (Option String × Json (Option String))
  | [] => []
  | (key, value) :: fields => (some key, asRead value) :: asReadFields fields

end

mutual

/-- All numbers are numerals in order. -/
def InOrder : Json String → Prop
  | .number n => n.InOrder
  | .array items => InOrderAll items
  | .object fields => InOrderFields fields
  | _ => True

def InOrderAll : List (Json String) → Prop
  | [] => True
  | item :: items => item.InOrder ∧ InOrderAll items

def InOrderFields : List (String × Json String) → Prop
  | [] => True
  | (_, value) :: fields => value.InOrder ∧ InOrderFields fields

end

/-- A value is read back from its text, however deep that is indented. -/
structure ReadBack (j : Json String) : Prop where
  starts : ∀ level, ∃ c more, pretty level j = c :: more ∧ isBlank c = false ∧ c ≠ ']'
  read : ∀ {level fuel : Nat} {cs rest : List Char}, (pretty level j).length < fuel → Numeral.Ends rest →
    skipBlanks cs = pretty level j ++ rest → readValue fuel cs = some (j.asRead, rest)

theorem ReadBack.skipBlanks_append {j : Json String} (h : j.ReadBack) {blanks : List Char}
    (hblanks : ∀ c ∈ blanks, isBlank c = true) (level : Nat) (rest : List Char) :
    skipBlanks (blanks ++ (pretty level j ++ rest)) = pretty level j ++ rest := by
  obtain ⟨c, more, hcons, hc, -⟩ := h.starts level
  apply Json.skipBlanks_append hblanks
  rintro d hd
  rw [hcons] at hd
  cases hd
  exact hc

theorem ReadBack.skipBlanks {j : Json String} (h : j.ReadBack) (level : Nat) (rest : List Char) :
    Json.skipBlanks (pretty level j ++ rest) = pretty level j ++ rest :=
  h.skipBlanks_append (List.forall_mem_nil _) level rest

theorem ends_newline (level : Nat) (rest : List Char) : Numeral.Ends (newline level ++ rest) := by
  rintro c ⟨⟩
  decide

theorem ends_comma (rest : List Char) : Numeral.Ends (',' :: rest) := by
  rintro c ⟨⟩
  decide

theorem skipBlanks_cons {c : Char} (h : isBlank c = false) (rest : List Char) :
    skipBlanks (c :: rest) = c :: rest := by
  unfold skipBlanks
  rw [List.dropWhile_cons_of_neg (by simp [h])]

theorem skipBlanks_newline {c : Char} (h : isBlank c = false) (level : Nat) (rest : List Char) :
    skipBlanks (newline level ++ c :: rest) = c :: rest := by
  apply Json.skipBlanks_append fun d => isBlank_of_mem_newline
  rintro d ⟨⟩
  exact h

/-! ### Items and fields -/

theorem readItems_pretty {items : List (Json String)} (hitems : ∀ j ∈ items, j.ReadBack)
    {item : Json String} (hitem : item.ReadBack) {level outer fuel : Nat} {cs rest : List Char}
    (hfuel : (pretty level item).length + (prettyItems level items).length + 1 < fuel)
    (hcs : skipBlanks cs =
      pretty level item ++ (prettyItems level items ++ (newline outer ++ ']' :: rest))) :
    readItems fuel cs = some (asRead item :: asReadAll items, rest) := by
  induction items generalizing item fuel cs with
  | nil =>
    obtain _ | fuel := fuel
    · omega
    -- After the last item the text goes on with a new line, so a numeral ends there.
    have hvalue : readValue fuel cs = some (item.asRead, newline outer ++ ']' :: rest) :=
      hitem.read (by omega) (ends_newline _ _) hcs
    rw [readItems, hvalue]
    simp [skipBlanks_newline, isBlank, asReadAll]
  | cons next items ih =>
    obtain _ | fuel := fuel
    · omega
    have hnext := hitems next List.mem_cons_self
    rw [prettyItems] at hfuel hcs
    simp only [List.cons_append, List.append_assoc, List.length_cons, List.length_append] at hfuel hcs
    have hvalue : readValue fuel cs = some (item.asRead, _) := hitem.read (by omega) (ends_comma _) hcs
    have hrest : readItems fuel (newline level ++ (pretty level next ++ (prettyItems level items ++
        (newline outer ++ ']' :: rest)))) = some (asRead next :: asReadAll items, rest) :=
      ih (fun j hj => hitems j (List.mem_cons_of_mem _ hj)) hnext (by omega)
        (hnext.skipBlanks_append (fun c => isBlank_of_mem_newline) level _)
    rw [readItems, hvalue]
    simp [skipBlanks_cons, isBlank, hrest, asReadAll]

theorem readFields_pretty {fields : List (String × Json String)}
    (hfields : ∀ field ∈ fields, field.2.ReadBack) {key : String} {value : Json String}
    (hvalue : value.ReadBack) {level outer fuel : Nat} {cs rest : List Char}
    (hfuel : (pretty level value).length + (prettyFields level fields).length + 1 < fuel)
    (hcs : skipBlanks cs =
      prettyField level (key, value) ++ (prettyFields level fields ++ (newline outer ++ '\x7d' :: rest))) :
    readFields fuel cs = some ((some key, asRead value) :: asReadFields fields, rest) := by
  have hblank : ∀ c ∈ [' '], isBlank c = true := by simp [isBlank]
  induction fields generalizing key value fuel cs with
  | nil =>
    obtain _ | fuel := fuel
    · omega
    simp only [prettyField, printString, prettyFields, List.cons_append, List.append_assoc,
      List.nil_append] at hcs
    have hread : readValue fuel (' ' :: (pretty level value ++ (newline outer ++ '\x7d' :: rest))) =
        some (value.asRead, newline outer ++ '\x7d' :: rest) :=
      hvalue.read (by omega) (ends_newline _ _)
        (hvalue.skipBlanks_append hblank level _)
    rw [readFields, hcs]
    simp [readString_append, skipBlanks_cons, skipBlanks_newline, isBlank, hread, asReadFields]
  | cons field fields ih =>
    obtain _ | fuel := fuel
    · omega
    obtain ⟨nextKey, next⟩ := field
    have hnext : next.ReadBack := hfields _ List.mem_cons_self
    rw [prettyFields] at hfuel hcs
    simp only [List.cons_append, List.append_assoc, List.length_cons, List.length_append] at hfuel hcs
    have hfield : (pretty level next).length ≤ (prettyField level (nextKey, next)).length := by
      simp only [prettyField, List.length_append, List.length_cons]
      omega
    rw [prettyField, printString] at hcs
    simp only [List.cons_append, List.append_assoc, List.nil_append] at hcs
    have hread : readValue fuel (' ' :: (pretty level value ++ ',' :: (newline level ++
        (prettyField level (nextKey, next) ++ (prettyFields level fields ++
          (newline outer ++ '\x7d' :: rest)))))) = some (value.asRead, _) :=
      hvalue.read (by omega) (ends_comma _)
        (hvalue.skipBlanks_append hblank level _)
    have hrest : readFields fuel (newline level ++ (prettyField level (nextKey, next) ++
        (prettyFields level fields ++ (newline outer ++ '\x7d' :: rest)))) =
        some ((some nextKey, asRead next) :: asReadFields fields, rest) :=
      ih (fun f hf => hfields f (List.mem_cons_of_mem _ hf)) hnext (by omega)
        (skipBlanks_newline rfl level _)
    rw [readFields, hcs]
    simp [readString_append, skipBlanks_cons, isBlank, hread, hrest, asReadFields]

/-! ### One value -/

theorem readValue_items {fuel : Nat} {cs inner more : List Char} {c : Char}
    (hcs : skipBlanks cs = '[' :: inner) (hinner : skipBlanks inner = c :: more) (hclose : c ≠ ']') :
    readValue (fuel + 1) cs =
      (readItems fuel (c :: more)).map fun found => (.array found.1, found.2) := by
  rw [readValue, hcs]
  simp [hinner, hclose]

theorem readValue_fields {fuel : Nat} {cs inner more : List Char} (hcs : skipBlanks cs = '\x7b' :: inner)
    (hinner : skipBlanks inner = '"' :: more) :
    readValue (fuel + 1) cs =
      (readFields fuel ('"' :: more)).map fun found => (.object found.1, found.2) := by
  rw [readValue, hcs]
  simp [hinner]

theorem readBack_null : ReadBack .null := by
  refine ⟨fun level => ⟨'n', _, rfl, rfl, by decide⟩, fun {level fuel cs rest} hfuel _ hcs => ?_⟩
  obtain _ | fuel := fuel
  · omega
  rw [readValue, hcs]
  rfl

theorem readBack_bool (b : Bool) : ReadBack (.bool b) := by
  cases b with
  | true =>
    refine ⟨fun level => ⟨'t', _, rfl, rfl, by decide⟩, fun {level fuel cs rest} hfuel _ hcs => ?_⟩
    obtain _ | fuel := fuel
    · omega
    rw [readValue, hcs]
    rfl
  | false =>
    refine ⟨fun level => ⟨'f', _, rfl, rfl, by decide⟩, fun {level fuel cs rest} hfuel _ hcs => ?_⟩
    obtain _ | fuel := fuel
    · omega
    rw [readValue, hcs]
    rfl

theorem readBack_number {n : Numeral} (h : n.InOrder) : ReadBack (.number n) := by
  obtain ⟨c, more, hcons, hc⟩ := h.text_starts
  -- no other kind of value starts like a numeral
  have hother : ∀ d, d.isDigit = false → d ≠ '-' → c ≠ d := by
    rintro d hdigit hminus rfl
    rcases hc with hc | hc
    · exact hminus hc
    · exact absurd hc (by simp [hdigit])
  refine ⟨fun level => ⟨c, more, by rw [pretty, hcons], ?_, hother ']' rfl (by decide)⟩,
    fun {level fuel cs rest} hfuel hrest hcs => ?_⟩
  · simp [isBlank, hother ' ' rfl (by decide), hother '\n' rfl (by decide), hother '\t' rfl (by decide),
      hother '\r' rfl (by decide)]
  · obtain _ | fuel := fuel
    · omega
    rw [pretty] at hcs
    have hnumber : readValue (fuel + 1) cs =
        (Numeral.read (n.text ++ rest)).map fun found => (.number found.1, found.2) := by
      rw [readValue, hcs, hcons, List.cons_append]
      split
      · exact absurd (List.cons.inj ‹_›).1 (hother _ rfl (by decide))
      · exact absurd (List.cons.inj ‹_›).1 (hother _ rfl (by decide))
      · exact absurd (List.cons.inj ‹_›).1 (hother _ rfl (by decide))
      · exact absurd (List.cons.inj ‹_›).1 (hother _ rfl (by decide))
      · exact absurd (List.cons.inj ‹_›).1 (hother _ rfl (by decide))
      · exact absurd (List.cons.inj ‹_›).1 (hother _ rfl (by decide))
      · rfl
    rw [hnumber, Numeral.read_text h hrest]
    rfl

theorem readBack_string (s : String) : ReadBack (.string s) := by
  refine ⟨fun level => ⟨'"', _, rfl, rfl, by decide⟩, fun {level fuel cs rest} hfuel _ hcs => ?_⟩
  obtain _ | fuel := fuel
  · omega
  simp only [pretty, printString, List.cons_append, List.append_assoc, List.nil_append] at hcs
  rw [readValue, hcs]
  simp [readString_append, asRead]

theorem readBack_array {items : List (Json String)} (h : ∀ j ∈ items, j.ReadBack) :
    ReadBack (.array items) := by
  cases items with
  | nil =>
    refine ⟨fun level => ⟨'[', _, rfl, rfl, by decide⟩, fun {level fuel cs rest} hfuel _ hcs => ?_⟩
    obtain _ | fuel := fuel
    · omega
    rw [readValue, hcs]
    simp [pretty, skipBlanks_cons, isBlank, asRead, asReadAll]
  | cons item items =>
    have hitem := h item List.mem_cons_self
    refine ⟨fun level => ⟨'[', _, rfl, rfl, by decide⟩, fun {level fuel cs rest} hfuel _ hcs => ?_⟩
    obtain _ | fuel := fuel
    · omega
    simp only [pretty, List.cons_append, List.append_assoc, List.nil_append, List.length_cons,
      List.length_append] at hfuel hcs
    -- The first item does not start with the bracket that closes an empty array.
    obtain ⟨c, more, hcons, -, hclose⟩ := hitem.starts (level + 1)
    have hinner : skipBlanks (newline (level + 1) ++ (pretty (level + 1) item ++
        (prettyItems (level + 1) items ++ (newline level ++ ']' :: rest)))) = _ :=
      hitem.skipBlanks_append (fun d => isBlank_of_mem_newline) (level + 1) _
    have hread : readItems fuel (pretty (level + 1) item ++
        (prettyItems (level + 1) items ++ (newline level ++ ']' :: rest))) = _ :=
      readItems_pretty (fun j hj => h j (List.mem_cons_of_mem _ hj)) hitem (by omega)
        (hitem.skipBlanks (level + 1) _)
    rw [hcons, List.cons_append] at hcs hinner hread
    rw [readValue_items hcs hinner hclose, hread]
    rfl

theorem readBack_object {fields : List (String × Json String)} (h : ∀ field ∈ fields, field.2.ReadBack) :
    ReadBack (.object fields) := by
  cases fields with
  | nil =>
    refine ⟨fun level => ⟨'\x7b', _, rfl, rfl, by decide⟩, fun {level fuel cs rest} hfuel _ hcs => ?_⟩
    obtain _ | fuel := fuel
    · omega
    rw [readValue, hcs]
    simp [pretty, skipBlanks_cons, isBlank, asRead, asReadFields]
  | cons field fields =>
    obtain ⟨key, value⟩ := field
    have hvalue : value.ReadBack := h _ List.mem_cons_self
    refine ⟨fun level => ⟨'\x7b', _, rfl, rfl, by decide⟩, fun {level fuel cs rest} hfuel _ hcs => ?_⟩
    obtain _ | fuel := fuel
    · omega
    have hfield : (pretty (level + 1) value).length ≤ (prettyField (level + 1) (key, value)).length := by
      simp only [prettyField, List.length_append, List.length_cons]
      omega
    simp only [pretty, List.cons_append, List.append_assoc, List.nil_append, List.length_cons,
      List.length_append] at hfuel hcs
    have hread : readFields fuel (prettyField (level + 1) (key, value) ++
        (prettyFields (level + 1) fields ++ (newline level ++ '\x7d' :: rest))) = _ :=
      readFields_pretty (fun f hf => h f (List.mem_cons_of_mem _ hf)) hvalue (by omega)
        (skipBlanks_cons rfl _)
    obtain ⟨more, hcons⟩ : ∃ more, prettyField (level + 1) (key, value) = '"' :: more := ⟨_, rfl⟩
    rw [hcons, List.cons_append] at hcs hread
    rw [readValue_fields hcs (skipBlanks_newline rfl (level + 1) _), hread]
    rfl

mutual

theorem readBack : (j : Json String) → j.InOrder → j.ReadBack
  | .null, _ => readBack_null
  | .bool b, _ => readBack_bool b
  | .number _, h => readBack_number h
  | .string s, _ => readBack_string s
  | .array items, h => readBack_array (readBackAll items h)
  | .object fields, h => readBack_object (readBackFields fields h)

theorem readBackAll : (items : List (Json String)) → InOrderAll items → ∀ j ∈ items, j.ReadBack
  | [], _ => by simp
  | item :: items, h => by
    intro j hj
    rcases List.mem_cons.mp hj with heq | hj
    · rw [heq]
      exact readBack item h.1
    · exact readBackAll items h.2 j hj

theorem readBackFields : (fields : List (String × Json String)) → InOrderFields fields →
    ∀ field ∈ fields, field.2.ReadBack
  | [], _ => by simp
  | (key, value) :: fields, h => by
    intro field hfield
    rcases List.mem_cons.mp hfield with heq | hfield
    · rw [heq]
      exact readBack value h.1
    · exact readBackFields fields h.2 field hfield

end

theorem read_pretty {j : Json String} (h : j.InOrder) :
    Json.read (String.ofList (j.pretty 0)) = some j.asRead := by
  have hback := readBack j h
  have hread : readValue ((j.pretty 0).length + 1) (j.pretty 0) = some (j.asRead, []) :=
    hback.read (Nat.lt_succ_self _) (by simp [Numeral.Ends]) (by simpa using hback.skipBlanks 0 [])
  unfold Json.read
  rw [String.toList_ofList]
  dsimp only
  rw [hread]
  rfl

end EventTree.Json
