import EventTree.Proofs.Selector.Steps

/-!
# Whole segments

A text can be cut into whole segments first, and each of them classified then. Reading does not do so: it tries
one reader after the other at the front of the text, and what a reader gives up is left to the next one.

Main statement: the steps that are read are what the whole segments stand for. So no reader takes a part of a
segment, and none goes beyond its end.
-/

namespace EventTree.Selector

variable {cs rest : List Char} {found : List (List Char)}

/-! ## Texts and their ends -/

def Segment (cs : List Char) : Prop := cs ≠ [] ∧ '/' ∉ cs ∧ '?' ∉ cs

/-- No segment starts here. -/
def Unopened (cs : List Char) : Prop := ∀ c ∈ cs.head?, c = '/' ∨ c = '?'

theorem isText_iff {c : Char} : isText c = true ↔ c ≠ '/' ∧ c ≠ '?' := by
  simp [isText]

theorem Segment.isText (h : Segment cs) {c : Char} (hc : c ∈ cs) : isText c = true := by
  refine isText_iff.mpr ⟨?_, ?_⟩
  · rintro rfl
    exact h.2.1 hc
  · rintro rfl
    exact h.2.2 hc

theorem unopened_iff : Unopened cs ↔ cs.takeWhile isText = [] := by
  cases cs with
  | nil => simp [Unopened]
  | cons c rest =>
    rw [List.takeWhile_cons]
    by_cases h : isText c = true
    · simp [Unopened, h, (isText_iff.mp h).1, (isText_iff.mp h).2]
    · have hends : c = '/' ∨ c = '?' := by
        by_contra hother
        exact h (isText_iff.mpr (not_or.mp hother))
      simpa [Unopened, h] using hends

theorem segment_takeWhile (h : cs.takeWhile isText ≠ []) : Segment (cs.takeWhile isText) := by
  refine ⟨h, fun hc => ?_, fun hc => ?_⟩
  · exact (isText_iff.mp (List.mem_takeWhile_imp hc)).1 rfl
  · exact (isText_iff.mp (List.mem_takeWhile_imp hc)).2 rfl

theorem unopened_dropWhile (cs : List Char) : Unopened (cs.dropWhile isText) := by
  intro c hc
  have hnot : isText c = false := by
    have hhead := List.head?_dropWhile_not isText cs
    rw [hc] at hhead
    exact hhead
  by_contra hother
  rw [isText_iff.mpr (not_or.mp hother)] at hnot
  cases hnot

/-- Where a text ends is told by what follows it. -/
theorem split_text {seg : List Char} (hseg : ∀ c ∈ seg, isText c = true) (hrest : Unopened rest) :
    (seg ++ rest).takeWhile isText = seg ∧ (seg ++ rest).dropWhile isText = rest := by
  have hnone := unopened_iff.mp hrest
  have hsplit : rest.takeWhile isText ++ rest.dropWhile isText = rest := List.takeWhile_append_dropWhile
  rw [List.takeWhile_append_of_pos hseg, List.dropWhile_append_of_pos hseg, hnone, List.append_nil]
  rw [hnone, List.nil_append] at hsplit
  exact ⟨rfl, hsplit⟩

theorem split_unique {seg seg' rest' : List Char} (hseg : ∀ c ∈ seg, isText c = true) (hrest : Unopened rest)
    (hseg' : ∀ c ∈ seg', isText c = true) (hrest' : Unopened rest') (h : seg ++ rest = seg' ++ rest') :
    seg = seg' ∧ rest = rest' := by
  obtain ⟨htake, hdrop⟩ := split_text hseg hrest
  obtain ⟨htake', hdrop'⟩ := split_text hseg' hrest'
  rw [h, htake'] at htake
  rw [h, hdrop'] at hdrop
  exact ⟨htake.symm, hdrop.symm⟩

theorem endsStep_iff : endsStep cs = true ↔ Unopened cs := by
  rw [unopened_iff, endsStep]
  cases cs with
  | nil => simp
  | cons c more => cases h : isText c <;> simp [h]

/-! ## Cutting off segments -/

/-- The segments at the front of a text, each a slash and one character or more, and what follows. -/
def segments (cs : List Char) : List (List Char) × List Char :=
  match cs with
  | '/' :: rest =>
    if rest.takeWhile isText = [] then ([], cs)
    else
      let (more, after) := segments (rest.dropWhile isText)
      (rest.takeWhile isText :: more, after)
  | _ => ([], cs)
termination_by cs.length
decreasing_by
  have := length_dropWhile_le isText rest
  simp only [List.length_cons]
  omega

/-- The segments at the front of a text, as many and each as long as possible. -/
structure Cut (cs : List Char) (found : List (List Char)) (rest : List Char) : Prop where
  segments : ∀ seg ∈ found, Segment seg
  text : cs = found.flatMap ('/' :: ·) ++ rest
  ended : found ≠ [] → Unopened rest
  last : ∀ more, rest = '/' :: more → Unopened more

theorem Cut.segments_eq (h : Cut cs found rest) : Selector.segments cs = (found, rest) := by
  obtain ⟨hfound, rfl, hended, hlast⟩ := h
  induction found with
  | nil =>
    rw [List.flatMap_nil, List.nil_append]
    unfold Selector.segments
    split
    · rename_i more
      rw [if_pos (unopened_iff.mp (hlast more rfl))]
    · rfl
  | cons seg found ih =>
    have hseg : Segment seg := hfound seg List.mem_cons_self
    -- What follows a segment cannot be part of it.
    have hrest : Unopened (found.flatMap ('/' :: ·) ++ rest) := by
      cases found with
      | nil => exact hended (List.cons_ne_nil _ _)
      | cons _ _ => simp [Unopened]
    obtain ⟨htake, hdrop⟩ := split_text (fun c => hseg.isText) hrest
    rw [List.flatMap_cons, List.append_assoc, List.cons_append, Selector.segments, htake, hdrop,
      if_neg hseg.1, ih (fun s hs => hfound s (List.mem_cons_of_mem _ hs)) fun _ =>
        hended (List.cons_ne_nil _ _)]

theorem cut_segments (cs : List Char) : Cut cs (Selector.segments cs).1 (Selector.segments cs).2 := by
  fun_induction Selector.segments cs with
  | case1 rest hnone =>
    refine ⟨by simp, by simp, by simp, fun more hmore => ?_⟩
    obtain rfl := (List.cons.inj hmore).2
    exact unopened_iff.mpr hnone
  | case2 rest hsome more after hseg ih =>
    rw [hseg] at ih
    obtain ⟨hsegments, htext, hended, hlast⟩ := ih
    have hsplit : rest.takeWhile isText ++ rest.dropWhile isText = rest := List.takeWhile_append_dropWhile
    refine ⟨List.forall_mem_cons.mpr ⟨segment_takeWhile hsome, hsegments⟩, ?_, fun _ => ?_, hlast⟩
    · rw [List.flatMap_cons, List.append_assoc, List.cons_append, ← htext, hsplit]
    · -- The rest begins where the last segment ended.
      cases more with
      | nil =>
        rw [List.flatMap_nil, List.nil_append] at htext
        rw [← htext]
        exact unopened_dropWhile rest
      | cons _ _ => exact hended (List.cons_ne_nil _ _)
  | case3 cs hslash =>
    refine ⟨by simp, by simp, by simp, fun more hmore => ?_⟩
    exact absurd hmore (hslash more)

/-! ## One reader after the other -/

theorem readToken_append {token seg : List Char} (step : Step) (htoken : ∀ c ∈ token, isText c = true)
    (hseg : ∀ c ∈ seg, isText c = true) (hrest : Unopened rest) :
    readToken token step (seg ++ rest) = if seg = token then some (step, rest) else none := by
  unfold readToken
  by_cases h : seg = token
  · subst h
    have hends : endsStep rest = true := endsStep_iff.mpr hrest
    simp [hends]
  · rw [if_neg h, if_neg]
    intro hread
    obtain ⟨hstarts, hends⟩ := Bool.and_eq_true_iff.mp hread
    obtain ⟨after, hafter⟩ := List.isPrefixOf_iff_prefix.mp hstarts
    rw [← hafter, List.drop_left, endsStep_iff] at hends
    exact h (split_unique hseg hrest htoken hends hafter.symm).1

section Ranges

open Step

theorem readIndex_append {n : Nat} {digits : List Char} (h : DecimalText n digits) (hn : n < UInt64.size)
    {c : Char} (hc : c.isDigit = false) (rest : List Char) :
    readIndex (digits ++ c :: rest) = some (n, c :: rest) := by
  have htake : (digits ++ c :: rest).takeWhile Char.isDigit = digits := by
    rw [List.takeWhile_append_of_pos fun d => h.isDigit, List.takeWhile_cons_of_neg (by simp [hc]),
      List.append_nil]
  have hdrop : (digits ++ c :: rest).dropWhile Char.isDigit = c :: rest := by
    rw [List.dropWhile_append_of_pos fun d => h.isDigit, List.dropWhile_cons_of_neg (by simp [hc])]
  rw [readIndex, htake, hdrop, index?_eq_some_iff.mpr ⟨h, hn⟩]
  rfl

theorem exists_of_readIndex {n : Nat} (h : readIndex cs = some (n, rest)) :
    ∃ digits, cs = digits ++ rest ∧ DecimalText n digits ∧ n < UInt64.size := by
  obtain ⟨m, hindex, heq⟩ := Option.map_eq_some_iff.mp h
  obtain ⟨rfl, rfl⟩ := Prod.mk.inj heq
  obtain ⟨hdecimal, hlt⟩ := index?_eq_some_iff.mp hindex
  exact ⟨_, List.takeWhile_append_dropWhile.symm, hdecimal, hlt⟩

theorem eq_cons_of_readChar {c : Char} (h : readChar c cs = some rest) : cs = c :: rest := by
  cases cs with
  | nil => cases h
  | cons d more =>
    rw [readChar] at h
    split at h
    · rename_i heq
      rw [heq, Option.some.inj h]
    · cases h

theorem isText_of_rangeText {body : List Char} {step : Step} (h : RangeText body step) :
    ∀ c ∈ body, isText c = true := by
  have hdigit : ∀ {c : Char}, c.isDigit = true → isText c = true := by
    intro c hc
    refine isText_iff.mpr ⟨?_, ?_⟩
    · rintro rfl
      cases hc
    · rintro rfl
      cases hc
  intro c hc
  cases h with
  | index h => exact hdigit (h.isDigit hc)
  | range h _ h' _ =>
    rcases List.mem_append.mp hc with hc | hc
    · exact hdigit (h.isDigit hc)
    · rcases List.mem_cons.mp hc with rfl | hc
      · decide
      · exact hdigit (h'.isDigit hc)

theorem readRange_of_rangeText {body : List Char} {step : Step} (h : RangeText body step)
    (hrest : Unopened rest) : readRange ('[' :: (body ++ ']' :: rest)) = some (step, rest) := by
  have hends : endsStep rest = true := endsStep_iff.mpr hrest
  cases h with
  | @index _ n h hn =>
    have hindex := readIndex_append h hn (c := ']') (by decide) rest
    simp [readRange, readChar, hindex, readStop, hends]
  | @range first second n m h hn h' hm =>
    have hstart := readIndex_append h hn (c := ',') (by decide) (second ++ ']' :: rest)
    have hstop := readIndex_append h' hm (c := ']') (by decide) rest
    simp [readRange, readChar, hstart, hstop, readStop, hends]

theorem readStop_cases (cs : List Char) :
    readStop cs = (none, cs) ∨ ∃ m digits rest, readStop cs = (some m, rest) ∧
      cs = ',' :: (digits ++ rest) ∧ DecimalText m digits ∧ m < UInt64.size := by
  unfold readStop
  split
  · rename_i m rest h
    obtain ⟨more, hcomma, hindex⟩ := Option.bind_eq_some_iff.mp h
    obtain ⟨digits, rfl, hm, hlt⟩ := exists_of_readIndex hindex
    exact .inr ⟨m, digits, rest, rfl, eq_cons_of_readChar hcomma, hm, hlt⟩
  · exact .inl rfl

theorem exists_of_readClose {step step' : Step}
    (h : ((readChar ']' cs).bind fun rest => if endsStep rest then some (step', rest) else none) =
      some (step, rest)) : cs = ']' :: rest ∧ step' = step ∧ Unopened rest := by
  obtain ⟨closed, hclose, h⟩ := Option.bind_eq_some_iff.mp h
  split at h
  · rename_i hends
    obtain ⟨rfl, rfl⟩ := Prod.mk.inj (Option.some.inj h)
    exact ⟨eq_cons_of_readChar hclose, rfl, endsStep_iff.mp hends⟩
  · cases h

theorem exists_of_readRange {step : Step} (h : readRange cs = some (step, rest)) :
    ∃ body, cs = '[' :: (body ++ ']' :: rest) ∧ RangeText body step ∧ Unopened rest := by
  obtain ⟨opened, hopen, hopened⟩ := Option.bind_eq_some_iff.mp h
  obtain ⟨⟨n, after⟩, hindex, hafter⟩ := Option.bind_eq_some_iff.mp hopened
  obtain ⟨first, rfl, hn, hltn⟩ := exists_of_readIndex hindex
  rw [eq_cons_of_readChar hopen]
  dsimp only at hafter
  -- Where the range stops is said, or the bracket closes at once.
  rcases readStop_cases after with hstop | ⟨m, second, more, hstop, rfl, hm, hltm⟩
  · rw [hstop] at hafter
    dsimp only at hafter
    obtain ⟨hclose, rfl, hrest⟩ := exists_of_readClose hafter
    exact ⟨first, by rw [hclose], .index hn hltn, hrest⟩
  · rw [hstop] at hafter
    dsimp only at hafter
    obtain ⟨hclose, rfl, hrest⟩ := exists_of_readClose hafter
    exact ⟨first ++ ',' :: second, by simp [hclose], .range hn hltn hm hltm, hrest⟩

theorem readRange_bracket {seg : List Char} (hseg : ∀ c ∈ seg, isText c = true) (hrest : Unopened rest) :
    readRange ('[' :: (seg ++ rest)) = (ofBracket? seg).map fun step => (step, rest) := by
  refine Option.ext fun found => ?_
  rw [Option.map_eq_some_iff]
  constructor
  · intro h
    obtain ⟨step, after⟩ := found
    obtain ⟨body, htext, hrange, hafter⟩ := exists_of_readRange h
    have hbody : ∀ c ∈ body ++ [']'], isText c = true := by
      intro c hc
      rcases List.mem_append.mp hc with hc | hc
      · exact isText_of_rangeText hrange c hc
      · rw [List.mem_singleton.mp hc]
        decide
    have hsame : seg ++ rest = body ++ [']'] ++ after := by simpa using htext
    obtain ⟨hbracket, rfl⟩ := split_unique hseg hrest hbody hafter hsame
    exact ⟨step, ofBracket?_eq_some_iff.mpr ⟨body, hbracket, hrange⟩, rfl⟩
  · rintro ⟨step, hbracket, rfl⟩
    obtain ⟨body, rfl, hrange⟩ := ofBracket?_eq_some_iff.mp hbracket
    rw [List.append_assoc]
    exact readRange_of_rangeText hrange hrest

end Ranges

section Readers

variable {seg : List Char} (hseg : ∀ c ∈ seg, isText c = true) (hrest : Unopened rest)

theorem bind_readChar_of_ne {α : Type} {c d : Char} (h : c ≠ d) (cs : List Char) (next : List Char → Option α) :
    (readChar d (c :: cs)).bind next = none := by
  rw [readChar, if_neg h, Option.bind_none]

theorem readRange_of_ne {c : Char} (h : c ≠ '[') (cs : List Char) : readRange (c :: cs) = none :=
  bind_readChar_of_ne h cs _

theorem readAncestor_of_ne {c : Char} (h : c ≠ '@') (cs : List Char) : readAncestor (c :: cs) = none :=
  bind_readChar_of_ne h cs _

theorem readValueIs_of_ne {c : Char} (h : c ≠ '=') (cs : List Char) : readValueIs (c :: cs) = none :=
  bind_readChar_of_ne h cs _

include hseg hrest

theorem readText_append :
    readText (seg ++ rest) = if seg = [] then none else some (String.ofList seg, rest) := by
  rw [readText, (split_text hseg hrest).1, (split_text hseg hrest).2]

theorem readAncestor_append : readAncestor ('@' :: (seg ++ rest)) =
    if seg = [] then none else some (.ancestor (String.ofList seg), rest) := by
  rw [readAncestor, readChar, if_pos rfl, Option.bind_eq_bind, Option.bind_some, readText_append hseg hrest]
  split <;> rfl

theorem readValueIs_append :
    readValueIs ('=' :: (seg ++ rest)) = some (.valueIs (String.ofList seg), rest) := by
  rw [readValueIs, readChar, if_pos rfl, Option.bind_eq_bind, Option.bind_some, (split_text hseg hrest).1,
    (split_text hseg hrest).2]
  rfl

theorem readName_append (hne : seg ≠ []) : readName (seg ++ rest) = some (.named (String.ofList seg), rest) := by
  rw [readName, readText_append hseg hrest, if_neg hne]
  rfl

theorem findSome?_tokens :
    (tokens.findSome? fun token => readToken token.1 token.2 (seg ++ rest)) =
      (tokens.lookup seg).map fun step => (step, rest) := by
  have htext : ∀ token ∈ tokens, ∀ c ∈ token.1, isText c = true := by simp [tokens, isText]
  generalize tokens = list at htext
  induction list with
  | nil => rfl
  | cons token list ih =>
    obtain ⟨hfirst, htext⟩ := List.forall_mem_cons.mp htext
    rw [List.findSome?_cons, readToken_append token.2 hfirst hseg hrest, ih htext, List.lookup_cons]
    by_cases h : seg = token.1
    · simp [h]
    · have hne : (seg == token.1) = false := beq_eq_false_iff_ne.mpr h
      simp [h, hne]

end Readers

theorem readStep_eq {seg : List Char} (hseg : ∀ c ∈ seg, isText c = true) (hrest : Unopened rest) :
    readStep (seg ++ rest) = ((tokens.lookup seg).map fun step => (step, rest)).or
      ((readRange (seg ++ rest)).or ((readAncestor (seg ++ rest)).or
        ((readValueIs (seg ++ rest)).or (readName (seg ++ rest))))) := by
  rw [← findSome?_tokens hseg hrest, readStep, stepReaders, List.findSome?_append, List.findSome?_map]
  simp only [List.findSome?_cons, List.findSome?_nil, Function.comp_def]
  cases readRange (seg ++ rest) <;> cases readAncestor (seg ++ rest) <;> cases readValueIs (seg ++ rest) <;>
    cases readName (seg ++ rest) <;> rfl

theorem readStep_append {seg : List Char} (hseg : Segment seg) (hrest : Unopened rest) :
    readStep (seg ++ rest) = some (Step.ofSegment seg, rest) := by
  have htext : ∀ c ∈ seg, isText c = true := fun c => hseg.isText
  have hname := readName_append htext hrest hseg.1
  rw [readStep_eq htext hrest]
  unfold Step.ofSegment
  split
  case h_8 c more =>
    have hlookup : tokens.lookup ('@' :: c :: more) = none := rfl
    rw [hlookup, List.cons_append, readRange_of_ne (by decide),
      readAncestor_append (List.forall_mem_cons.mp htext).2 hrest]
    rfl
  case h_9 more =>
    have hlookup : tokens.lookup ('=' :: more) = none := rfl
    rw [hlookup, List.cons_append, readRange_of_ne (by decide), readAncestor_of_ne (by decide),
      readValueIs_append (List.forall_mem_cons.mp htext).2 hrest]
    rfl
  case h_10 more =>
    have hlookup : tokens.lookup ('[' :: more) = none := rfl
    rw [hname, hlookup, List.cons_append, readRange_bracket (List.forall_mem_cons.mp htext).2 hrest,
      readAncestor_of_ne (by decide), readValueIs_of_ne (by decide)]
    cases Step.ofBracket? more <;> rfl
  case h_11 hroot hparent hall hchildren hreference hprevious hnext hancestor hvalue hbracket =>
    have hlookup : tokens.lookup seg = none := by
      rw [List.lookup_eq_none_iff]
      simpa [tokens] using ⟨hroot, hparent, hall, hchildren, hreference, hprevious, hnext⟩
    obtain ⟨c, more, rfl⟩ := List.exists_cons_of_ne_nil hseg.1
    have hrange : c ≠ '[' := fun h => hbracket more (by rw [h])
    have hequals : c ≠ '=' := fun h => hvalue more (by rw [h])
    -- A mark for an ancestor with nothing behind it is a name too.
    have hmark : readAncestor (c :: (more ++ rest)) = none := by
      by_cases hc : c = '@'
      · subst hc
        cases more with
        | nil => exact readAncestor_append (List.forall_mem_nil _) hrest
        | cons d more => exact (hancestor d more rfl).elim
      · exact readAncestor_of_ne hc _
    rw [hname, hlookup, List.cons_append, readRange_of_ne hrange, hmark, readValueIs_of_ne hequals]
    rfl
  all_goals rfl

theorem readStep_unopened (h : Unopened cs) : readStep cs = none := by
  cases cs with
  | nil => rfl
  | cons c more =>
    rcases h c rfl with rfl | rfl
    · rfl
    · rfl

theorem readSteps_of_none (h : (readChar '/' cs).bind readStep = none) : readSteps cs = ([], cs) := by
  unfold readSteps
  split
  · rfl
  · rename_i hsome
    rw [h] at hsome
    cases hsome

theorem readSteps_of_some {step : Step} (h : (readChar '/' cs).bind readStep = some (step, rest)) :
    readSteps cs = (step :: (readSteps rest).1, (readSteps rest).2) := by
  rw [readSteps]
  split
  · rename_i hnone
    rw [h] at hnone
    cases hnone
  · rename_i hsome
    rw [h] at hsome
    cases hsome
    rfl

/-- Reading step by step gives what the whole segments stand for, and leaves what they leave. -/
theorem readSteps_eq (cs : List Char) :
    readSteps cs = ((segments cs).1.map Step.ofSegment, (segments cs).2) := by
  fun_induction segments cs with
  | case1 rest hnone =>
    exact readSteps_of_none (readStep_unopened (unopened_iff.mpr hnone))
  | case2 rest hsome more after hsegments ih =>
    have hread := readStep_append (segment_takeWhile hsome) (unopened_dropWhile rest)
    rw [List.takeWhile_append_dropWhile] at hread
    have hslashed : (readChar '/' ('/' :: rest)).bind readStep = some _ := hread
    rw [readSteps_of_some hslashed, ih, hsegments]
    rfl
  | case3 cs hslash =>
    refine readSteps_of_none ?_
    cases cs with
    | nil => rfl
    | cons c more =>
      have hne : c ≠ '/' := fun h => hslash more (by rw [h])
      exact bind_readChar_of_ne hne more _

theorem Cut.readSteps_eq (h : Cut cs found rest) : readSteps cs = (found.map Step.ofSegment, rest) := by
  rw [Selector.readSteps_eq, h.segments_eq]

end EventTree.Selector
