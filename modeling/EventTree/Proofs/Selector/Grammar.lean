import EventTree.Proofs.Selector.Segments
import Mathlib.Data.List.Forall2

/-!
# The grammar of selectors

A selector is one segment or more, each after a slash, and at the end maybe a question mark and a kind. Reading
accepts these texts and no others, and it takes each apart in the one possible way. When it refuses a text, it
reports what is left after the segments and the kind that it could read.
-/

namespace EventTree

theorem MatchKind.ofText?_eq_some_iff {text : String} {kind : MatchKind} :
    ofText? text = some kind ↔ text = kind.text := by
  constructor
  · intro h
    have hbeq := List.find?_some (p := fun kind : MatchKind => kind.text == text) h
    exact (eq_of_beq hbeq).symm
  · rintro rfl
    cases kind <;> rfl

theorem MatchKind.text_injective {kind kind' : MatchKind} (h : kind.text = kind'.text) : kind = kind' :=
  Option.some.inj ((ofText?_eq_some_iff.mpr rfl).symm.trans (ofText?_eq_some_iff.mpr h))

theorem MatchKind.isAlphabetic_text (kind : MatchKind) :
    ∀ c ∈ kind.text.toList, Text.isAlphabetic c = true := by
  intro c hc
  have hletters : kind.text.toList.all Char.isAlpha = true := by
    cases kind <;> rfl
  simp [Text.isAlphabetic, List.all_eq_true.mp hletters c hc]

namespace Selector

variable {cs rest : List Char} {found : List (List Char)} {kind : Option MatchKind}

/-! ## Texts -/

/-- How a kind that is asked for ends a text. -/
def kindText (kind : Option MatchKind) : List Char :=
  (kind.map fun kind => '?' :: kind.text.toList).getD []

/-- A text of segments, with a kind or without. -/
structure Spelled (cs : List Char) (found : List (List Char)) (kind : Option MatchKind) : Prop where
  nonempty : found ≠ []
  segments : ∀ seg ∈ found, Segment seg
  text : cs = found.flatMap ('/' :: ·) ++ kindText kind

/-- What no selector goes on with, after its segments or after its kind. The name of a kind is as long as
letters go. -/
inductive Stuck : Option MatchKind → List Char → Prop
  | slash {more : List Char} : Unopened more → Stuck none ('/' :: more)
  | kind {more : List Char} : (∀ kind : MatchKind, more.takeWhile Text.isAlphabetic ≠ kind.text.toList) →
      Stuck none ('?' :: more)
  | after {c : Char} (kind : MatchKind) (more : List Char) : Text.isAlphabetic c = false →
      Stuck (some kind) (c :: more)

/-- Why a text is refused: what was read of it and what was left. -/
inductive Rejected : String → String → SelectorFlaw → Prop
  | unrooted {rest : String} : rest.toList.head? ≠ some '/' → Rejected "" rest .unrooted
  | emptyStep {rest : String} : Unopened rest.toList → Rejected "/" rest .emptyStep
  | trailing {before rest : String} {found : List (List Char)} {kind : Option MatchKind} :
      Spelled before.toList found kind → Stuck kind rest.toList → Rejected before rest .trailing

/-! ## Kinds -/

theorem readKind?_eq_some_iff {kind : MatchKind} :
    readKind? cs = some (kind, rest) ↔
      cs = '?' :: (kind.text.toList ++ rest) ∧ ∀ c ∈ rest.head?, Text.isAlphabetic c = false := by
  constructor
  · intro h
    unfold readKind? at h
    split at h
    · rename_i more
      obtain ⟨kind', hkind, heq⟩ := Option.map_eq_some_iff.mp h
      obtain ⟨rfl, rfl⟩ := Prod.mk.inj heq
      rw [MatchKind.ofText?_eq_some_iff] at hkind
      refine ⟨?_, fun c hc => ?_⟩
      · rw [← hkind, String.toList_ofList, List.takeWhile_append_dropWhile]
      · have hnot := List.head?_dropWhile_not Text.isAlphabetic more
        rw [hc] at hnot
        exact hnot
    · cases h
  · rintro ⟨rfl, hrest⟩
    have hnone : rest.takeWhile Text.isAlphabetic = [] ∧ rest.dropWhile Text.isAlphabetic = rest := by
      cases rest with
      | nil => exact ⟨rfl, rfl⟩
      | cons c more => simp [hrest c rfl]
    have hword := kind.isAlphabetic_text
    rw [readKind?, List.takeWhile_append_of_pos hword, List.dropWhile_append_of_pos hword, hnone.1, hnone.2,
      List.append_nil, String.ofList_toList, MatchKind.ofText?_eq_some_iff.mpr rfl]
    rfl

theorem readKind?_kindText (kind : Option MatchKind) :
    (readKind? (kindText kind)).getD (.node, kindText kind) = (kind.getD .node, []) := by
  cases kind with
  | none => rfl
  | some kind =>
    have hread : readKind? (kindText (some kind)) = some (kind, []) :=
      readKind?_eq_some_iff.mpr ⟨by simp [kindText], by simp⟩
    rw [hread]
    rfl

theorem kindText_injective {kind kind' : Option MatchKind} (h : kindText kind = kindText kind') :
    kind = kind' := by
  cases kind with
  | none =>
    cases kind' with
    | none => rfl
    | some _ => cases h
  | some kind =>
    cases kind' with
    | none => cases h
    | some kind' =>
      rw [MatchKind.text_injective (String.toList_inj.mp (List.cons.inj h).2)]

/-! ## Reading -/

theorem Spelled.cut (h : Spelled cs found kind) : Cut cs found (kindText kind) := by
  refine ⟨h.segments, h.text, fun _ => ?_, fun more hmore => ?_⟩
  · cases kind <;> simp [Unopened, kindText]
  · cases kind <;> simp [kindText] at hmore

theorem Spelled.unique {found' : List (List Char)} {kind' : Option MatchKind} (h : Spelled cs found kind)
    (h' : Spelled cs found' kind') : found = found' ∧ kind = kind' := by
  obtain ⟨hfound, hkind⟩ := Prod.mk.inj (h.cut.segments_eq.symm.trans h'.cut.segments_eq)
  exact ⟨hfound, kindText_injective hkind⟩

theorem parse_of_cut {s : String} (h : Cut s.toList found rest) (hne : found ≠ []) :
    parse s =
      if ((readKind? rest).getD (.node, rest)).2 = [] then
        .ok ⟨s, found.map Step.ofSegment, ((readKind? rest).getD (.node, rest)).1⟩
      else .error (.malformedSelector s
        (String.ofList ((readKind? rest).getD (.node, rest)).2) .trailing) := by
  obtain ⟨seg, more, rfl⟩ := List.exists_cons_of_ne_nil hne
  unfold parse
  rw [h.readSteps_eq]
  rfl

theorem parse_of_emptyStep {s : String} {more : List Char} (h : Cut s.toList [] ('/' :: more)) :
    parse s = .error (.malformedSelector s (String.ofList more) .emptyStep) := by
  unfold parse
  rw [h.readSteps_eq]
  rfl

theorem parse_of_unrooted {s : String} (h : s.toList.head? ≠ some '/') :
    parse s = .error (.malformedSelector s s .unrooted) := by
  have hcut : Cut s.toList [] s.toList := by
    refine ⟨by simp, rfl, by simp, fun more hmore => ?_⟩
    exact absurd (congrArg List.head? hmore) h
  unfold parse
  rw [hcut.readSteps_eq]
  dsimp only
  split
  · rename_i more heq
    exact absurd (congrArg List.head? (Prod.mk.inj heq).2) h
  · rename_i heq
    rw [← (Prod.mk.inj heq).2, String.ofList_toList]
  · rename_i hne heq
    exact absurd (Prod.mk.inj heq).1.symm hne

theorem parse_of_spelled {s : String} (h : Spelled s.toList found kind) :
    parse s = .ok ⟨s, found.map Step.ofSegment, kind.getD .node⟩ := by
  rw [parse_of_cut h.cut h.nonempty, readKind?_kindText, if_pos rfl]

/-- After its segments a text goes on with a kind, with nothing, or with what no selector goes on with. -/
theorem kind_or_stuck (hended : Unopened rest) (hlast : ∀ more, rest = '/' :: more → Unopened more) :
    ∃ kind after, (readKind? rest).getD (.node, rest) = (kind.getD .node, after) ∧
      rest = kindText kind ++ after ∧ (after = [] ∨ Stuck kind after) := by
  cases hread : readKind? rest with
  | some read =>
    obtain ⟨kind, after⟩ := read
    obtain ⟨htext, hafter⟩ := readKind?_eq_some_iff.mp hread
    refine ⟨some kind, after, rfl, htext, ?_⟩
    cases after with
    | nil => exact .inl rfl
    | cons c more => exact .inr (.after kind more (hafter c rfl))
  | none =>
    refine ⟨none, rest, rfl, rfl, ?_⟩
    cases rest with
    | nil => exact .inl rfl
    | cons c more =>
      refine .inr ?_
      rcases hended c rfl with rfl | rfl
      · exact .slash (hlast more rfl)
      · refine .kind fun kind hkind => ?_
        rw [readKind?, hkind, String.ofList_toList, MatchKind.ofText?_eq_some_iff.mpr rfl] at hread
        cases hread

theorem Stuck.ne_nil (h : Stuck kind cs) : cs ≠ [] := by
  cases h <;> simp

theorem Stuck.cut {before after : List Char} (h : Spelled before found kind) (hstuck : Stuck kind after) :
    Cut (before ++ after) found (kindText kind ++ after) ∧
      (readKind? (kindText kind ++ after)).getD (.node, kindText kind ++ after) = (kind.getD .node, after) := by
  have htext : before ++ after = found.flatMap ('/' :: ·) ++ (kindText kind ++ after) := by
    rw [h.text, List.append_assoc]
  cases hstuck with
  | @slash more hmore =>
    refine ⟨⟨h.segments, htext, fun _ => by simp [kindText, Unopened], fun more' heq => ?_⟩, rfl⟩
    obtain rfl := (List.cons.inj heq).2
    exact hmore
  | @kind more hkind =>
    refine ⟨⟨h.segments, htext, fun _ => by simp [kindText, Unopened], ?_⟩, ?_⟩
    · rintro more' ⟨⟩
    · have hnone : readKind? ('?' :: more) = none := by
        rw [readKind?, Option.map_eq_none_iff, Option.eq_none_iff_forall_ne_some]
        intro kind hread
        refine hkind kind ?_
        rw [← MatchKind.ofText?_eq_some_iff.mp hread, String.toList_ofList]
      exact congrArg (Option.getD · (.node, '?' :: more)) hnone
  | @after c kind more hc =>
    refine ⟨⟨h.segments, htext, fun _ => by simp [kindText, Unopened], ?_⟩, ?_⟩
    · rintro more' ⟨⟩
    · have hread : readKind? (kindText (some kind) ++ c :: more) = some (kind, c :: more) :=
        readKind?_eq_some_iff.mpr ⟨rfl, by simpa using hc⟩
      rw [hread]
      rfl

theorem parse_of_rejected {before rest : String} {flaw : SelectorFlaw} (h : Rejected before rest flaw) :
    parse (before ++ rest) = .error (.malformedSelector (before ++ rest) rest flaw) := by
  cases h with
  | unrooted hslash =>
    rw [String.empty_append]
    exact parse_of_unrooted hslash
  | emptyStep hnone =>
    have hcut : Cut ("/" ++ rest).toList [] ('/' :: rest.toList) := by
      refine ⟨by simp, String.toList_append, by simp, fun more hmore => ?_⟩
      rwa [← (List.cons.inj hmore).2]
    rw [parse_of_emptyStep hcut, String.ofList_toList]
  | trailing hspelled hstuck =>
    obtain ⟨hcut, hread⟩ := hstuck.cut hspelled
    rw [← String.toList_append] at hcut
    rw [parse_of_cut hcut hspelled.nonempty, hread, String.ofList_toList, if_neg hstuck.ne_nil]

theorem spelled_or_rejected (s : String) :
    (∃ found kind, Spelled s.toList found kind) ∨ ∃ before rest flaw,
      parse s = .error (.malformedSelector s rest flaw) ∧ s = before ++ rest ∧ Rejected before rest flaw := by
  have hcut := cut_segments s.toList
  -- The text is cut off as far as segments go, and what is left decides.
  generalize (Selector.segments s.toList).1 = found, (Selector.segments s.toList).2 = rest at hcut
  by_cases hne : found = []
  · subst hne
    have htext : s.toList = rest := hcut.text
    refine .inr ?_
    by_cases hslash : s.toList.head? = some '/'
    · obtain ⟨more, hmore⟩ := List.head?_eq_some_iff.mp hslash
      rw [← htext, hmore] at hcut
      refine ⟨"/", String.ofList more, .emptyStep, parse_of_emptyStep (hmore ▸ hcut), ?_, .emptyStep ?_⟩
      · rw [← String.toList_inj, String.toList_append, String.toList_ofList (l := more), hmore]
        rfl
      · rw [String.toList_ofList]
        exact hcut.last more rfl
    · subst htext
      exact ⟨"", s, .unrooted, parse_of_unrooted hslash, by simp, .unrooted hslash⟩
  · obtain ⟨kind, after, hread, hrest, hafter⟩ := kind_or_stuck (hcut.ended hne) hcut.last
    rcases hafter with rfl | hstuck
    · rw [List.append_nil] at hrest
      exact .inl ⟨found, kind, hne, hcut.segments, hrest ▸ hcut.text⟩
    · refine .inr ⟨String.ofList (found.flatMap ('/' :: ·) ++ kindText kind), String.ofList after, .trailing,
        ?_, ?_, @Rejected.trailing _ _ found kind ?_ ?_⟩
      · rw [parse_of_cut hcut hne, hread, if_neg hstuck.ne_nil]
      · rw [← String.ofList_append, List.append_assoc, ← hrest, ← hcut.text, String.ofList_toList]
      · rw [String.toList_ofList]
        exact ⟨hne, hcut.segments, rfl⟩
      · rw [String.toList_ofList]
        exact hstuck

/-- A text is read as a selector exactly if it is spelled like one. There is one way to take it apart, and the
steps are what its segments stand for, each segment for one step. If a text is refused, the error has what
was left of it: all of it, all after a first slash that nothing follows, or what comes after a selector. -/
theorem parse_accepts_grammar (s : String) :
    ((∃ selector, parse s = .ok selector) ↔ ∃ found kind, Spelled s.toList found kind) ∧
    (∀ found kind, Spelled s.toList found kind → ∃ steps,
      parse s = .ok ⟨s, steps, kind.getD .node⟩ ∧ List.Forall₂ Step.Classified found steps) ∧
    (∀ found found' kind kind', Spelled s.toList found kind → Spelled s.toList found' kind' →
      found = found' ∧ kind = kind') ∧
    (∀ seg, ∃! step, Step.Classified seg step) ∧
    ∀ cause, parse s = .error cause ↔ ∃ before rest flaw,
      cause = .malformedSelector s rest flaw ∧ s = before ++ rest ∧ Rejected before rest flaw := by
  refine ⟨⟨?_, ?_⟩, fun found kind h => ?_, fun _ _ _ _ => Spelled.unique, fun seg => ?_,
    fun cause => ⟨fun h => ?_, ?_⟩⟩
  · rintro ⟨selector, h⟩
    rcases spelled_or_rejected s with hspelled | ⟨_, _, _, herror, -⟩
    · exact hspelled
    · rw [herror] at h
      cases h
  · rintro ⟨found, kind, h⟩
    exact ⟨_, parse_of_spelled h⟩
  · refine ⟨_, parse_of_spelled h, ?_⟩
    rw [List.forall₂_map_right_iff]
    exact List.forall₂_same.mpr fun seg _ => Step.classified_iff.mpr rfl
  · exact ⟨Step.ofSegment seg, Step.classified_iff.mpr rfl, fun _ => Step.classified_iff.mp⟩
  · rcases spelled_or_rejected s with ⟨found, kind, hspelled⟩ | ⟨before, rest, flaw, herror, hs, hrejected⟩
    · rw [parse_of_spelled hspelled] at h
      cases h
    · rw [herror] at h
      exact ⟨before, rest, flaw, (Except.error.inj h).symm, hs, hrejected⟩
  · rintro ⟨before, rest, flaw, rfl, rfl, hrejected⟩
    exact parse_of_rejected hrejected

end Selector

end EventTree
