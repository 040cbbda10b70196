import EventTree.Selector
import Mathlib.Data.List.Basic
import Mathlib.Data.List.Induction
import Mathlib.Data.List.TakeWhile

/-!
# Segments and their steps

What a segment stands for is said by a relation that has one rule for each kind of step. Classifying a whole
segment follows it: no segment is marked in two ways, and one that is not marked is a name.
-/

namespace EventTree

/-! ## Numbers -/

/-- A decimal number, which may start with zeros. -/
def DecimalText (n : Nat) (cs : List Char) : Prop :=
  ∃ zeros, cs = List.replicate zeros '0' ++ Nat.toDigits 10 n

namespace DecimalText

variable {n : Nat} {cs : List Char}

theorem ne_nil (h : DecimalText n cs) : cs ≠ [] := by
  obtain ⟨zeros, rfl⟩ := h
  simp

theorem isDigit (h : DecimalText n cs) {c : Char} (hc : c ∈ cs) : c.isDigit = true := by
  obtain ⟨zeros, rfl⟩ := h
  rcases List.mem_append.mp hc with hc | hc
  · rw [List.eq_of_mem_replicate hc]
    decide
  · exact Nat.isDigit_of_mem_toDigits (by decide) (by decide) hc

theorem value (h : DecimalText n cs) : Nat.ofDigitChars 10 cs 0 = n := by
  obtain ⟨zeros, rfl⟩ := h
  rw [Nat.ofDigitChars_append, Nat.ofDigitChars_replicate_zero, Nat.mul_zero, Nat.ofDigitChars_ten_toDigits]

theorem takeWhile_comma (h : DecimalText n cs) (rest : List Char) :
    (cs ++ rest).takeWhile (· != ',') = cs ++ rest.takeWhile (· != ',') ∧
      (cs ++ rest).dropWhile (· != ',') = rest.dropWhile (· != ',') := by
  have hno : ∀ c ∈ cs, (c != ',') = true := by
    intro c hc
    have hdigit := h.isDigit hc
    refine bne_iff_ne.mpr ?_
    rintro rfl
    cases hdigit
  exact ⟨List.takeWhile_append_of_pos hno, List.dropWhile_append_of_pos hno⟩

end DecimalText

theorem toDigits_digit {c : Char} (h : c.isDigit = true) : Nat.toDigits 10 (c.toNat - 48) = [c] := by
  obtain ⟨hlow, hhigh⟩ := Char.isDigit_iff_toNat.mp h
  have hzero : '0'.toNat = 48 := rfl
  have hnine : '9'.toNat = 57 := rfl
  rw [Nat.toDigits_of_lt_base (by omega), List.cons.injEq, ← Char.toNat_inj,
    Nat.toNat_digitChar_of_lt_ten (by omega)]
  exact ⟨by omega, rfl⟩

theorem decimalText_of_digits {cs : List Char} (hne : cs ≠ []) (h : ∀ c ∈ cs, c.isDigit = true) :
    DecimalText (Nat.ofDigitChars 10 cs 0) cs := by
  induction cs using List.reverseRecOn with
  | nil => exact absurd rfl hne
  | append_singleton ds d ih =>
    have hd : d.isDigit = true := h d (by simp)
    have hlt : d.toNat - 48 < 10 := by
      have hhigh := (Char.isDigit_iff_toNat.mp hd).2
      have hnine : '9'.toNat = 57 := rfl
      omega
    have hvalue : Nat.ofDigitChars 10 (ds ++ [d]) 0 = 10 * Nat.ofDigitChars 10 ds 0 + (d.toNat - 48) :=
      Nat.ofDigitChars_append 0
    rw [hvalue]
    by_cases hds : ds = []
    · subst hds
      exact ⟨0, by simp [Nat.ofDigitChars, toDigits_digit hd]⟩
    · obtain ⟨zeros, hspell⟩ := ih hds fun c hc => h c (List.mem_append_left _ hc)
      generalize Nat.ofDigitChars 10 ds 0 = m at hspell ⊢
      obtain rfl | hpos := Nat.eq_zero_or_pos m
      · -- only zeros so far, so the number starts with this digit
        refine ⟨zeros + 1, ?_⟩
        rw [hspell, Nat.toDigits_zero, ← List.replicate_succ', Nat.mul_zero, Nat.zero_add, toDigits_digit hd]
      · refine ⟨zeros, ?_⟩
        rw [← Nat.toDigits_append_toDigits (by decide) hpos hlt, toDigits_digit hd, ← List.append_assoc,
          ← hspell]

namespace Step

theorem index?_eq_some_iff {cs : List Char} {n : Nat} :
    index? cs = some n ↔ DecimalText n cs ∧ n < UInt64.size := by
  unfold index?
  rw [← Nat.ofDigitChars_eq_foldl]
  constructor
  · intro h
    split at h
    · cases h
    · rename_i hdigits
      rw [not_or, not_not, List.all_eq_true] at hdigits
      dsimp only at h
      split at h
      · rename_i hlt
        obtain rfl := Option.some.inj h
        exact ⟨decimalText_of_digits hdigits.1 hdigits.2, hlt⟩
      · cases h
  · rintro ⟨hn, hlt⟩
    have hdigits : ¬ (cs = [] ∨ ¬ cs.all Char.isDigit = true) := by
      rw [not_or, not_not, List.all_eq_true]
      exact ⟨hn.ne_nil, fun c => hn.isDigit⟩
    rw [if_neg hdigits, hn.value]
    exact if_pos hlt

/-! ## Ranges -/

theorem nextIndex_of_lt {n : Nat} (h : n + 1 < UInt64.size) : nextIndex n = n + 1 := Nat.mod_eq_of_lt h

theorem nextIndex_of_last {n : Nat} (h : n + 1 = UInt64.size) : nextIndex n = 0 := by
  rw [nextIndex, h, Nat.mod_self]

/-- `n` is the range of that one index, `n,m` runs from `n` up to before `m`. -/
def ofRange? (cs : List Char) : Option Step :=
  let first := cs.takeWhile (· != ',')
  match cs.dropWhile (· != ',') with
  | [] => (index? first).map fun n => .range n (nextIndex n)
  | _ :: second => do return .range (← index? first) (← index? second)

/-- What stands between the brackets of a range. -/
inductive RangeText : List Char → Step → Prop
  | index {cs : List Char} {n : Nat} : DecimalText n cs → n < UInt64.size →
      RangeText cs (.range n (nextIndex n))
  | range {cs ds : List Char} {n m : Nat} : DecimalText n cs → n < UInt64.size →
      DecimalText m ds → m < UInt64.size → RangeText (cs ++ ',' :: ds) (.range n m)

theorem RangeText.ofRange?_eq {cs : List Char} {step : Step} (h : RangeText cs step) :
    ofRange? cs = some step := by
  cases h with
  | index h hn =>
    obtain ⟨htake, hdrop⟩ := h.takeWhile_comma []
    rw [List.append_nil] at htake hdrop
    rw [ofRange?, htake, hdrop]
    simp [index?_eq_some_iff.mpr ⟨h, hn⟩]
  | @range cs ds n m h hn h' hm =>
    obtain ⟨htake, hdrop⟩ := h.takeWhile_comma (',' :: ds)
    rw [ofRange?, htake, hdrop]
    simp [index?_eq_some_iff.mpr ⟨h, hn⟩, index?_eq_some_iff.mpr ⟨h', hm⟩]

theorem rangeText_of_ofRange? {cs : List Char} {step : Step} (h : ofRange? cs = some step) :
    RangeText cs step := by
  have hsplit : cs.takeWhile (· != ',') ++ cs.dropWhile (· != ',') = cs := List.takeWhile_append_dropWhile
  rw [ofRange?] at h
  split at h
  · rename_i hdrop
    rw [hdrop, List.append_nil] at hsplit
    rw [hsplit] at h
    obtain ⟨n, hn, rfl⟩ := Option.map_eq_some_iff.mp h
    obtain ⟨hdecimal, hlt⟩ := index?_eq_some_iff.mp hn
    exact .index hdecimal hlt
  · rename_i comma second hdrop
    -- What stops the first number is a comma.
    have hcomma : comma = ',' := by
      have hhead := List.head?_dropWhile_not (· != ',') cs
      rw [hdrop] at hhead
      simpa using hhead
    subst hcomma
    rw [hdrop] at hsplit
    generalize cs.takeWhile (· != ',') = first at h hsplit
    obtain ⟨n, hn, h⟩ := Option.bind_eq_some_iff.mp h
    obtain ⟨m, hm, h⟩ := Option.bind_eq_some_iff.mp h
    obtain rfl := Option.some.inj h
    obtain ⟨hdecimal, hlt⟩ := index?_eq_some_iff.mp hn
    obtain ⟨hdecimal', hlt'⟩ := index?_eq_some_iff.mp hm
    rw [← hsplit]
    exact .range hdecimal hlt hdecimal' hlt'

/-! ## Marks -/

/-- The segments that are not names, with what they stand for. The range of the last index, which has none
after it, is empty. -/
inductive Marked : List Char → Step → Prop
  | root : Marked ['.', '.'] .root
  | parent : Marked ['.'] .parent
  | children : Marked ['*'] .children
  | descendants : Marked ['*', '*'] .descendants
  | reference : Marked ['#'] .reference
  | previous : Marked ['-'] .previous
  | next : Marked ['+'] .next
  | index {cs : List Char} {n : Nat} : DecimalText n cs → n + 1 < UInt64.size →
      Marked ('[' :: (cs ++ [']'])) (.range n (n + 1))
  | lastIndex {cs : List Char} {n : Nat} : DecimalText n cs → n + 1 = UInt64.size →
      Marked ('[' :: (cs ++ [']'])) (.range n 0)
  | range {cs ds : List Char} {n m : Nat} : DecimalText n cs → n < UInt64.size →
      DecimalText m ds → m < UInt64.size →
      Marked ('[' :: (cs ++ ',' :: ds ++ [']'])) (.range n m)
  | ancestor {cs : List Char} : cs ≠ [] → Marked ('@' :: cs) (.ancestor (String.ofList cs))
  | valueIs (cs : List Char) : Marked ('=' :: cs) (.valueIs (String.ofList cs))

/-- What a segment stands for: what it is marked as, or else a name. -/
inductive Classified (cs : List Char) : Step → Prop
  | marked {step : Step} : Marked cs step → Classified cs step
  | named : (∀ step, ¬ Marked cs step) → Classified cs (.named (String.ofList cs))

/-- The range that follows an opening bracket, if a bracket closes it. -/
def ofBracket? (cs : List Char) : Option Step :=
  if cs.getLast? = some ']' then ofRange? cs.dropLast else none

/-- The step that a whole segment stands for. What has no other meaning is a name. -/
def ofSegment (cs : List Char) : Step :=
  match cs with
  | ['.', '.'] => .root
  | ['.'] => .parent
  | ['*', '*'] => .descendants
  | ['*'] => .children
  | ['#'] => .reference
  | ['-'] => .previous
  | ['+'] => .next
  | '@' :: c :: rest => .ancestor (String.ofList (c :: rest))
  | '=' :: rest => .valueIs (String.ofList rest)
  | '[' :: rest => (ofBracket? rest).getD (.named (String.ofList cs))
  | _ => .named (String.ofList cs)

theorem ofBracket?_eq_some_iff {cs : List Char} {step : Step} :
    ofBracket? cs = some step ↔ ∃ body, cs = body ++ [']'] ∧ RangeText body step := by
  unfold ofBracket?
  constructor
  · intro h
    split at h
    · rename_i hlast
      exact ⟨cs.dropLast, (List.dropLast_append_getLast? _ hlast).symm, rangeText_of_ofRange? h⟩
    · cases h
  · rintro ⟨body, rfl, h⟩
    simpa using h.ofRange?_eq

theorem marked_bracket_iff {body : List Char} {step : Step} :
    Marked ('[' :: (body ++ [']'])) step ↔ RangeText body step := by
  constructor
  · generalize hcs : '[' :: (body ++ [']']) = cs
    intro h
    cases h with
    | root | parent | children | descendants | reference | previous | next | valueIs => cases hcs
    | ancestor => cases hcs
    | index h hn =>
      obtain rfl := List.append_cancel_right (List.cons.inj hcs).2
      rw [← nextIndex_of_lt hn]
      exact .index h (Nat.lt_of_succ_lt hn)
    | lastIndex h hn =>
      obtain rfl := List.append_cancel_right (List.cons.inj hcs).2
      rw [← nextIndex_of_last hn]
      exact .index h (hn ▸ Nat.lt_succ_self _)
    | range h hn h' hm =>
      obtain rfl := List.append_cancel_right (List.cons.inj hcs).2
      exact .range h hn h' hm
  · intro h
    cases h with
    | index h hn =>
      rcases Nat.lt_or_eq_of_le (Nat.succ_le_of_lt hn) with hnext | hlast
      · rw [nextIndex_of_lt hnext]
        exact .index h hnext
      · rw [nextIndex_of_last hlast]
        exact .lastIndex h hlast
    | range h hn h' hm => exact .range h hn h' hm

theorem ofSegment_bracket {body : List Char} {step : Step} (h : RangeText body step) :
    ofSegment ('[' :: (body ++ [']'])) = step := by
  have hbracket : ofBracket? (body ++ [']']) = some step := ofBracket?_eq_some_iff.mpr ⟨body, rfl, h⟩
  simp [ofSegment, hbracket]

theorem Marked.ofSegment_eq {cs : List Char} {step : Step} (h : Marked cs step) : ofSegment cs = step := by
  cases h with
  | root | parent | children | descendants | reference | previous | next => rfl
  | index h hn => exact ofSegment_bracket (marked_bracket_iff.mp (.index h hn))
  | lastIndex h hn => exact ofSegment_bracket (marked_bracket_iff.mp (.lastIndex h hn))
  | range h hn h' hm => exact ofSegment_bracket (.range h hn h' hm)
  | @ancestor cs hne =>
    obtain ⟨c, rest, rfl⟩ := List.exists_cons_of_ne_nil hne
    rfl
  | valueIs cs => rfl

theorem marked_or_named (cs : List Char) :
    Marked cs (ofSegment cs) ∨ ofSegment cs = .named (String.ofList cs) := by
  unfold ofSegment
  split
  · exact .inl .root
  · exact .inl .parent
  · exact .inl .descendants
  · exact .inl .children
  · exact .inl .reference
  · exact .inl .previous
  · exact .inl .next
  · exact .inl (.ancestor (List.cons_ne_nil _ _))
  · exact .inl (.valueIs _)
  · rename_i rest
    cases hbracket : ofBracket? rest with
    | none => exact .inr rfl
    | some step =>
      obtain ⟨body, rfl, hrange⟩ := ofBracket?_eq_some_iff.mp hbracket
      exact .inl (marked_bracket_iff.mpr hrange)
  · exact .inr rfl

theorem not_marked_named {cs : List Char} {name : String} : ¬ Marked cs (.named name) := by
  rintro ⟨⟩

theorem classified_iff {cs : List Char} {step : Step} : Classified cs step ↔ step = ofSegment cs := by
  constructor
  · rintro (hmarked | hnone)
    · exact hmarked.ofSegment_eq.symm
    · rcases marked_or_named cs with hmarked | hnamed
      · exact absurd hmarked (hnone _)
      · exact hnamed.symm
  · rintro rfl
    rcases marked_or_named cs with hmarked | hnamed
    · exact .marked hmarked
    · rw [hnamed]
      refine .named fun step hmarked => ?_
      rw [← hmarked.ofSegment_eq, hnamed] at hmarked
      exact not_marked_named hmarked

end Step

end EventTree
