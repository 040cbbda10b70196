import EventTree.Number.Numeral
import EventTree.Proofs.Number.Doubles
import Mathlib.Data.List.TakeWhile

/-!
# Numerals written and read

A numeral that is in order is read back from its text, as long as what follows cannot be taken for more of
it. Integers and doubles are written as numerals in order, and a double that a numeral stands for is
finite.
-/

namespace EventTree.Numeral

/-! ## Digits -/

theorem digitsOf_ne_nil (n : Nat) : digitsOf n ≠ [] := by
  simp [digitsOf]

theorem isDigit_of_mem_digitsOf {n : Nat} {c : Char} (h : c ∈ digitsOf n) : c.isDigit = true :=
  Nat.isDigit_of_mem_toDigits (by decide) (by decide) h

theorem digitsValue_digitsOf (n : Nat) : digitsValue (digitsOf n) = n :=
  Nat.ofDigitChars_ten_toDigits

theorem head?_digitsOf {n : Nat} (h : n ≠ 0) : (digitsOf n).head? ≠ some '0' := by
  induction n using Nat.strong_induction_on with
  | _ n ih =>
    by_cases hsmall : n < 10
    · have hdigit : ∀ k < 10, k ≠ 0 → k.digitChar ≠ '0' := by decide
      rw [digitsOf, Nat.toDigits_of_lt_base hsmall]
      simpa using hdigit n hsmall h
    · have hrest := ih (n / 10) (by omega) (by omega)
      unfold digitsOf at hrest ⊢
      rw [Nat.toDigits_of_base_le (by decide) (by omega), List.head?_append,
        Option.or_of_isSome (by simp)]
      exact hrest

/-- Digits, one or more. -/
structure Digits (cs : List Char) : Prop where
  ne_nil : cs ≠ []
  isDigit : ∀ c ∈ cs, c.isDigit = true

theorem digits_digitsOf (n : Nat) : Digits (digitsOf n) :=
  ⟨digitsOf_ne_nil n, fun _ => isDigit_of_mem_digitsOf⟩

theorem Digits.exists_cons {cs : List Char} (h : Digits cs) :
    ∃ c more, cs = c :: more ∧ c.isDigit = true := by
  cases cs with
  | nil => exact absurd rfl h.ne_nil
  | cons c more => exact ⟨c, more, rfl, h.isDigit c List.mem_cons_self⟩

theorem readDigits_append {cs rest : List Char} (h : Digits cs)
    (hrest : ∀ c ∈ rest.head?, c.isDigit = false) : readDigits (cs ++ rest) = some (cs, rest) := by
  have htake : rest.takeWhile Char.isDigit = [] ∧ rest.dropWhile Char.isDigit = rest := by
    cases rest with
    | nil => simp
    | cons c more => simp [hrest c rfl]
  unfold readDigits
  rw [List.takeWhile_append_of_pos h.isDigit, List.dropWhile_append_of_pos h.isDigit, htake.1, htake.2,
    List.append_nil]
  exact if_neg h.ne_nil

/-! ## Reading a numeral back -/

/-- A numeral that the grammar knows: digits where there must be some, and no zero before another
digit. -/
structure InOrder (n : Numeral) : Prop where
  whole : Digits n.whole
  lead : n.whole = ['0'] ∨ n.whole.head? ≠ some '0'
  fraction : ∀ digits ∈ n.fraction, Digits digits
  exponent : ∀ e ∈ n.exponent, Digits e.digits

/-- The text cannot be taken for more of a numeral before it. -/
def Ends (rest : List Char) : Prop :=
  ∀ c ∈ rest.head?, c.isDigit = false ∧ c ≠ '.' ∧ c ≠ 'e' ∧ c ≠ 'E'

def fractionText (fraction : Option (List Char)) : List Char :=
  (fraction.map fun digits => '.' :: digits).getD []

def exponentText (exponent : Option Exponent) : List Char :=
  (exponent.map fun e => 'e' :: (e.sign.text ++ e.digits)).getD []

@[simp]
theorem fractionText_none : fractionText none = [] := rfl

@[simp]
theorem fractionText_some (digits : List Char) : fractionText (some digits) = '.' :: digits := rfl

@[simp]
theorem exponentText_none : exponentText none = [] := rfl

@[simp]
theorem exponentText_some (e : Exponent) :
    exponentText (some e) = 'e' :: (e.sign.text ++ e.digits) := rfl

theorem text_eq (n : Numeral) :
    n.text = (if n.negative then ['-'] else []) ++
      (n.whole ++ (fractionText n.fraction ++ exponentText n.exponent)) := by
  unfold text
  cases n.fraction <;> cases n.exponent <;> simp

theorem readExponentSign_append (sign : ExponentSign) {digits : List Char} (h : Digits digits)
    (rest : List Char) : readExponentSign (sign.text ++ digits ++ rest) = (sign, digits ++ rest) := by
  obtain ⟨c, more, rfl, hc⟩ := h.exists_cons
  cases sign with
  | plus => rfl
  | minus => rfl
  | unwritten =>
    simp only [ExponentSign.text, List.nil_append, List.cons_append]
    unfold readExponentSign
    split
    · rename_i heq
      cases heq
      cases hc
    · rename_i heq
      cases heq
      cases hc
    · rfl

theorem readExponent_append {exponent : Option Exponent} (h : ∀ e ∈ exponent, Digits e.digits)
    {rest : List Char} (hrest : Ends rest) :
    readExponent (exponentText exponent ++ rest) = some (exponent, rest) := by
  cases exponent with
  | none =>
    cases rest with
    | nil => rfl
    | cons c more =>
      obtain ⟨-, -, he, hE⟩ := hrest c rfl
      simp [readExponent, he, hE]
  | some e =>
    have hdigits := h e rfl
    have hread := readDigits_append hdigits fun c hc => (hrest c hc).1
    rw [exponentText_some, List.cons_append, readExponent, if_pos (Or.inl rfl),
      readExponentSign_append e.sign hdigits]
    simp only [hread]
    rfl

theorem readFraction_append {fraction : Option (List Char)} (h : ∀ digits ∈ fraction, Digits digits)
    {rest : List Char} (hrest : ∀ c ∈ rest.head?, c.isDigit = false ∧ c ≠ '.') :
    readFraction (fractionText fraction ++ rest) = some (fraction, rest) := by
  cases fraction with
  | none =>
    rw [fractionText_none, List.nil_append]
    unfold readFraction
    split
    · exact absurd rfl (hrest '.' rfl).2
    · rfl
  | some digits =>
    rw [fractionText_some, List.cons_append, readFraction,
      readDigits_append (h digits rfl) fun c hc => (hrest c hc).1]
    rfl

theorem readWhole_append {n : Numeral} (h : n.InOrder) {rest : List Char}
    (hrest : ∀ c ∈ rest.head?, c.isDigit = false) :
    readWhole (n.whole ++ rest) = some (n.whole, rest) := by
  unfold readWhole
  rw [readDigits_append h.whole hrest]
  split
  · rename_i heq
    have hwhole := congrArg (Option.map Prod.fst) heq
    simp only [Option.map_some, Option.some.injEq] at hwhole
    rcases h.lead with hlead | hlead
    · simp [hlead] at hwhole
    · simp [hwhole] at hlead
  · rfl

theorem ends_exponentText {rest : List Char} (hrest : Ends rest) (exponent : Option Exponent) :
    ∀ c ∈ (exponentText exponent ++ rest).head?, c.isDigit = false ∧ c ≠ '.' := by
  cases exponent with
  | none => exact fun c hc => ⟨(hrest c hc).1, (hrest c hc).2.1⟩
  | some e =>
    intro c hc
    cases hc
    decide

theorem isDigit_fractionText {rest : List Char} (fraction : Option (List Char))
    (hrest : ∀ c ∈ rest.head?, c.isDigit = false) :
    ∀ c ∈ (fractionText fraction ++ rest).head?, c.isDigit = false := by
  cases fraction with
  | none => exact hrest
  | some digits =>
    intro c hc
    cases hc
    decide

theorem InOrder.text_starts {n : Numeral} (h : n.InOrder) :
    ∃ c more, n.text = c :: more ∧ (c = '-' ∨ c.isDigit = true) := by
  obtain ⟨c, more, hcons, hc⟩ := h.whole.exists_cons
  rw [text_eq, hcons]
  cases n.negative with
  | true => exact ⟨_, _, rfl, .inl rfl⟩
  | false => exact ⟨_, _, rfl, .inr hc⟩

theorem read_text {n : Numeral} (h : n.InOrder) {rest : List Char} (hrest : Ends rest) :
    read (n.text ++ rest) = some (n, rest) := by
  have hexponent := readExponent_append h.exponent hrest
  have hends := ends_exponentText hrest n.exponent
  have hfraction := readFraction_append h.fraction hends
  have hwhole := readWhole_append h (isDigit_fractionText n.fraction fun c hc => (hends c hc).1)
  obtain ⟨c, more, hcons, hc⟩ := h.whole.exists_cons
  unfold read
  rw [text_eq]
  cases hnegative : n.negative with
  | true =>
    simp only [if_true, List.cons_append, List.nil_append, List.append_assoc, hwhole, hfraction,
      hexponent, Option.bind_eq_bind, Option.bind_some]
    rw [← hnegative]
    rfl
  | false =>
    have hminus : c ≠ '-' := by
      rintro rfl
      cases hc
    simp only [Bool.false_eq_true, if_false, List.nil_append, List.append_assoc]
    rw [hcons] at hwhole ⊢
    simp only [List.cons_append] at hwhole ⊢
    split
    · rename_i heq
      exact absurd (List.cons.inj heq).1 hminus
    · simp only [hwhole, hfraction, hexponent, Option.bind_eq_bind, Option.bind_some]
      rw [← hnegative, ← hcons]
      rfl

/-! ## Integers -/

theorem inOrder_ofInt (i : Int) : (ofInt i).InOrder := by
  refine ⟨digits_digitsOf _, ?_, by simp [ofInt], by simp [ofInt]⟩
  by_cases h : i.natAbs = 0
  · exact .inl (by simp [ofInt, h, digitsOf])
  · exact .inr (head?_digitsOf h)

theorem toInt64?_ofInt (i : Int64) : (ofInt i.toInt).toInt64? = some i := by
  have hlow := Int64.le_toInt i
  have hhigh := Int64.toInt_lt i
  have hword : Int64.ofInt i.toInt = i := Int64.ofInt_toInt i
  unfold toInt64? ofInt
  simp only [isInteger, digitsValue_digitsOf, Option.isNone_none, Bool.and_self, Bool.not_true,
    Bool.false_eq_true, if_false, decide_eq_true_eq]
  split
  · rename_i hneg
    have habs : -(i.toInt.natAbs : Int) = i.toInt := by omega
    rw [if_neg (by omega), habs, hword]
  · rename_i hneg
    have habs : (i.toInt.natAbs : Int) = i.toInt := by omega
    rw [if_pos (by omega), habs, hword]

/-! ## Doubles -/

theorem Digits.append {cs ds : List Char} (h : Digits cs) (hds : ∀ c ∈ ds, c.isDigit = true) :
    Digits (cs ++ ds) := by
  refine ⟨by simp [h.ne_nil], fun c hc => ?_⟩
  rcases List.mem_append.mp hc with hc | hc
  · exact h.isDigit c hc
  · exact hds c hc

theorem Digits.take {cs : List Char} (h : Digits cs) {n : Nat} (hn : 0 < n) : Digits (cs.take n) := by
  refine ⟨?_, fun c hc => h.isDigit c (List.mem_of_mem_take hc)⟩
  simp [h.ne_nil, Nat.ne_of_gt hn]

theorem Digits.drop {cs : List Char} (h : Digits cs) {n : Nat} (hn : n < cs.length) :
    Digits (cs.drop n) := by
  refine ⟨?_, fun c hc => h.isDigit c (List.mem_of_mem_drop hc)⟩
  simp [hn]

theorem isDigit_of_mem_zeros {n : Nat} {c : Char} (h : c ∈ Layout.zeros n) : c.isDigit = true := by
  rw [List.eq_of_mem_replicate h]
  rfl

theorem head?_take {cs : List Char} {n : Nat} (hn : 0 < n) : (cs.take n).head? = cs.head? := by
  rw [List.head?_take, if_neg (Nat.ne_of_gt hn)]

/-- Zero may be written only in its own place: a zero digit before more of them would lead. -/
theorem inOrder_writePositional (layout : Layout) (negative : Bool) {n : Nat} {power : Int}
    (h : n = 0 → power = 0) : (layout.writePositional negative (digitsOf n) power).InOrder := by
  have hdigits := digits_digitsOf n
  unfold Layout.writePositional
  split
  · refine ⟨hdigits.append fun c => isDigit_of_mem_zeros, ?_, ?_, by simp⟩
    · by_cases hn : n = 0
      · simp [hn, h hn, digitsOf, Layout.zeros]
      · have hhead := head?_digitsOf hn
        obtain ⟨c, more, hcons, -⟩ := hdigits.exists_cons
        rw [hcons] at hhead
        exact .inr (by simpa [hcons] using hhead)
    · intro digits hdigit
      dsimp only at hdigit
      split at hdigit
      · cases hdigit
        exact ⟨by simp, by simp⟩
      · cases hdigit
  · rename_i hpower
    -- Digits behind the point are there for a negative power only.
    have hn : n ≠ 0 := fun hn => hpower (by simp [h hn])
    dsimp only
    split
    · refine ⟨hdigits.take (by omega), .inr ?_, ?_, by simp⟩
      · rw [head?_take (by omega)]
        exact head?_digitsOf hn
      · rintro digits ⟨⟩
        exact hdigits.drop (by omega)
    · refine ⟨⟨by simp, by simp⟩, .inl rfl, ?_, by simp⟩
      rintro digits ⟨⟩
      refine ⟨by simp [hdigits.ne_nil], fun c hc => ?_⟩
      rcases List.mem_append.mp hc with hc | hc
      · exact isDigit_of_mem_zeros hc
      · exact hdigits.isDigit c hc

theorem inOrder_writeScientific (layout : Layout) (negative : Bool) (n : Nat) (exponent : Int) :
    (layout.writeScientific negative (digitsOf n) exponent).InOrder := by
  have hdigits := digits_digitsOf n
  refine ⟨hdigits.take (by decide), ?_, ?_, ?_⟩
  · dsimp only [Layout.writeScientific]
    by_cases hn : n = 0
    · simp [hn, digitsOf]
    · rw [head?_take (by decide)]
      exact .inr (head?_digitsOf hn)
  · intro digits hdigit
    dsimp only [Layout.writeScientific] at hdigit
    split at hdigit
    · cases hdigit
    · cases hdigit
      exact hdigits.drop (by omega)
  · rintro e ⟨⟩
    exact digits_digitsOf _

theorem inOrder_numeral (layout : Layout) (x : Double) : (layout.numeral x).InOrder := by
  unfold Layout.numeral
  dsimp only
  split
  · exact inOrder_writePositional layout x.negative (n := 0) fun _ => rfl
  · split
    · exact inOrder_writePositional layout x.negative Double.exponent_shortest
    · exact inOrder_writeScientific ..

/-! ## Numerals stand for finite doubles -/

theorem significand_takeWhole {s : Scaled} (h : s.significand < UInt64.size) (cs : List Char) :
    (s.takeWhole cs).significand < UInt64.size := by
  induction cs generalizing s with
  | nil => exact h
  | cons c cs ih =>
    unfold Scaled.takeWhole
    split
    · rename_i hfits
      exact ih (of_decide_eq_true hfits)
    · exact h

theorem significand_takeFraction {s : Scaled} (h : s.significand < UInt64.size) (cs : List Char) :
    (s.takeFraction cs).significand < UInt64.size := by
  induction cs generalizing s with
  | nil => exact h
  | cons c cs ih =>
    unfold Scaled.takeFraction
    split
    · rename_i hfits
      exact ih (of_decide_eq_true hfits)
    · exact h

theorem powerOfTen_ge {n : Nat} (h : n ≤ topPower) :
    (powerOfTen n).denominator ≤ (powerOfTen n).numerator := by
  have hall : ∀ k < 309, (powerOfTen k).denominator ≤ (powerOfTen k).numerator := by decide +kernel
  exact hall n (Nat.lt_succ_of_le h)

/-- Each full step divides by more than rounding can add. -/
theorem isFinite_divideByPower {x : Double} (h : x.Below 66) (n : Nat) :
    (divideByPower x n).isFinite = true := by
  induction x, n using divideByPower.induct with
  | case1 x n hn =>
    rw [divideByPower, if_pos hn]
    exact (h.div (by decide) (Nat.zero_le _) (powerOfTen_ge hn)).isFinite (by decide)
  | case2 x n hn hzero =>
    rw [divideByPower, if_neg hn, if_pos hzero]
    exact h.isFinite (by decide)
  | case3 x n hn hzero ih =>
    have htop : (powerOfTen topPower).denominator <<< 2 ≤ (powerOfTen topPower).numerator := by
      decide +kernel
    rw [divideByPower, if_neg hn, if_neg hzero]
    have hdiv : (x.div (powerOfTen topPower)).Below (66 - 2 + 2) :=
      h.div (by decide) (by decide) htop
    exact ih hdiv

theorem isFinite_scale {significand : Nat} {power : Int} {x : Double} (h : significand < UInt64.size)
    (hx : scale significand power = some x) : x.isFinite = true := by
  have hbelow : (Double.ofRatio false significand 1).Below 66 :=
    Double.below_ofRatio false (k := 64) (by decide) h
  unfold scale at hx
  dsimp only at hx
  split at hx
  · cases hx
    exact isFinite_divideByPower hbelow _
  · split at hx
    · cases hx
      exact hbelow.isFinite (by decide)
    · split at hx
      · cases hx
      · split at hx
        · rename_i hfinite
          cases hx
          exact hfinite
        · cases hx

theorem isFinite_shift {s : Scaled} {exponent : Option Exponent} {x : Double}
    (h : s.significand < UInt64.size) (hx : shift s exponent = some x) : x.isFinite = true := by
  cases exponent with
  | none => exact isFinite_scale h hx
  | some e =>
    unfold shift at hx
    dsimp only at hx
    split at hx
    · exact isFinite_scale h hx
    · split at hx
      · cases hx
      · cases hx
        rfl

theorem isFinite_of_toDouble? {n : Numeral} {x : Double} (h : n.toDouble? = some x) :
    x.isFinite = true := by
  obtain ⟨y, hy, rfl⟩ := Option.map_eq_some_iff.mp h
  have hfinite := isFinite_shift
    (significand_takeFraction (significand_takeWhole (by decide) n.whole) (n.fraction.getD [])) hy
  have hmagnitude := Double.magnitude_ofMagnitude n.negative (m := y.magnitude) (Nat.mod_lt _ (by decide))
  unfold Double.isFinite
  rw [hmagnitude]
  exact hfinite

end EventTree.Numeral
