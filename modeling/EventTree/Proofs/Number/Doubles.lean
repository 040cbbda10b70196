import EventTree.Number.Shortest

/-!
# Doubles and their size

A quotient below a power of two is rounded to a double not much above it, and a double not much above it
has a numerator and a denominator whose quotient is. The shortest decimal of a double is zero only in the
one form that zero has.
-/

namespace EventTree.Double

/-! ## Quotients and powers of two -/

theorem shiftLeft_lt_shiftLeft {num den a b p q : Nat} (h : num <<< a < den <<< b)
    (hle : p + b ≤ q + a) : num <<< p < den <<< q := by
  have hden : 0 < den := by
    rcases Nat.eq_zero_or_pos den with rfl | hpos
    · simp at h
    · exact hpos
  have hscaled : (num <<< p) <<< a < (den <<< q) <<< a := by
    calc (num <<< p) <<< a = (num <<< a) <<< p := by
          rw [← Nat.shiftLeft_add, ← Nat.shiftLeft_add, Nat.add_comm]
      _ < (den <<< b) <<< p := by
          rw [Nat.shiftLeft_eq _ p, Nat.shiftLeft_eq _ p]
          exact Nat.mul_lt_mul_of_pos_right h (Nat.two_pow_pos p)
      _ = den <<< (p + b) := by rw [← Nat.shiftLeft_add, Nat.add_comm]
      _ ≤ den <<< (q + a) := by
          rw [Nat.shiftLeft_eq, Nat.shiftLeft_eq]
          exact Nat.mul_le_mul_left _ (Nat.pow_le_pow_right (by decide) hle)
      _ = (den <<< q) <<< a := Nat.shiftLeft_add ..
  rw [Nat.shiftLeft_eq _ a, Nat.shiftLeft_eq _ a] at hscaled
  exact Nat.lt_of_mul_lt_mul_right hscaled

theorem floorLog2_le {num den k : Nat} (h : num < den <<< k) :
    floorLog2 num den ≤ k := by
  have hlog : num.log2 < den.log2 + 1 + k := by
    rcases Nat.eq_zero_or_pos num with rfl | hnum
    · simp only [Nat.log2_zero]
      omega
    · rw [Nat.log2_lt (Nat.ne_of_gt hnum)]
      rw [Nat.shiftLeft_eq] at h
      calc num < den * 2 ^ k := h
        _ ≤ 2 ^ (den.log2 + 1) * 2 ^ k := Nat.mul_le_mul_right _ (Nat.le_of_lt Nat.lt_log2_self)
        _ = 2 ^ (den.log2 + 1 + k) := (Nat.pow_add ..).symm
  unfold floorLog2
  dsimp only
  split <;> omega

theorem lt_floorLog2 (num : Nat) {den : Nat} (hden : den ≠ 0) :
    num <<< (-(floorLog2 num den + 1)).toNat < den <<< (floorLog2 num den + 1).toNat := by
  -- The logarithms alone are at most one off.
  have hlogs : num <<< den.log2 < den <<< (num.log2 + 1) := by
    rw [Nat.shiftLeft_eq, Nat.shiftLeft_eq]
    calc num * 2 ^ den.log2 < 2 ^ (num.log2 + 1) * 2 ^ den.log2 :=
          Nat.mul_lt_mul_of_pos_right Nat.lt_log2_self (Nat.two_pow_pos _)
      _ ≤ 2 ^ (num.log2 + 1) * den := Nat.mul_le_mul_left _ (Nat.log2_self_le hden)
      _ = den * 2 ^ (num.log2 + 1) := Nat.mul_comm ..
  unfold floorLog2
  dsimp only
  generalize hguess : (num.log2 : Int) - (den.log2 : Int) = guess
  split
  · split
    · exact shiftLeft_lt_shiftLeft hlogs (by omega)
    · rename_i hmissed
      have hlt : num <<< 0 < den <<< guess.toNat := Nat.lt_of_not_le hmissed
      exact shiftLeft_lt_shiftLeft hlt (by omega)
  · split
    · exact shiftLeft_lt_shiftLeft hlogs (by omega)
    · rename_i hmissed
      have hlt : num <<< (-guess).toNat < den <<< 0 := Nat.lt_of_not_le hmissed
      exact shiftLeft_lt_shiftLeft hlt (by omega)

/-! ## Rounding -/

theorem roundedQuotient_le {num den bound : Nat} (h : num < bound * den) :
    roundedQuotient num den ≤ bound := by
  have hden : 0 < den := Nat.pos_of_ne_zero fun hzero => by simp [hzero] at h
  have hquotient : num / den < bound := Nat.div_lt_of_lt_mul (by rwa [Nat.mul_comm])
  unfold roundedQuotient
  dsimp only
  split
  · omega
  · split <;> omega

theorem nearest_le {num den k : Nat} (hden : den ≠ 0) (h : num < den <<< k) :
    nearest num den ≤ (k + 1024) * 1 <<< 52 := by
  have hlog := floorLog2_le h
  have hlt := lt_floorLog2 num hden
  unfold nearest
  split
  · exact Nat.zero_le _
  · dsimp only
    generalize he : max (floorLog2 num den - 52) (-1074) = e
    -- the significand has 53 bits, or is the next power of two after rounding up
    have hbits : (if 0 ≤ e then roundedQuotient num (den <<< e.toNat)
        else roundedQuotient (num <<< (-e).toNat) den) ≤ 1 <<< 53 := by
      split
      · have hunit : num <<< 0 < den <<< (e.toNat + 53) := shiftLeft_lt_shiftLeft hlt (by omega)
        rw [Nat.shiftLeft_add, Nat.shiftLeft_eq _ 53] at hunit
        exact roundedQuotient_le (by simpa [Nat.mul_comm] using hunit)
      · have hunit : num <<< (-e).toNat < den <<< 53 := shiftLeft_lt_shiftLeft hlt (by omega)
        rw [Nat.shiftLeft_eq _ 53] at hunit
        exact roundedQuotient_le (by simpa [Nat.mul_comm] using hunit)
    refine Nat.le_trans (Nat.min_le_right _ _) ?_
    have hfield : (e + 1074).toNat ≤ k + 1022 := by omega
    omega

theorem nearest_le_infinite (num den : Nat) : nearest num den ≤ infinite := by
  unfold nearest
  split
  · exact Nat.zero_le _
  · exact Nat.min_le_left _ _

theorem magnitude_ofMagnitude (negative : Bool) {m : Nat} (h : m < 1 <<< 63) :
    (ofMagnitude negative m).magnitude = m := by
  unfold magnitude ofMagnitude
  dsimp only
  cases negative with
  | false =>
    simp only [Bool.false_eq_true, if_false, UInt64.toNat_ofNat', Nat.reduceShiftLeft] at h ⊢
    omega
  | true =>
    simp only [if_true, UInt64.toNat_ofNat', Nat.reduceShiftLeft] at h ⊢
    omega

theorem magnitude_ofRatio (negative : Bool) (num den : Nat) :
    (ofRatio negative num den).magnitude = nearest num den := by
  have hle := nearest_le_infinite num den
  have hinfinite : infinite < 1 <<< 63 := by decide
  exact magnitude_ofMagnitude negative (by omega)

/-! ## Doubles below a power of two -/

/-- Less than `2 ^ k`, sign aside. -/
def Below (k : Nat) (x : Double) : Prop := x.magnitude ≤ (k + 1022) * 1 <<< 52

theorem significand_lt (x : Double) : x.significand < 1 <<< 53 := by
  unfold significand field
  simp only [Nat.reduceShiftLeft]
  split <;> omega

theorem denominator_ne_zero (x : Double) : x.denominator ≠ 0 := by
  simp [denominator, Nat.shiftLeft_eq]

theorem Below.numerator_lt {k : Nat} (hk : 53 ≤ k) {x : Double} (h : x.Below k) :
    x.numerator < x.denominator <<< k := by
  have hsignificand : x.significand <<< 0 < 1 <<< 53 := significand_lt x
  have hexponent : x.exponent + 53 ≤ k := by
    unfold Below at h
    unfold exponent field
    simp only [Nat.reduceShiftLeft] at h ⊢
    split <;> omega
  unfold numerator denominator
  rw [← Nat.shiftLeft_add]
  exact shiftLeft_lt_shiftLeft hsignificand (by omega)

theorem Below.isFinite {x : Double} {k : Nat} (h : x.Below k) (hk : k < 1025) : x.isFinite = true := by
  unfold Below at h
  unfold Double.isFinite infinite
  apply decide_eq_true
  omega

theorem below_ofRatio (negative : Bool) {num den k : Nat} (hden : den ≠ 0) (h : num < den <<< k) :
    (ofRatio negative num den).Below (k + 2) := by
  unfold Below
  rw [magnitude_ofRatio]
  exact nearest_le hden h

theorem Below.div {x y : Double} {k j : Nat} (hk : 53 ≤ k) (hj : j ≤ k) (hx : x.Below k)
    (hy : y.denominator <<< j ≤ y.numerator) : (x.div y).Below (k - j + 2) := by
  have hpos := Nat.pos_of_ne_zero (denominator_ne_zero y)
  have hfactor : 0 < y.numerator := by
    rw [Nat.shiftLeft_eq] at hy
    exact Nat.lt_of_lt_of_le (Nat.mul_pos hpos (Nat.two_pow_pos j)) hy
  apply below_ofRatio
  · exact Nat.mul_ne_zero (denominator_ne_zero x) (Nat.ne_of_gt hfactor)
  · have hnum := hx.numerator_lt hk
    rw [Nat.shiftLeft_eq] at hnum hy ⊢
    calc x.numerator * y.denominator < x.denominator * 2 ^ k * y.denominator :=
          Nat.mul_lt_mul_of_pos_right hnum hpos
      _ = x.denominator * (y.denominator * 2 ^ j) * 2 ^ (k - j) := by
          rw [← Nat.sub_add_cancel hj, Nat.pow_add, Nat.add_sub_cancel]
          ac_rfl
      _ ≤ x.denominator * y.numerator * 2 ^ (k - j) :=
          Nat.mul_le_mul_right _ (Nat.mul_le_mul_left _ hy)

/-! ## Shortest decimals -/

theorem digits_ne_zero_of_stripZeros {fuel : Nat} {d : Decimal} (h : d.digits ≠ 0) :
    (d.stripZeros fuel).digits ≠ 0 := by
  induction fuel generalizing d with
  | zero => exact h
  | succ fuel ih =>
    unfold Decimal.stripZeros
    split
    · exact ih (show d.digits / 10 ≠ 0 by omega)
    · exact h

theorem digits_ne_zero_of_decimalOf? {tie : Tie} {x : Double} {lead : Int} {count : Nat} {d : Decimal}
    (hx : x.significand ≠ 0) (h : x.decimalOf? tie lead count = some d) : d.digits ≠ 0 := by
  unfold decimalOf? at h
  dsimp only at h
  generalize hunit : Nat.pow 10 (-(lead - ((count : Int) - 1))).toNat <<< (x.exponent - 2).toNat = unit at h
  generalize Nat.pow 10 (lead - ((count : Int) - 1)).toNat <<< (2 - x.exponent).toNat = grid at h
  have hpos : 0 < unit := by
    rw [← hunit, Nat.shiftLeft_eq]
    exact Nat.mul_pos (Nat.pow_pos (by decide)) (Nat.two_pow_pos _)
  have hlow : 0 < (4 * x.significand - x.gapBelow) * unit := by
    refine Nat.mul_pos ?_ hpos
    unfold gapBelow
    split <;> omega
  -- what fits below the double is above its lower bound, and that is above zero
  generalize 4 * x.significand * unit / grid = floor at h
  have hfloor : (4 * x.significand - x.gapBelow) * unit < floor * grid ∨
      x.significand % 2 = 0 ∧ (4 * x.significand - x.gapBelow) * unit = floor * grid → floor ≠ 0 := by
    rintro hfits rfl
    omega
  split at h
  · rename_i hfits
    cases h
    dsimp only
    split
    · omega
    · exact hfloor hfits.1
  · split at h
    · rename_i hfits
      cases h
      exact hfloor hfits
    · split at h
      · cases h
        exact Nat.succ_ne_zero _
      · cases h

theorem exponent_shortest {tie : Tie} {x : Double} (h : (x.shortest tie).digits = 0) :
    (x.shortest tie).exponent = 0 := by
  unfold shortest at h ⊢
  dsimp only at h ⊢
  split at h
  · rename_i hzero
    rw [if_pos hzero]
  · rename_i hx
    rw [if_neg hx]
    cases hfound : (List.range 17).findSome?
        fun n => x.decimalOf? tie (Decimal.floorLog10 x.numerator x.denominator) (n + 1) with
    | none => rfl
    | some d =>
      rw [hfound] at h
      obtain ⟨n, -, hd⟩ := List.exists_of_findSome?_eq_some hfound
      exact absurd h (digits_ne_zero_of_stripZeros (digits_ne_zero_of_decimalOf? hx hd))

end EventTree.Double
