import EventTree.Proofs.Number.Doubles

/-!
# Rounding keeps the order

The double nearest to a greater integer is not smaller. Integers of more than 53 bits may be rounded to
one double, and that is all that is lost of their order.
-/

namespace EventTree.Double

/-! ## Quotients -/

theorem le_roundedQuotient (num den : Nat) : num / den ≤ roundedQuotient num den := by
  unfold roundedQuotient
  dsimp only
  split
  · exact Nat.le_refl _
  · split <;> omega

theorem roundedQuotient_le_succ (num den : Nat) : roundedQuotient num den ≤ num / den + 1 := by
  unfold roundedQuotient
  dsimp only
  split
  · omega
  · split <;> omega

theorem roundedQuotient_mono {num num' : Nat} (h : num ≤ num') (den : Nat) :
    roundedQuotient num den ≤ roundedQuotient num' den := by
  rcases Nat.lt_or_eq_of_le (Nat.div_le_div_right (c := den) h) with hlt | heq
  · calc roundedQuotient num den
      _ ≤ num / den + 1 := roundedQuotient_le_succ num den
      _ ≤ num' / den := hlt
      _ ≤ roundedQuotient num' den := le_roundedQuotient num' den
  · -- between two neighbours the remainders decide
    have hrest : num % den ≤ num' % den := by
      have hnum := Nat.div_add_mod num den
      have hnum' := Nat.div_add_mod num' den
      rw [heq] at hnum
      omega
    unfold roundedQuotient
    dsimp only
    rw [heq]
    generalize num' / den = whole
    split
    · split
      · exact Nat.le_refl _
      · split <;> omega
    · split
      · split
        · omega
        · split <;> omega
      · split
        · omega
        · split <;> omega

/-! ## Integers -/

/-- The significand of the double nearest to an integer, before a carry into the exponent. -/
def wholeSignificand (n : Nat) : Nat :=
  if 52 ≤ n.log2 then roundedQuotient n (1 <<< (n.log2 - 52)) else n <<< (52 - n.log2)

theorem le_wholeSignificand {n : Nat} (h : n ≠ 0) : 1 <<< 52 ≤ wholeSignificand n := by
  have hlog := Nat.log2_self_le h
  unfold wholeSignificand
  split
  · rename_i hlarge
    refine Nat.le_trans ?_ (le_roundedQuotient _ _)
    rw [Nat.one_shiftLeft, Nat.one_shiftLeft, Nat.le_div_iff_mul_le (Nat.two_pow_pos _), ← Nat.pow_add]
    calc 2 ^ (52 + (n.log2 - 52)) = 2 ^ n.log2 := by rw [Nat.add_sub_cancel' hlarge]
      _ ≤ n := hlog
  · rename_i hsmall
    rw [Nat.one_shiftLeft, Nat.shiftLeft_eq]
    calc 2 ^ 52 = 2 ^ n.log2 * 2 ^ (52 - n.log2) := by
          rw [← Nat.pow_add]
          congr 1
          omega
      _ ≤ n * 2 ^ (52 - n.log2) := Nat.mul_le_mul_right _ hlog

theorem wholeSignificand_le (n : Nat) : wholeSignificand n ≤ 1 <<< 53 := by
  have hlog := Nat.lt_log2_self (n := n)
  unfold wholeSignificand
  split
  · rename_i hlarge
    refine roundedQuotient_le ?_
    rw [Nat.one_shiftLeft, Nat.one_shiftLeft]
    calc n < 2 ^ (n.log2 + 1) := hlog
      _ = 2 ^ 53 * 2 ^ (n.log2 - 52) := by
          rw [← Nat.pow_add]
          congr 1
          omega
  · rename_i hsmall
    rw [Nat.one_shiftLeft, Nat.shiftLeft_eq]
    calc n * 2 ^ (52 - n.log2) ≤ 2 ^ (n.log2 + 1) * 2 ^ (52 - n.log2) :=
          Nat.mul_le_mul_right _ (Nat.le_of_lt hlog)
      _ = 2 ^ 53 := by
          rw [← Nat.pow_add]
          congr 1
          omega

theorem wholeSignificand_mono {n n' : Nat} (h : n ≤ n') (hlog : n.log2 = n'.log2) :
    wholeSignificand n ≤ wholeSignificand n' := by
  unfold wholeSignificand
  rw [hlog]
  split
  · exact roundedQuotient_mono h _
  · rw [Nat.shiftLeft_eq, Nat.shiftLeft_eq]
    exact Nat.mul_le_mul_right _ h

theorem floorLog2_one {n : Nat} (h : n ≠ 0) : floorLog2 n 1 = n.log2 := by
  have hone : Nat.log2 1 = 0 := by decide
  have hreached : 1 <<< n.log2 ≤ n := by
    rw [Nat.one_shiftLeft]
    exact Nat.log2_self_le h
  unfold floorLog2
  simp [hone, hreached]

theorem nearest_one {n : Nat} (h : n ≠ 0) :
    nearest n 1 = min infinite ((n.log2 + 1022) * 1 <<< 52 + wholeSignificand n) := by
  have hexponent : max (floorLog2 n 1 - 52) (-1074) = (n.log2 : Int) - 52 := by
    rw [floorLog2_one h]
    omega
  have hfield : ((n.log2 : Int) - 52 + 1074).toNat = n.log2 + 1022 := by omega
  unfold nearest wholeSignificand
  rw [if_neg h]
  dsimp only
  rw [hexponent, hfield]
  by_cases hlarge : 52 ≤ n.log2
  · have hshift : ((n.log2 : Int) - 52).toNat = n.log2 - 52 := by omega
    rw [if_pos (by omega), if_pos hlarge, hshift]
  · have hshift : (-((n.log2 : Int) - 52)).toNat = 52 - n.log2 := by omega
    have hexact : ∀ k, roundedQuotient k 1 = k := fun k => by simp [roundedQuotient, Nat.mod_one]
    rw [if_neg (by omega), if_neg hlarge, hshift, hexact]

theorem nearest_one_mono {n n' : Nat} (h : n ≤ n') : nearest n 1 ≤ nearest n' 1 := by
  by_cases hzero : n = 0
  · simp [hzero, nearest]
  have hzero' : n' ≠ 0 := by omega
  have hlog : n.log2 ≤ n'.log2 := by
    rw [Nat.le_log2 hzero']
    exact Nat.le_trans (Nat.log2_self_le hzero) h
  have hle : (n.log2 + 1022) * 1 <<< 52 + wholeSignificand n ≤
      (n'.log2 + 1022) * 1 <<< 52 + wholeSignificand n' := by
    -- A greater exponent outweighs all significands, carries included.
    rcases Nat.lt_or_eq_of_le hlog with hlt | heq
    · have hhigh := wholeSignificand_le n
      have hlow := le_wholeSignificand hzero'
      omega
    · have hmono := wholeSignificand_mono h heq
      rw [heq]
      omega
  rw [nearest_one hzero, nearest_one hzero']
  omega

/-! ## The order of doubles -/

theorem negative_ofMagnitude (negative : Bool) {m : Nat} (h : m < 1 <<< 63) :
    (ofMagnitude negative m).negative = negative := by
  unfold Double.negative ofMagnitude
  dsimp only
  cases negative with
  | false =>
    simp only [Bool.false_eq_true, if_false, UInt64.toNat_ofNat', Nat.reduceShiftLeft] at h ⊢
    simp only [decide_eq_false_iff_not]
    omega
  | true =>
    simp only [if_true, UInt64.toNat_ofNat', Nat.reduceShiftLeft] at h ⊢
    simp only [decide_eq_true_eq]
    omega

theorem orderKey_ofInt (i : Int) : (ofInt i).orderKey =
    if i < 0 then -1 - (nearest i.natAbs 1 : Int) else nearest i.natAbs 1 := by
  have hle := nearest_le_infinite i.natAbs 1
  have hinfinite : infinite < 1 <<< 63 := by decide
  have hnegative : (ofInt i).negative = decide (i < 0) := negative_ofMagnitude _ (by omega)
  rw [orderKey, hnegative, ofInt, magnitude_ofRatio]
  simp

theorem orderKey_ofInt_mono {i j : Int} (h : i ≤ j) : (ofInt i).orderKey ≤ (ofInt j).orderKey := by
  rw [orderKey_ofInt, orderKey_ofInt]
  split
  · split
    · have habs : j.natAbs ≤ i.natAbs := by omega
      have hmono := nearest_one_mono habs
      omega
    · omega
  · rw [if_neg (by omega)]
    have habs : i.natAbs ≤ j.natAbs := by omega
    have hmono := nearest_one_mono habs
    omega

theorem bits_eq (x : Double) :
    x.bits.toNat = if x.negative then 1 <<< 63 + x.magnitude else x.magnitude := by
  have hlt := x.bits.toNat_lt
  unfold Double.negative magnitude
  simp only [Nat.reduceShiftLeft, Nat.reducePow, decide_eq_true_eq] at hlt ⊢
  split <;> omega

theorem orderKey_inj {x y : Double} (h : x.orderKey = y.orderKey) : x = y := by
  have hbits : x.bits.toNat = y.bits.toNat := by
    rw [bits_eq, bits_eq]
    unfold orderKey at h
    cases hx : x.negative <;> cases hy : y.negative <;> rw [hx, hy] at h <;>
      simp only [Bool.false_eq_true, if_false, if_true] at h ⊢ <;> omega
  exact congrArg Double.mk (UInt64.toNat_inj.mp hbits)

end EventTree.Double
