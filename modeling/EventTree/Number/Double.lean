/-!
# Doubles

A double is kept as its 64 bits, so equality tells every NaN and both zeros apart and every
operation below is exact integer arithmetic followed by one rounding.
-/

namespace EventTree

/-- A 64-bit binary floating-point number, as its bit pattern. -/
structure Double where
  bits : UInt64
  deriving DecidableEq, Repr, Inhabited

namespace Double

/-! ## The parts of a double -/

/-- The sign bit. -/
def negative (x : Double) : Bool := 1 <<< 63 ≤ x.bits.toNat

/-- The bits below the sign. -/
def magnitude (x : Double) : Nat := x.bits.toNat % 1 <<< 63

/-- The magnitude of an infinity; every greater one is a NaN. -/
def infinite : Nat := 0x7ff * 1 <<< 52

def ofMagnitude (negative : Bool) (magnitude : Nat) : Double :=
  ⟨UInt64.ofNat (if negative then 1 <<< 63 + magnitude else magnitude)⟩

def isNaN (x : Double) : Bool := infinite < x.magnitude

def isFinite (x : Double) : Bool := x.magnitude < infinite

/-- The exponent field; zero for the numbers too small to be normal. -/
def field (x : Double) : Nat := x.magnitude / 1 <<< 52

/-- The integer `m` of a finite double `m * 2 ^ e`. -/
def significand (x : Double) : Nat :=
  if x.field = 0 then x.magnitude else 1 <<< 52 + x.magnitude % 1 <<< 52

/-- The `e` of a finite double `m * 2 ^ e`. -/
def exponent (x : Double) : Int :=
  if x.field = 0 then -1074 else (x.field : Int) - 1075

/-! ## Order -/

/-- The place of a double in the total order: negative NaNs, then the numbers with `-0` just below
`0`, then positive NaNs. -/
def orderKey (x : Double) : Int :=
  if x.negative then -1 - (x.magnitude : Int) else x.magnitude

/-- The total order, in which two doubles are equal only when their bits are. -/
def compare (x y : Double) : Ordering := Ord.compare x.orderKey y.orderKey

/-! ## Rounding -/

/-- The integer nearest to `num / den`; a half goes to the even neighbour. -/
def roundedQuotient (num den : Nat) : Nat :=
  let whole := num / den
  let rest := num % den
  if 2 * rest < den then whole
  else if den < 2 * rest then whole + 1
  else whole + whole % 2

/-- The largest `e` with `2 ^ e ≤ num / den`, for positive `num` and `den`. -/
def floorLog2 (num den : Nat) : Int :=
  let guess : Int := (num.log2 : Int) - (den.log2 : Int)
  let reached := if 0 ≤ guess then den <<< guess.toNat ≤ num else den ≤ num <<< (-guess).toNat
  if reached then guess else guess - 1

/-- The magnitude of the double nearest to `num / den`; what is too large is infinite.

A significand that rounds up to the next power of two carries into the exponent field by itself. -/
def nearest (num den : Nat) : Nat :=
  if num = 0 then 0
  else
    let e := max (floorLog2 num den - 52) (-1074)
    let m := if 0 ≤ e then roundedQuotient num (den <<< e.toNat)
      else roundedQuotient (num <<< (-e).toNat) den
    min infinite ((e + 1074).toNat * 1 <<< 52 + m)

/-- The double nearest to `num / den`, with the given sign. -/
def ofRatio (negative : Bool) (num den : Nat) : Double :=
  ofMagnitude negative (nearest num den)

/-- The double nearest to an integer. -/
def ofInt (i : Int) : Double := ofRatio (i < 0) i.natAbs 1

/-- The numerator of a finite double without its sign. -/
def numerator (x : Double) : Nat := x.significand <<< x.exponent.toNat

/-- The denominator of a finite double, a power of two. -/
def denominator (x : Double) : Nat := 1 <<< (-x.exponent).toNat

/-- The rounded product of two finite doubles. -/
def mul (x y : Double) : Double :=
  ofRatio (x.negative != y.negative) (x.numerator * y.numerator) (x.denominator * y.denominator)

/-- The rounded quotient of a finite double by a finite one that is not zero. -/
def div (x y : Double) : Double :=
  ofRatio (x.negative != y.negative) (x.numerator * y.denominator) (x.denominator * y.numerator)

end Double

end EventTree
