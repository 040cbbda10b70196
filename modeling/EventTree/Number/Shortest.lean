import EventTree.Number.Double

/-!
# Shortest digits

The fewest decimal digits that are still nearer to a double than to any of its neighbours, and
among the decimals of that length the one nearest to it.
-/

namespace EventTree

/-- The number `digits * 10 ^ exponent`. -/
structure Decimal where
  digits : Nat
  exponent : Int
  deriving DecidableEq, Repr

/-- Which of two equally near decimals is taken. -/
inductive Tie where
  | up
  | toEven
  deriving DecidableEq, Repr

namespace Decimal

/-- Drops trailing zeros, at most `fuel` of them. -/
def stripZeros : Nat → Decimal → Decimal
  | 0, d => d
  | fuel + 1, d =>
    if d.digits ≠ 0 ∧ d.digits % 10 = 0 then stripZeros fuel ⟨d.digits / 10, d.exponent + 1⟩ else d

/-- How many digits a number is written with; zero has one. -/
def digitCount (n : Nat) : Nat := (Nat.toDigits 10 n).length

/-- The largest `e` with `10 ^ e ≤ num / den`, for positive `num` and `den`. -/
def floorLog10 (num den : Nat) : Int :=
  if den ≤ num then (digitCount (num / den) : Int) - 1
  else
    let places := digitCount (den / num)
    if den ≤ num * Nat.pow 10 (places - 1) then 1 - (places : Int) else -(places : Int)

end Decimal

namespace Double

/-- The reals that round to a double `m * 2 ^ e`, in units of `2 ^ (e - 2)`: `4 * m` less `below` up
to `4 * m + 2`. Below a power of two the neighbours stand twice as close. -/
def gapBelow (x : Double) : Nat :=
  if x.significand = 1 <<< 52 ∧ 1 < x.field then 1 else 2

/-- The decimal with `count` digits that the double is nearest to, if it rounds back. -/
def decimalOf? (tie : Tie) (x : Double) (lead : Int) (count : Nat) : Option Decimal :=
  let place := lead - ((count : Int) - 1)
  -- a grid point `c * 10 ^ place` and a bound `b * 2 ^ (e - 2)` become `c * grid` and `b * unit`
  let grid := Nat.pow 10 place.toNat <<< (2 - x.exponent).toNat
  let unit := Nat.pow 10 (-place).toNat <<< (x.exponent - 2).toNat
  let value := 4 * x.significand * unit
  let low := (4 * x.significand - x.gapBelow) * unit
  let high := (4 * x.significand + 2) * unit
  let closed := x.significand % 2 = 0
  let floor := value / grid
  let below := floor * grid
  let above := (floor + 1) * grid
  let belowFits := low < below ∨ (closed ∧ low = below)
  let aboveFits := above < high ∨ (closed ∧ above = high)
  let takeAbove := below + above < 2 * value ∨
    (below + above = 2 * value ∧ (tie = .up ∨ floor % 2 = 1))
  if belowFits ∧ aboveFits then some ⟨if takeAbove then floor + 1 else floor, place⟩
  else if belowFits then some ⟨floor, place⟩
  else if aboveFits then some ⟨floor + 1, place⟩
  else none

/-- The shortest decimal of a finite double, without its sign. Seventeen digits always do. -/
def shortest (tie : Tie) (x : Double) : Decimal :=
  if x.significand = 0 then ⟨0, 0⟩
  else
    let lead := Decimal.floorLog10 x.numerator x.denominator
    let found := (List.range 17).findSome? fun n => x.decimalOf? tie lead (n + 1)
    (found.getD ⟨0, 0⟩).stripZeros 17

end Double

end EventTree
