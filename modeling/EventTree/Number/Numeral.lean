import EventTree.Number.Shortest

/-!
# Numerals

A numeral is a number as it is written: sign, whole part, fraction and exponent. Reading splits a
text into these parts, printing puts them together again, and what number they stand for is a
separate question with three answers: a signed word, an unsigned word, or a double.
-/

namespace EventTree

/-- The sign written after the `e` of an exponent. -/
inductive ExponentSign where
  | unwritten
  | plus
  | minus
  deriving DecidableEq, Repr

namespace ExponentSign

def text : ExponentSign → List Char
  | unwritten => []
  | plus => ['+']
  | minus => ['-']

end ExponentSign

structure Exponent where
  sign : ExponentSign
  digits : List Char
  deriving DecidableEq, Repr

/-- A written number. All digits are kept, leading and trailing zeros too. -/
structure Numeral where
  negative : Bool
  whole : List Char
  fraction : Option (List Char)
  exponent : Option Exponent
  deriving DecidableEq, Repr

namespace Numeral

/-! ## Digits -/

def digitValue (c : Char) : Nat := c.toNat - '0'.toNat

/-- The number that digits stand for. -/
def digitsValue (digits : List Char) : Nat :=
  digits.foldl (fun value c => 10 * value + digitValue c) 0

/-- The digits of a number, without leading zeros. -/
def digitsOf (n : Nat) : List Char := Nat.toDigits 10 n

/-! ## Text -/

def text (n : Numeral) : List Char :=
  (if n.negative then ['-'] else []) ++ n.whole ++
    (match n.fraction with
      | none => []
      | some digits => '.' :: digits) ++
    (match n.exponent with
      | none => []
      | some e => 'e' :: (e.sign.text ++ e.digits))

/-- An integer without fraction and exponent. -/
def ofInt (i : Int) : Numeral := ⟨i < 0, digitsOf i.natAbs, none, none⟩

/-- One digit or more, and what follows them. -/
def readDigits (cs : List Char) : Option (List Char × List Char) :=
  let digits := cs.takeWhile Char.isDigit
  if digits = [] then none else some (digits, cs.dropWhile Char.isDigit)

/-- A whole part: no zero stands before another digit. -/
def readWhole (cs : List Char) : Option (List Char × List Char) :=
  match readDigits cs with
  | some ('0' :: _ :: _, _) => none
  | found => found

def readFraction (cs : List Char) : Option (Option (List Char) × List Char) :=
  match cs with
  | '.' :: rest => (readDigits rest).map fun (digits, rest) => (some digits, rest)
  | _ => some (none, cs)

def readExponentSign (cs : List Char) : ExponentSign × List Char :=
  match cs with
  | '+' :: rest => (.plus, rest)
  | '-' :: rest => (.minus, rest)
  | _ => (.unwritten, cs)

def readExponent (cs : List Char) : Option (Option Exponent × List Char) :=
  match cs with
  | c :: rest =>
    if c = 'e' ∨ c = 'E' then
      let (sign, rest) := readExponentSign rest
      (readDigits rest).map fun (digits, rest) => (some ⟨sign, digits⟩, rest)
    else some (none, cs)
  | [] => some (none, [])

/-- The numeral at the front of a text, and what follows it. -/
def read (cs : List Char) : Option (Numeral × List Char) := do
  let (negative, rest) := match cs with
    | '-' :: rest => (true, rest)
    | _ => (false, cs)
  let (whole, rest) ← readWhole rest
  let (fraction, rest) ← readFraction rest
  let (exponent, rest) ← readExponent rest
  return (⟨negative, whole, fraction, exponent⟩, rest)

/-! ## Words -/

/-- Written without fraction and exponent. -/
def isInteger (n : Numeral) : Bool := n.fraction.isNone && n.exponent.isNone

/-- An unsigned 64-bit word. A minus sign is refused even before zero. -/
def toUnsigned? (n : Numeral) : Option Nat :=
  let value := digitsValue n.whole
  if n.isInteger && !n.negative && decide (value < UInt64.size) then some value else none

/-- A signed 64-bit word. Minus zero is no integer. -/
def toInt64? (n : Numeral) : Option Int64 :=
  let value := digitsValue n.whole
  if !n.isInteger then none
  else if n.negative then
    if value = 0 ∨ 1 <<< 63 < value then none else some (Int64.ofInt (-(value : Int)))
  else if value < 1 <<< 63 then some (Int64.ofInt value)
  else none

/-! ## Doubles

A numeral is read as a 64-bit significand and a power of ten. Digits that do not fit the significand
are dropped: in the whole part each counts as one power of ten, in the fraction as nothing. The
significand is then multiplied or divided by the power, both rounded to doubles, so the result may
be off the nearest double in its last place. -/

/-- A significand and its power of ten. -/
structure Scaled where
  significand : Nat
  power : Int
  deriving DecidableEq, Repr

namespace Scaled

def fits (s : Scaled) (c : Char) : Bool := 10 * s.significand + digitValue c < UInt64.size

def push (s : Scaled) (c : Char) : Nat := 10 * s.significand + digitValue c

/-- Digits of the whole part; from the first that does not fit they only raise the power. -/
def takeWhole (s : Scaled) : List Char → Scaled
  | [] => s
  | c :: cs => if s.fits c then takeWhole ⟨s.push c, s.power⟩ cs else ⟨s.significand, s.power + cs.length + 1⟩

/-- Digits of the fraction; from the first that does not fit they are ignored. -/
def takeFraction (s : Scaled) : List Char → Scaled
  | [] => s
  | c :: cs => if s.fits c then takeFraction ⟨s.push c, s.power - 1⟩ cs else s

end Scaled

/-- Largest power of ten below infinity. -/
def topPower : Nat := 308

/-- A power of ten as a double. -/
def powerOfTen (n : Nat) : Double := Double.ofRatio false (Nat.pow 10 n) 1

/-- Divides by `10 ^ n`, in steps of the largest power. -/
def divideByPower (x : Double) (n : Nat) : Double :=
  if n ≤ topPower then x.div (powerOfTen n)
  else if x.magnitude = 0 then x
  else divideByPower (x.div (powerOfTen topPower)) (n - topPower)
termination_by n
decreasing_by simp only [topPower] at *; omega

/-- `significand * 10 ^ power`, or nothing when it is too large for a double. -/
def scale (significand : Nat) (power : Int) : Option Double :=
  let x := Double.ofRatio false significand 1
  if power < 0 then some (divideByPower x power.natAbs)
  else if x.magnitude = 0 then some x
  else if topPower < power.toNat then none
  else
    let product := x.mul (powerOfTen power.toNat)
    if product.isFinite then some product else none

/-- Exponents from here on are not computed with. -/
def exponentLimit : Nat := 1 <<< 31

/-- A significand moved by a written exponent. -/
def shift (s : Scaled) : Option Exponent → Option Double
  | none => scale s.significand s.power
  | some e =>
    let places := digitsValue e.digits
    if places < exponentLimit then
      scale s.significand (if e.sign = .minus then s.power - places else s.power + places)
    else if s.significand ≠ 0 ∧ e.sign ≠ .minus then none
    else some ⟨0⟩

/-- A double, or nothing when the number is too large for one. -/
def toDouble? (n : Numeral) : Option Double :=
  let whole := (Scaled.mk 0 0).takeWhole n.whole
  let digits := whole.takeFraction (n.fraction.getD [])
  (shift digits n.exponent).map fun x => Double.ofMagnitude n.negative x.magnitude

/-! ## Layouts -/

/-- How a format writes the digits of a double. -/
structure Layout where
  /-- Decimal exponents in this closed range are written without an exponent; `none` means all. -/
  positional : Option (Int × Int)
  /-- Whether a whole number keeps a `.0`. -/
  pointZero : Bool
  /-- The sign before an exponent that is not negative. -/
  exponentSign : ExponentSign
  tie : Tie

namespace Layout

def isPositional (layout : Layout) (exponent : Int) : Bool :=
  match layout.positional with
  | none => true
  | some (low, high) => decide (low ≤ exponent) && decide (exponent ≤ high)

def zeros (n : Nat) : List Char := List.replicate n '0'

/-- Digits with the point where it belongs. -/
def writePositional (layout : Layout) (negative : Bool) (digits : List Char) (power : Int) : Numeral :=
  if 0 ≤ power then
    ⟨negative, digits ++ zeros power.toNat, if layout.pointZero then some ['0'] else none, none⟩
  else
    let places := power.natAbs
    if places < digits.length then
      ⟨negative, digits.take (digits.length - places), some (digits.drop (digits.length - places)), none⟩
    else ⟨negative, ['0'], some (zeros (places - digits.length) ++ digits), none⟩

/-- One digit before the point, and an exponent. -/
def writeScientific (layout : Layout) (negative : Bool) (digits : List Char) (exponent : Int) : Numeral :=
  let sign := if exponent < 0 then .minus else layout.exponentSign
  ⟨negative, digits.take 1, if digits.length ≤ 1 then none else some (digits.drop 1),
    some ⟨sign, digitsOf exponent.natAbs⟩⟩

/-- The numeral of a finite double. -/
def numeral (layout : Layout) (x : Double) : Numeral :=
  let d := x.shortest layout.tie
  let digits := digitsOf d.digits
  let exponent := d.exponent + (digits.length : Int) - 1
  if x.magnitude = 0 then layout.writePositional x.negative ['0'] 0
  else if layout.isPositional exponent then layout.writePositional x.negative digits d.exponent
  else layout.writeScientific x.negative digits exponent

/-- The text of any double. -/
def write (layout : Layout) (x : Double) : String :=
  if x.isNaN then "NaN"
  else if x.isFinite then String.ofList (layout.numeral x).text
  else if x.negative then "-inf"
  else "inf"

end Layout

end Numeral

end EventTree
