import Formulary.Double.Decimal
import Formulary.Json.Basic

/-!
Numbers in JSON text.

A numeral is an optional minus, a whole part without leading zeros, then a point with digits and an
exponent, both optional. An integer that 64 bits hold stays one, but for minus zero. Any other
number becomes a double in one of two ways: the nearest one, or stepwise from its leading digits.
A number beyond the range of doubles is refused.
-/

namespace Formulary.Json

/-- How a number that is no integer of 64 bits becomes a double. -/
inductive Rounding where
  /-- To the nearest double. -/
  | nearest
  /-- The leading digits that 64 bits hold are rounded, then joined to a power of ten that is
  rounded too. -/
  | stepwise
deriving DecidableEq, Repr

/-- A numeral: digits, a point before those of the fraction, if there are any, and an exponent. -/
structure Numeral where
  negative : Bool
  whole : List Char
  fraction : List Char
  exponent : Option Int

namespace Numeral

/-- Digits before the point: at least one, and no zero in front of others. -/
def isWholePart : List Char → Bool
  | [] => false
  | ['0'] => true
  | '0' :: _ => false
  | s => s.all Char.isDigit

/-- The digits after a point, at least one, and the rest; none where there is no point. -/
def readFraction? : List Char → Option (List Char × List Char)
  | '.' :: r =>
    let digits := r.takeWhile Char.isDigit
    if digits.isEmpty then none else some (digits, r.dropWhile Char.isDigit)
  | r => some ([], r)

/-- The exponent that a text is, or none if it is empty. -/
def readExponent? : List Char → Option (Option Int)
  | [] => some none
  | c :: r =>
    let (negative, digits) := Exact.readSign r
    if (c = 'e' || c = 'E') && !digits.isEmpty && digits.all Char.isDigit then
      let n : Int := Exact.digitsValue digits
      some (some (if negative then -n else n))
    else none

/-- A sign in front of a number: whether there is one, and the rest. -/
def cutMinus : List Char → Bool × List Char
  | '-' :: r => (true, r)
  | r => (false, r)

/-- Reads a numeral. -/
def read? (s : List Char) : Option Numeral := do
  let (negative, unsigned) := cutMinus s
  let whole := unsigned.takeWhile Char.isDigit
  guard (isWholePart whole)
  let (fraction, rest) ← readFraction? (unsigned.dropWhile Char.isDigit)
  pure ⟨negative, whole, fraction, ← readExponent? rest⟩

/-- The integer that a numeral is, if it has neither point nor exponent and 64 bits hold it. There
is no negative zero. -/
def toInt? (n : Numeral) : Option Int :=
  let digits := Exact.digitsValue n.whole
  let fits := if n.negative then digits != 0 && digits ≤ twoTo 63 else digits < twoTo 64
  if n.fraction.isEmpty && n.exponent.isNone && fits then
    some (if n.negative then -(digits : Int) else digits)
  else none

/-- The nearest double, unless it is infinite. -/
def nearest? (n : Numeral) : Option Float :=
  let magnitude := Double.decimalMagnitude (Exact.digitsValue (n.whole ++ n.fraction))
    (n.exponent.getD 0 - n.fraction.length)
  if magnitude = Double.infinityBits then none else some (Double.ofMagnitude n.negative magnitude)

/-- Adds digits to a number as long as 64 bits hold it: the number, and the digits left over. -/
def takeDigits (n : Nat) : List Char → Nat × List Char
  | [] => (n, [])
  | c :: r =>
    let more := 10 * n + Exact.digitsValue [c]
    if more < twoTo 64 then takeDigits more r else (n, c :: r)

/-- The largest power of ten that is a double. -/
def largestPower : Nat := 308

/-- The double nearest to a power of ten. -/
def powerOfTen (n : Nat) : Float := Double.ofRat (tenTo n : Nat)

/-- A double that is not negative, times a power of ten: multiplied once, or divided once or more.
There is none if the power or the product is out of range, but any multiple of zero is zero. -/
def timesTenTo (x : Float) (scale : Int) : Option Float :=
  if (largestPower : Int) < scale then (if x == 0.0 then some x else none)
  else if 0 ≤ scale then
    let y := x * powerOfTen scale.toNat
    if y.isInf then none else some y
  else if -(largestPower : Int) ≤ scale then some (x / powerOfTen (-scale).toNat)
  else if x == 0.0 then some x
  else timesTenTo (x / powerOfTen largestPower) (scale + largestPower)
termination_by scale.natAbs
decreasing_by simp only [largestPower] at *; omega

/-- The double of the leading digits, times the power of ten. Digits left over in the whole part
count in the power; those left over in the fraction do not count. -/
def stepwise? (n : Numeral) : Option Float :=
  let (digits, leftWhole) := takeDigits 0 n.whole
  let (digits, leftFraction) := takeDigits digits n.fraction
  let places : Int := n.fraction.length - leftFraction.length
  let scale := n.exponent.getD 0 + leftWhole.length - places
  (timesTenTo (Double.ofRat (digits : Nat)) scale).map fun x => if n.negative then -x else x

/-- The value of a numeral. -/
def value? (rounding : Rounding) (n : Numeral) : Option Json :=
  match n.toInt? with
  | some i => some (.int i)
  | none =>
    match rounding with
    | .nearest => n.nearest?.map .float
    | .stepwise => n.stepwise?.map .float

end Numeral

/-- A character that can stand in a number. -/
def isNumberChar (c : Char) : Bool := c.isDigit || ['+', '-', '.', 'e', 'E'].contains c

/-- The numeral at the start of the text, and the rest. -/
def cutNumeral (s : List Char) : Option (Numeral × List Char) :=
  (Numeral.read? (s.takeWhile isNumberChar)).map (·, s.dropWhile isNumberChar)

/-- A number at the start of the text, and the rest. -/
def readNumber (rounding : Rounding) (s : List Char) : Option (Json × List Char) := do
  let (numeral, rest) ← cutNumeral s
  pure (← numeral.value? rounding, rest)

end Formulary.Json
