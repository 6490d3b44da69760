import Formulary.Double.Basic

/-!
Exact numbers: the rationals, with the operations that can fail and why they fail.

A number prints as `n` or `n/d` in lowest terms. `power` expands integer powers exactly up to a
limit on the exponent; `root?` finds exact roots: the nearest double to the root of each part is
the candidate, and it is accepted only if its power gives the part back.
-/

namespace Formulary

/-- Why an exact number cannot be read or computed. -/
inductive NumberError where
  /-- The text is not a number. -/
  | malformed (text : String)
  /-- Division by zero. -/
  | divisionByZero
  /-- The decimal exponent of a literal is out of range. -/
  | literalOutOfRange (text : String)
  /-- An exponent is too large for exact expansion. -/
  | powerTooLarge (exponent : Int)
deriving DecidableEq, Repr

namespace Exact

/-- The largest magnitude of an exponent that is expanded exactly. -/
def exponentLimit : Nat := 4096

/-- The range of a signed 32-bit word. -/
def fitsInt32 (n : Int) : Bool := -2147483648 ≤ n && n ≤ 2147483647

/-- The number as a signed 32-bit integer, when it is one. -/
def toInt32? (q : Rat) : Option Int :=
  if q.den = 1 && fitsInt32 q.num then some q.num else none

/-- Division, refused for a zero divisor. -/
def divide (a b : Rat) : Except NumberError Rat :=
  if b = 0 then .error .divisionByZero else .ok (a / b)

/-- The reciprocal, refused for zero. -/
def reciprocal (a : Rat) : Except NumberError Rat := divide 1 a

/-- A base all of whose powers are as small as itself. -/
def isTrivialBase (q : Rat) : Bool := q = 0 || q = 1 || q = -1

/-- The integer power. An exponent beyond the limit is refused unless the base is 0, 1 or -1; the
power 0 is 1 for every base, and a negative power of zero is a division by zero. -/
def power (q : Rat) (n : Int) : Except NumberError Rat :=
  if exponentLimit < n.natAbs && !isTrivialBase q then .error (.powerTooLarge n)
  else if n < 0 then reciprocal (q ^ n.natAbs)
  else .ok (q ^ n.natAbs)

/-- The natural number whose `n`-th power is `v`, if the double nearest to the root of `v` rounds
to one. The exact check raises to `n` read as a signed 32-bit exponent. -/
def integerRoot? (v n : Nat) : Option Nat :=
  let approx := Float.pow (Double.ofRat v) (1.0 / n.toFloat)
  match Double.roundToNat? approx with
  | none => none
  | some candidate =>
    match power candidate (Int.bmod n 4294967296) with
    | .ok p => if p = v then some candidate else none
    | .error _ => none

/-- The exact `n`-th root, when numerator and denominator both have one. There is no root of
degree zero, and none of even degree of a negative number. -/
def root? (q : Rat) (n : Nat) : Option Rat :=
  if n = 0 then none
  else if n = 1 then some q
  else if q < 0 && n % 2 = 0 then none
  else
    match integerRoot? q.num.natAbs n, integerRoot? q.den n with
    | some a, some b =>
      match divide a b with
      | .ok r => some (if q < 0 then -r else r)
      | .error _ => none
    | _, _ => none

/-- `mantissa · 10^exponent`. -/
def scientific (mantissa exponent : Int) : Rat :=
  if 0 ≤ exponent then (mantissa * tenTo exponent.natAbs : Int)
  else mkRat mantissa (tenTo exponent.natAbs)

/-- The text of a number: `n`, or `n/d` in lowest terms. -/
def text (q : Rat) : String :=
  if q.den = 1 then toString q.num else toString q.num ++ "/" ++ toString q.den

end Exact

/-- What went wrong, in words. -/
def NumberError.message : NumberError → String
  | .malformed s => "Invalid number format: " ++ s
  | .divisionByZero => "Division by zero"
  | .literalOutOfRange s => "Domain error: exponent out of range in " ++ s
  | .powerTooLarge n => "Domain error: exponent " ++ toString n ++ " is too large to expand exactly"

end Formulary
