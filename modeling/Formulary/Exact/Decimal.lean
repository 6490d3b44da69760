import Formulary.Exact.Basic
import Formulary.Text.Blank
import Formulary.Text.Cut

/-!
Reading exact numbers: `123`, `-3.14`, `1.5e-3`, `1/3`.

A decimal is an optional sign, digits with at most one point and at least one digit, and an
optional exponent that is a signed 64-bit integer. A number is a decimal, or two decimals around a
slash. The value read is the exact one.
-/

namespace Formulary.Exact

/-- The value of a decimal digit string. -/
def digitsValue (s : List Char) : Nat :=
  s.foldl (fun n c => 10 * n + (c.toNat - '0'.toNat)) 0

/-- An optional `+` or `-`, and the rest: whether it was `-`. -/
def readSign : List Char → Bool × List Char
  | '-' :: r => (true, r)
  | '+' :: r => (false, r)
  | s => (false, s)

/-- A signed 64-bit integer: an optional sign and at least one digit. -/
def readInt64? (s : List Char) : Option Int :=
  let (negative, digits) := readSign s
  if digits.isEmpty || !digits.all Char.isDigit then none
  else
    let n : Int := if negative then -(digitsValue digits : Int) else digitsValue digits
    if -9223372036854775808 ≤ n && n ≤ 9223372036854775807 then some n else none

/-- The mantissa and the exponent of a decimal: the exponent follows the first `e` or `E`. -/
def cutExponent : List Char → Option (List Char × Int)
  | [] => some ([], 0)
  | c :: r =>
    if c = 'e' || c = 'E' then (readInt64? r).map ([], ·)
    else (cutExponent r).map fun (m, n) => (c :: m, n)

/-- The exact value of a decimal. The exponent less the number of digits after the point has a
magnitude of at most `exponentLimit`. -/
def readDecimal (s : List Char) : Except NumberError Rat :=
  let malformed := Except.error (.malformed (String.ofList s))
  match cutExponent s with
  | none => malformed
  | some (mantissa, exponent) =>
    let (negative, unsigned) := readSign mantissa
    let (whole, fraction) := (cutOnce '.' unsigned).getD (unsigned, [])
    let digits := whole ++ fraction
    if digits.isEmpty || !digits.all Char.isDigit then malformed
    else
      let scale := exponent - fraction.length
      if exponentLimit < scale.natAbs then .error (.literalOutOfRange (String.ofList s))
      else
        let value := scientific (digitsValue digits) scale
        .ok (if negative then -value else value)

/-- Reads a decimal, or a quotient of two; blanks around the whole and around each part of a
quotient do not count. -/
def read (s : List Char) : Except NumberError Rat :=
  let s := trim s
  match cutOnce '/' s with
  | some (num, den) => do
    let a ← readDecimal (trim num)
    let b ← readDecimal (trim den)
    divide a b
  | none => readDecimal s

end Formulary.Exact
