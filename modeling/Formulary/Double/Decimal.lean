import Formulary.Double.Basic
import Formulary.Exact.Decimal

/-!
Doubles as decimal text.

`ofText?` reads a decimal numeral, or one of the words `inf`, `infinity` and `nan` in any case, to
the nearest double. `shortest` gives the fewest decimal digits that read back as a given double.
-/

namespace Formulary.Double

/-- The magnitude bits nearest to `digits · 10^scale`. Beyond `10^±400` the answer is known without
expanding the power. -/
def decimalMagnitude (digits : Nat) (scale : Int) : Nat :=
  if digits = 0 then 0
  else if 400 < scale then infinityBits
  else if scale + (digits.log2 : Int) < -400 then 0
  else if 0 ≤ scale then magnitudeBits (digits * tenTo scale.toNat) 1
  else magnitudeBits digits (tenTo (-scale).toNat)

/-- A numeral without sign: digits with at most one point and at least one digit, then an optional
`e` or `E` with an integer. The digits, and the power of ten that scales them. -/
def readNumeral? (s : List Char) : Option (Nat × Int) :=
  let mantissa := s.takeWhile fun c => c != 'e' && c != 'E'
  let rest := s.dropWhile fun c => c != 'e' && c != 'E'
  let (whole, fraction) := (cutOnce '.' mantissa).getD (mantissa, [])
  let digits := whole ++ fraction
  if digits.isEmpty || !digits.all Char.isDigit then none
  else
    match rest with
    | [] => some (Exact.digitsValue digits, -(fraction.length : Int))
    | _ :: exponent =>
      let (negative, size) := Exact.readSign exponent
      if size.isEmpty || !size.all Char.isDigit then none
      else
        let n : Int := Exact.digitsValue size
        some (Exact.digitsValue digits, (if negative then -n else n) - fraction.length)

/-- Reads a double: an optional sign, then a numeral or one of the words for infinity and NaN. -/
def ofText? (s : List Char) : Option Float :=
  let (negative, rest) := Exact.readSign s
  match readNumeral? rest with
  | some (digits, scale) => some (ofMagnitude negative (decimalMagnitude digits scale))
  | none =>
    let word := String.ofList (rest.map Char.toLower)
    if word = "inf" || word = "infinity" then some (ofMagnitude negative infinityBits)
    else if word = "nan" then some (Float.ofBits 0x7FF8000000000000)
    else none

/-- The number of decimal digits of a natural number. -/
def digitCount (n : Nat) : Nat := (Nat.toDigits 10 n).length

/-- The decimal exponent of `a / b`: the power of ten at or below it. -/
def decimalExponent (a b : Nat) : Int :=
  if b ≤ a then (digitCount (a / b) : Int) - 1
  else -(digitCount ((b + a - 1) / a - 1) : Int)

/-- A digit string without its trailing zeros, and the power of ten that this moves out. -/
def dropZeros : Nat → Nat → Int → Nat × Int
  | 0, n, scale => (n, scale)
  | fuel + 1, n, scale =>
    if n % 10 = 0 && n != 0 then dropZeros fuel (n / 10) (scale + 1) else (n, scale)

/-- Looks on the grids with `places`, `places + 1`, … digits for a neighbour of the value that reads
back as `bits`; of two on one grid the nearer wins, the even one in a tie. -/
def shortestFrom (a b bits : Nat) (exponent : Int) : Nat → Nat → Nat × Int
  | 0, _ => (0, 0)
  | fuel + 1, places =>
    let scale := exponent - places + 1
    let (x, y) := if 0 ≤ scale then (a, b * tenTo scale.toNat) else (a * tenTo (-scale).toNat, b)
    let low := x / y
    let nearer := divHalfEven x y
    let other := if nearer = low then low + 1 else low
    if decimalMagnitude nearer scale = bits then dropZeros 20 nearer scale
    else if decimalMagnitude other scale = bits then dropZeros 20 other scale
    else shortestFrom a b bits exponent fuel (places + 1)

/-- The fewest digits that read back as a finite double, and their power of ten. Seventeen digits
always suffice. -/
def shortest (f : Finite) : Nat × Int :=
  let (a, b) := f.ratio
  if a = 0 then (0, 0)
  else shortestFrom a b (magnitudeBits a b) (decimalExponent a b) 17 1

end Formulary.Double
