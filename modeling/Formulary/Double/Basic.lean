import Formulary.Exact.Powers

/-!
Doubles and exact rationals: the double nearest to a rational, and the rational that a finite
double stands for.

The bits of a finite double are a sign, a biased exponent and a fraction; its magnitude is
`m · 2^(k - 1075)` with a significand `m` below `2^53`. `ofRat` rounds to the nearest such value,
ties to the even significand, and overflows to infinity.
-/

namespace Formulary.Double

/-- The quotient rounded to the nearest natural number, ties to even. -/
def divHalfEven (a b : Nat) : Nat :=
  let q := a / b
  let r := a % b
  if b < 2 * r || (2 * r = b && q % 2 = 1) then q + 1 else q

/-- The quotient rounded to the nearest natural number, ties upwards. -/
def divHalfUp (a b : Nat) : Nat := (2 * a + b) / (2 * b)

/-- The bits of positive infinity. -/
def infinityBits : Nat := 0x7FF0000000000000

/-- The magnitude bits of the double nearest to `a / b`. The significand is scaled to lie in
`[2^52, 2^53)`, or to the unit `2^(-1074)` below the normal range; a significand that rounds up to
`2^53` carries into the exponent field by itself. -/
def magnitudeBits (a b : Nat) : Nat :=
  if a = 0 then 0
  else
    let scaled (k : Int) : Nat × Nat :=
      if 0 ≤ k then (a, b * twoTo k.toNat) else (a * twoTo (-k).toNat, b)
    let low : Int := (a.log2 : Int) - b.log2 - 53
    let high := let (x, y) := scaled low; if x / y < twoTo 53 then low else low + 1
    let k := max high (-1074)
    let (x, y) := scaled k
    min infinityBits ((k + 1074).toNat * twoTo 52 + divHalfEven x y)

/-- The double of a sign and a magnitude; zero has both signs. -/
def ofMagnitude (negative : Bool) (magnitude : Nat) : Float :=
  Float.ofBits (UInt64.ofNat (if negative then magnitude + twoTo 63 else magnitude))

/-- The double nearest to a rational, ties to even. -/
def ofRat (q : Rat) : Float := ofMagnitude (q.num < 0) (magnitudeBits q.num.natAbs q.den)

/-- A finite double is `(-1)^negative · significand · 2^exponent`. -/
structure Finite where
  negative : Bool
  significand : Nat
  exponent : Int
deriving DecidableEq, Repr

/-- The parts of a finite double; `none` for an infinity and for a NaN. -/
def finite? (x : Float) : Option Finite :=
  let bits := x.toBits.toNat
  let biased := bits / twoTo 52 % twoTo 11
  let fraction := bits % twoTo 52
  if biased = 2047 then none
  else
    some {
      negative := bits / twoTo 63 = 1
      significand := if biased = 0 then fraction else fraction + twoTo 52
      exponent := (max biased 1 : Nat) - 1075 }

/-- The magnitude of a finite double, as a quotient of natural numbers. -/
def Finite.ratio (f : Finite) : Nat × Nat :=
  if 0 ≤ f.exponent then (f.significand * twoTo f.exponent.toNat, 1)
  else (f.significand, twoTo (-f.exponent).toNat)

/-- The rational that a finite double stands for. -/
def toRat? (x : Float) : Option Rat :=
  (finite? x).map fun f =>
    let (a, b) := f.ratio
    let q := mkRat a b
    if f.negative then -q else q

/-- A finite double that is not negative, rounded to the nearest natural number, ties upwards. A
negative one gives zero. -/
def roundToNat? (x : Float) : Option Nat :=
  (finite? x).map fun f =>
    if f.negative then 0 else let (a, b) := f.ratio; divHalfUp a b

end Formulary.Double
