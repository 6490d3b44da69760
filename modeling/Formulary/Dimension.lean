import Formulary.Exact.Basic
import Formulary.Text.Cut

/-!
Dimensions: vectors of integer exponents over the seven base quantities.

Exponents are signed 32-bit integers; an operation whose result leaves that range has no answer. A
root exists only if every exponent divides evenly, so the square root of an area is a length and
that of a length is nothing.
-/

namespace Formulary

/-- The exponents of length, mass, time, current, temperature, amount and luminosity. -/
structure Dimension where
  exponents : Vector Int 7
deriving DecidableEq, Repr

namespace Dimension

/-- The letters of the base quantities. -/
def baseLetters : List String := ["L", "M", "T", "I", "Θ", "N", "J"]

/-- A dimension over length, mass, time and current. -/
def ofMechanical (l m t i : Int) : Dimension := ⟨#v[l, m, t, i, 0, 0, 0]⟩

def dimensionless : Dimension := ofMechanical 0 0 0 0
def length : Dimension := ofMechanical 1 0 0 0
def mass : Dimension := ofMechanical 0 1 0 0
def time : Dimension := ofMechanical 0 0 1 0
def current : Dimension := ofMechanical 0 0 0 1
def temperature : Dimension := ⟨#v[0, 0, 0, 0, 1, 0, 0]⟩
def amount : Dimension := ⟨#v[0, 0, 0, 0, 0, 1, 0]⟩
def luminosity : Dimension := ⟨#v[0, 0, 0, 0, 0, 0, 1]⟩
def area : Dimension := ofMechanical 2 0 0 0
def volume : Dimension := ofMechanical 3 0 0 0
def frequency : Dimension := ofMechanical 0 0 (-1) 0
def velocity : Dimension := ofMechanical 1 0 (-1) 0
def force : Dimension := ofMechanical 1 1 (-2) 0
def energy : Dimension := ofMechanical 2 1 (-2) 0
def power : Dimension := ofMechanical 2 1 (-3) 0
def pressure : Dimension := ofMechanical (-1) 1 (-2) 0
def density : Dimension := ofMechanical (-3) 1 0 0
def numberDensity : Dimension := ofMechanical (-3) 0 0 0
def charge : Dimension := ofMechanical 0 0 1 1
def voltage : Dimension := ofMechanical 2 1 (-3) (-1)
def resistance : Dimension := ofMechanical 2 1 (-3) (-2)
def magneticField : Dimension := ofMechanical 0 1 (-2) (-1)

/-- All exponents are zero. -/
def isDimensionless (d : Dimension) : Bool := d = dimensionless

/-- The dimension with these exponents, if all of them are in range. -/
def make? (exponents : Vector Int 7) : Option Dimension :=
  if exponents.all Exact.fitsInt32 then some ⟨exponents⟩ else none

/-- The dimension of a product. -/
def multiply (a b : Dimension) : Option Dimension :=
  make? (a.exponents.zipWith (· + ·) b.exponents)

/-- The dimension of a quotient. -/
def divide (a b : Dimension) : Option Dimension :=
  make? (a.exponents.zipWith (· - ·) b.exponents)

/-- The dimension of an integer power. -/
def pow (d : Dimension) (n : Int) : Option Dimension := make? (d.exponents.map (· * n))

/-- The dimension of the reciprocal. -/
def invert (d : Dimension) : Option Dimension := d.pow (-1)

/-- The dimension of the `n`-th root: the degree is positive and in range, and every exponent is a
multiple of it. -/
def root (d : Dimension) (n : Nat) : Option Dimension :=
  if n = 0 || !Exact.fitsInt32 n then none
  else if d.exponents.all fun e => e % n == 0 then some ⟨d.exponents.map (· / n)⟩
  else none

/-- The dimension of the power `num/den`: the root, then the power. -/
def powRatio (d : Dimension) (num : Int) (den : Nat) : Option Dimension :=
  (d.root den).bind (·.pow num)

/-- The dimensions that have a common name. -/
def named : List (Dimension × String) := [
  (dimensionless, "dimensionless"), (length, "length"), (mass, "mass"), (time, "time"),
  (current, "current"), (temperature, "temperature"), (amount, "amount"),
  (luminosity, "luminosity"), (area, "area"), (volume, "volume"), (frequency, "frequency"),
  (velocity, "velocity"), (force, "force"), (energy, "energy"), (power, "power"),
  (pressure, "pressure"), (density, "density"), (numberDensity, "number density"),
  (magneticField, "magnetic field")]

/-- The common name, when there is one. -/
def name? (d : Dimension) : Option String := named.lookup d

/-- The dimension as text: the letters with their exponents, or `1`. -/
def text (d : Dimension) : String :=
  let powers := baseLetters.zip d.exponents.toList |>.filterMap fun (letter, e) =>
    if e = 0 then none
    else if e = 1 then some letter
    else some (letter ++ "^" ++ toString e)
  if powers.isEmpty then "1" else joinWith " " powers

end Dimension

end Formulary
