import Formulary.PhysicalUnit.Basic

/-!
The table of known units.

A row has a symbol, a name, a dimension, the scale `mantissa · 10^exponent` and further spellings;
the name is a spelling too. A spelling is looked up among the symbols first.
-/

namespace Formulary.PhysicalUnit

/-- A row of the table. -/
structure Row where
  unit : PhysicalUnit
  /-- Further spellings. -/
  aliases : List String

/-- The row of these columns. -/
def row (symbol name : String) (dimension : Dimension) (mantissa exponent : Int)
    (aliases : List String) : Row :=
  ⟨⟨symbol, name, dimension, Exact.scientific mantissa exponent⟩, aliases⟩

/-- Units of length. -/
def lengthRows : List Row := [
  row "m" "meter" .length 1 0 ["meters", "metre"],
  row "km" "kilometer" .length 1 3 ["kilometers"],
  row "cm" "centimeter" .length 1 (-2) ["centimeters"],
  row "mm" "millimeter" .length 1 (-3) [],
  row "um" "micrometer" .length 1 (-6) ["μm", "micron"],
  row "nm" "nanometer" .length 1 (-9) [],
  row "in" "inch" .length 254 (-4) [],
  row "ft" "foot" .length 3048 (-4) ["feet"],
  row "mi" "mile" .length 1609344 (-3) ["miles"],
  row "au" "astronomical unit" .length 149597870700 0 ["AU"],
  row "R_E" "earth radius" .length 6371200 0 ["R_e", "Re", "r_E"]]

/-- Units of mass. -/
def massRows : List Row := [
  row "kg" "kilogram" .mass 1 0 ["kilograms"],
  row "g" "gram" .mass 1 (-3) ["grams"],
  row "mg" "milligram" .mass 1 (-6) [],
  row "ug" "microgram" .mass 1 (-9) ["μg"],
  row "t" "tonne" .mass 1 3 [],
  row "lb" "pound" .mass 45359237 (-8) ["lbs"],
  row "amu" "atomic mass unit" .mass 166053906660 (-38) ["u", "Da"]]

/-- Units of time. -/
def timeRows : List Row := [
  row "s" "second" .time 1 0 ["seconds", "sec"],
  row "ms" "millisecond" .time 1 (-3) [],
  row "us" "microsecond" .time 1 (-6) ["μs"],
  row "ns" "nanosecond" .time 1 (-9) [],
  row "min" "minute" .time 60 0 ["minutes"],
  row "h" "hour" .time 3600 0 ["hours", "hr"],
  row "d" "day" .time 86400 0 ["days"],
  row "yr" "year" .time 31556952 0 ["years"]]

/-- Units of the other base quantities, and of volume. -/
def baseRows : List Row := [
  row "A" "ampere" .current 1 0 ["amp"],
  row "mA" "milliampere" .current 1 (-3) [],
  row "K" "kelvin" .temperature 1 0 [],
  row "mol" "mole" .amount 1 0 [],
  row "cd" "candela" .luminosity 1 0 [],
  row "L" "liter" .volume 1 (-3) ["liters", "litre", "l"],
  row "mL" "milliliter" .volume 1 (-6) ["ml"],
  row "cc" "cubic centimeter" .volume 1 (-6) []]

/-- Units of mechanics. -/
def mechanicalRows : List Row := [
  row "N" "newton" .force 1 0 [],
  row "dyn" "dyne" .force 1 (-5) [],
  row "J" "joule" .energy 1 0 [],
  row "erg" "erg" .energy 1 (-7) [],
  row "eV" "electronvolt" .energy 1602176634 (-28) [],
  row "keV" "kiloelectronvolt" .energy 1602176634 (-25) [],
  row "MeV" "megaelectronvolt" .energy 1602176634 (-22) [],
  row "W" "watt" .power 1 0 [],
  row "Pa" "pascal" .pressure 1 0 [],
  row "nPa" "nanopascal" .pressure 1 (-9) [],
  row "bar" "bar" .pressure 1 5 [],
  row "Hz" "hertz" .frequency 1 0 [],
  row "kHz" "kilohertz" .frequency 1 3 []]

/-- Units of electromagnetism. -/
def electricalRows : List Row := [
  row "C" "coulomb" .charge 1 0 [],
  row "V" "volt" .voltage 1 0 [],
  row "mV" "millivolt" .voltage 1 (-3) [],
  row "ohm" "ohm" .resistance 1 0 ["Ω"],
  row "T" "tesla" .magneticField 1 0 [],
  row "nT" "nanotesla" .magneticField 1 (-9) [],
  row "G" "gauss" .magneticField 1 (-4) []]

/-- Units of angle; the degree is `π/180` to seventeen digits. -/
def angleRows : List Row := [
  row "rad" "radian" .dimensionless 1 0 ["radians"],
  row "deg" "degree" .dimensionless 17453292519943295 (-18) ["degrees", "°"]]

/-- All rows. -/
def rows : List Row :=
  lengthRows ++ massRows ++ timeRows ++ baseRows ++ mechanicalRows ++ electricalRows ++ angleRows

/-- The unit of a spelling: by symbol, or else by name or alias. -/
def lookup? (spelling : String) : Option PhysicalUnit :=
  let bySymbol := rows.find? fun r => r.unit.symbol == spelling
  let byAlias := rows.find? fun r => r.unit.name == spelling || r.aliases.contains spelling
  (bySymbol.or byAlias).map Row.unit

/-- All symbols, sorted. -/
def symbols : List String := (rows.map fun r => r.unit.symbol).mergeSort fun a b => a ≤ b

end Formulary.PhysicalUnit
