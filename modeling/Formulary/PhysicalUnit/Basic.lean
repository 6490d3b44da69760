import Formulary.Dimension
import Formulary.Fault
import Formulary.Text.Blank

/-!
Physical units: a dimension and the exact factor to SI base units, under a symbol and a name.

Products, quotients and powers act on dimension and scale and spell the symbol of the result from
those of the operands; a symbol that holds an operator is put in parentheses where it would be
misread. Two units with the same dimension and scale are equivalent whatever their symbols.
-/

namespace Formulary

/-- A unit: a value in the unit, times `scale`, is the value in SI base units. -/
structure PhysicalUnit where
  /-- The symbol, as written. -/
  symbol : String
  name : String
  dimension : Dimension
  /-- The exact factor to SI base units. -/
  scale : Rat
deriving DecidableEq, Repr

/-- Why units cannot be read or combined. -/
inductive UnitError where
  /-- Two units of different dimensions. -/
  | incompatible (source target : PhysicalUnit)
  /-- Text that is no unit. -/
  | unknown (text : String)
  /-- Text that is no exponent. -/
  | badExponent (text : String)
  /-- A unit without an exact root. -/
  | noRoot (symbol : String) (degree : Nat)
  /-- A dimension out of range after an operation. -/
  | outOfRange (symbol applied : String)
  /-- A number error in the scale. -/
  | number (error : NumberError)
deriving DecidableEq, Repr

namespace PhysicalUnit

/-- The unit of pure numbers. -/
def dimensionless : PhysicalUnit := ⟨"", "dimensionless", .dimensionless, 1⟩

/-- Dimensionless with scale one. -/
def isUnity (u : PhysicalUnit) : Bool := u.dimension.isDimensionless && u.scale = 1

/-- Values can be converted: the dimensions are the same. -/
def isCompatible (u v : PhysicalUnit) : Bool := u.dimension = v.dimension

/-- The same dimension and scale. -/
def isEquivalent (u v : PhysicalUnit) : Bool := u.dimension = v.dimension && u.scale = v.scale

/-- The symbol spells nothing or `1`. -/
def isBare (u : PhysicalUnit) : Bool := u.symbol = "" || u.symbol = "1"

/-- A character of the symbol is among the given ones. -/
def symbolHas (u : PhysicalUnit) (operators : List Char) : Bool :=
  u.symbol.toList.any operators.contains

/-- The symbol, `1` if it is empty. -/
def shownSymbol (u : PhysicalUnit) : String := if u.symbol = "" then "1" else u.symbol

/-- Lifts a number error. -/
def liftNumber {α : Type} : Except NumberError α → Except UnitError α
  | .ok a => .ok a
  | .error e => .error (.number e)

/-- The dimension, or the error that it is out of range once `applied` is. -/
def inRange (u : PhysicalUnit) (applied : String) : Option Dimension → Except UnitError Dimension
  | some d => .ok d
  | none => .error (.outOfRange u.shownSymbol applied)

/-- The factor that takes values in `u` to values in `target`. -/
def factorTo (u target : PhysicalUnit) : Except UnitError Rat :=
  if u.isCompatible target then liftNumber (Exact.divide u.scale target.scale)
  else .error (.incompatible u target)

/-- The symbol of a product. -/
def productSymbol (u v : PhysicalUnit) : String :=
  if u.isBare then v.symbol
  else if v.isBare then u.symbol
  else u.symbol ++ "*" ++ v.symbol

/-- The product of two units. -/
def multiply (u v : PhysicalUnit) : Except UnitError PhysicalUnit := do
  let dimension ← u.inRange ("*" ++ v.shownSymbol) (u.dimension.multiply v.dimension)
  pure {
    symbol := u.productSymbol v
    name := trimString (u.name ++ " " ++ v.name)
    dimension
    scale := u.scale * v.scale }

/-- The symbol of a quotient: a divisor that holds a product or a quotient is parenthesised. -/
def quotientSymbol (u v : PhysicalUnit) : String :=
  let top := if u.isBare then "1" else u.symbol
  if v.isBare then u.symbol
  else if v.symbolHas ['*', '/'] then top ++ "/(" ++ v.symbol ++ ")"
  else top ++ "/" ++ v.symbol

/-- The quotient of two units. -/
def divide (u v : PhysicalUnit) : Except UnitError PhysicalUnit := do
  let scale ← liftNumber (Exact.divide u.scale v.scale)
  let dimension ← u.inRange ("/" ++ v.shownSymbol) (u.dimension.divide v.dimension)
  pure { symbol := u.quotientSymbol v, name := u.name ++ " per " ++ v.name, dimension, scale }

/-- The symbol of a power with the exponent as written; a compound base is parenthesised. -/
def powerSymbol (u : PhysicalUnit) (exponent : String) : String :=
  if u.isBare then u.symbol
  else if u.symbolHas ['*', '/', '^'] then "(" ++ u.symbol ++ ")^" ++ exponent
  else u.symbol ++ "^" ++ exponent

/-- The integer power of a unit. -/
def pow (u : PhysicalUnit) (n : Int) : Except UnitError PhysicalUnit := do
  let dimension ← u.inRange ("^" ++ toString n) (u.dimension.pow n)
  let scale ← liftNumber (Exact.power u.scale n)
  pure {
    symbol := if n = 1 then u.symbol else u.powerSymbol (toString n)
    name := u.name ++ " to the " ++ toString n
    dimension
    scale }

/-- The power `num/den` of a unit, if dimension and scale both have the exact root. -/
def powRatio (u : PhysicalUnit) (num : Int) (den : Nat) : Except UnitError PhysicalUnit :=
  if den = 1 then u.pow num
  else
    let exponent := toString num ++ "/" ++ toString den
    match u.dimension.powRatio num den, Exact.root? u.scale den with
    | some dimension, some root => do
      let scale ← liftNumber (Exact.power root num)
      pure {
        symbol := if u.isBare then "" else u.powerSymbol ("(" ++ exponent ++ ")")
        name := u.name ++ " to the " ++ exponent
        dimension
        scale }
    | _, _ => .error (.noRoot u.shownSymbol den)

end PhysicalUnit

/-- The arithmetic under which two units meet. -/
inductive UnitOp where
  | mul
  | div
  | add
  | sub
deriving DecidableEq, Repr

/-- The unit of a result. A sum or difference needs the same dimension on both sides and keeps the
left unit. -/
def UnitOp.combine (op : UnitOp) (u v : PhysicalUnit) : Except UnitError PhysicalUnit :=
  match op with
  | .mul => u.multiply v
  | .div => u.divide v
  | .add | .sub => if u.isCompatible v then .ok u else .error (.incompatible v u)

namespace UnitError

/-- What went wrong, in words. -/
def message : UnitError → String
  | .incompatible source target =>
    "cannot convert " ++ source.symbol ++ " (" ++ source.dimension.text ++ ") to " ++
      target.symbol ++ " (" ++ target.dimension.text ++ "): incompatible dimensions"
  | .unknown text => "unknown unit: " ++ text
  | .badExponent text => "invalid exponent: " ++ text
  | .noRoot symbol degree =>
    "invalid exponent: " ++ symbol ++ " has no exact root of degree " ++ toString degree
  | .outOfRange symbol applied =>
    "invalid exponent: dimension of (" ++ symbol ++ ")" ++ applied ++ " is out of range"
  | .number e => "numeric error: " ++ e.message

/-- The fault that a unit error is seen as. -/
def fault (e : UnitError) : Fault :=
  match e with
  | .number n => n.fault
  | .incompatible .. => .ofCause (.incompatibleUnits e.message)
  | .unknown _ | .badExponent _ | .noRoot .. | .outOfRange .. =>
    (Fault.ofCause (.incompatibleUnits e.message)).advise
      "Check the unit annotation against the unit table"

end UnitError

end Formulary
