import Formulary.PhysicalUnit.Basic
import Formulary.Term.Text

/-!
Quantities: terms with the unit inferred for them, and the operations on both.

A term without a unit is a pure number that takes on the unit of what it is added to. Operands of a
sum or difference are brought to the unit of the left one by an exact factor. Exponents and
arguments of functions must be dimensionless, and one with a scale (degrees) is turned into a plain
number.
-/

namespace Formulary

/-- A term and its unit, if one is known. -/
structure Quantity where
  term : Term
  unit : Option PhysicalUnit

namespace Quantity

/-- A term without unit. -/
def plain (t : Term) : Quantity := ⟨t, none⟩

/-- A unit error as a fault. -/
def lift {α : Type} (r : Except UnitError α) : Except Fault α := r.mapError UnitError.fault

/-- A term times an exact factor, if the factor is not one. -/
def rescale (factor : Rat) (t : Term) : Term :=
  if factor = 1 then t else Term.product [.num factor, t]

/-- The term as a plain number, for the function of the given name. -/
def toPlain (function : String) (q : Quantity) : Except Fault Term :=
  match q.unit with
  | none => .ok q.term
  | some u =>
    if u.dimension.isDimensionless then .ok (rescale u.scale q.term)
    else
      .error (.ofCause (.incompatibleUnits
        (function ++ "() needs a dimensionless argument, got " ++ u.shownSymbol)))

/-- Two terms in one unit: that of the left if it has one, else that of the right. -/
def unify (op : UnitOp) (l r : Quantity) : Except Fault (Term × Term × Option PhysicalUnit) :=
  match l.unit, r.unit with
  | none, none => .ok (l.term, r.term, none)
  | some u, none | none, some u => .ok (l.term, r.term, some u)
  | some u, some v => do
    let unit ← lift (op.combine u v)
    let factor ← lift (v.factorTo u)
    pure (l.term, rescale factor r.term, some unit)

/-- The sum. -/
def add (l r : Quantity) : Except Fault Quantity := do
  let (a, b, unit) ← unify .add l r
  pure ⟨.sum [a, b], unit⟩

/-- The difference. -/
def sub (l r : Quantity) : Except Fault Quantity := do
  let (a, b, unit) ← unify .sub l r
  pure ⟨.difference a b, unit⟩

/-- The product. -/
def mul (l r : Quantity) : Except Fault Quantity := do
  let unit ←
    match l.unit, r.unit with
    | some u, some v => (lift (UnitOp.mul.combine u v)).map some
    | u, v => pure (u.or v)
  pure ⟨.product [l.term, r.term], unit⟩

/-- The quotient. -/
def div (l r : Quantity) : Except Fault Quantity := do
  let unit ←
    match l.unit, r.unit with
    | some u, some v => (lift (UnitOp.div.combine u v)).map some
    | none, some v => (lift (PhysicalUnit.dimensionless.divide v)).map some
    | u, none => pure u
  pure ⟨.quotient l.term r.term, unit⟩

/-- The power of a unit by a term, which must be a number. -/
def unitPower (u : PhysicalUnit) (exponent : Term) : Except Fault PhysicalUnit :=
  match exponent.num? with
  | none =>
    .error (.ofCause (.incompatibleUnits
      (u.shownSymbol ++ " can only be raised to a constant power")))
  | some q =>
    if Exact.fitsInt32 q.num && Exact.fitsInt32 q.den then lift (u.powRatio q.num q.den)
    else
      .error (.ofCause (.incompatibleUnits
        ("exponent " ++ Exact.text q ++ " is too large for " ++ u.shownSymbol)))

/-- The power. The unit of a pure number with scale one stays as it is. -/
def pow (l r : Quantity) : Except Fault Quantity := do
  let exponent ← toPlain "pow" r
  let unit ←
    match l.unit with
    | some u => if u.isUnity then pure (some u) else (unitPower u exponent).map some
    | none => pure none
  pure ⟨.power l.term exponent, unit⟩

/-- The square root. -/
def sqrt (q : Quantity) : Except Fault Quantity := q.pow (plain (.num (1 / 2)))

/-- The negated quantity. -/
def neg (q : Quantity) : Quantity := ⟨.negated q.term, q.unit⟩

end Quantity

end Formulary
