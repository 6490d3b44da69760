import Formulary.Term.Canonical

/-!
Layouts: how a term is set, in text as in LaTeX.

A layout settles what both printings share. A term with a negative coefficient is subtracted,
factors with a negative numeric exponent move to the denominator, constants lead the numerator, the
numbers of a sum come last, the power one half is a square root and any other negative power is a
reciprocal. What a term turns into on the way (its negation, its positive power) is simplified
first.

The layout of a term is at most a few levels deeper than the term is large: negating and turning
powers positive adds no structure beyond what the factors already pay for.
-/

namespace Formulary

/-- A term as it is set. -/
inductive Layout where
  | number (q : Rat)
  | constant (c : Constant)
  | name (x : String)
  | builtin (f : Builtin) (args : List Layout)
  | apply (name : String) (args : List Layout)
  /-- Terms joined by signs; `true` marks one that is subtracted. The first is never subtracted. -/
  | sum (terms : List (Bool × Layout))
  /-- A sign, the two parts of the coefficient, and the factors above and below the bar. -/
  | product (negative : Bool) (top bottom : Nat) (above below : List Layout)
  | sqrt (radicand : Layout)
  | reciprocal (denominator : Layout)
  | power (base exponent : Layout)

namespace Term

/-- The exponent one half. -/
def isHalf : Term → Bool
  | .num q => q.num = 1 && q.den = 2
  | _ => false

/-- The term is subtracted rather than added. -/
def isSubtracted : Term → Bool
  | .num q | .mul q _ => q < 0
  | _ => false

/-- The term is a named constant. -/
def isConst : Term → Bool
  | .const _ => true
  | _ => false

/-- The terms of a sum in the order they are set: the numbers last. -/
def numbersLast (ts : List Term) : List Term := ts.filter (!isNum ·) ++ ts.filter isNum

/-- The base and the positive exponent of a factor below the bar. -/
def denominator? : Term → Option Term
  | .pow b (.num e) => if e < 0 then some (power b (.num (-e))) else none
  | _ => none

/-- The factors above the bar, constants first. -/
def numerators (fs : List Term) : List Term :=
  let above := fs.filter fun f => (denominator? f).isNone
  above.filter isConst ++ above.filter (!isConst ·)

/-- The factors below the bar, with positive exponents. -/
def denominators (fs : List Term) : List Term := fs.filterMap denominator?

/-- The layout of a term of at most the given depth. -/
def layoutWithin : Nat → Term → Layout
  | 0, _ => .number 0
  | n + 1, t =>
    match t with
    | .num q => .number q
    | .const c => .constant c
    | .var x => .name x
    | .func f args => .builtin f (args.map (layoutWithin n))
    | .apply x args => .apply x (args.map (layoutWithin n))
    | .add ts =>
      match numbersLast ts with
      | [] => .sum []
      | first :: rest =>
        .sum ((false, layoutWithin n first) :: rest.map fun u =>
          if u.isSubtracted then (true, layoutWithin n (negated u)) else (false, layoutWithin n u))
    | .mul c fs =>
      .product (c < 0) c.num.natAbs c.den ((numerators fs).map (layoutWithin n))
        ((denominators fs).map (layoutWithin n))
    | .pow b e =>
      if e.isHalf then .sqrt (layoutWithin n b)
      else
        match denominator? t with
        | some u => .reciprocal (layoutWithin n u)
        | none => .power (layoutWithin n b) (layoutWithin n e)

/-- The layout of a term. -/
def layout (t : Term) : Layout := layoutWithin (16 * t.size) t

end Term

end Formulary
