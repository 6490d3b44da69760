import Formulary.Term.Basic

/-!
Canonical terms: sums, products and powers that simplify as they are built.

`Term.sum` flattens sums, collects like terms and puts the number last. `Term.product` flattens
products, gathers the numbers in the coefficient and merges powers of one base with numeric
exponents. `Term.power` folds exact powers of numbers, multiplies numeric exponents and distributes
an integer exponent over a product.

A power of a product is a product of powers, whose bases are powers again, so the two call each
other. What bounds them is the `weight` of the base: the bases in the product of the powers together
weigh less than the product they come from. `powerWithin` takes that bound as an argument, and
`power` supplies it.
-/

namespace Formulary.Term

/-! ## Sums -/

mutual

/-- The terms of a sum within sums; any other term alone. -/
def summands : Term → List Term
  | .add ts => summandsAll ts
  | t => [t]

/-- The terms of several sums. -/
def summandsAll : List Term → List Term
  | [] => []
  | t :: ts => summands t ++ summandsAll ts

end

/-- The numeric coefficient of a term, and the rest. -/
def splitCoefficient : Term → Rat × Term
  | .mul c [f] => (c, f)
  | .mul c fs => (c, .mul 1 fs)
  | t => (1, t)

/-- A term times a coefficient that was split off. -/
def scaled (c : Rat) (t : Term) : Term :=
  if c = 1 then t
  else
    match t with
    | .mul _ fs => .mul c fs
    | t => .mul c [t]

/-- Adds a coefficient to that of the like term, or appends the term. -/
def collect (c : Rat) (t : Term) : List (Rat × Term) → List (Rat × Term)
  | [] => [(c, t)]
  | (d, u) :: r => if u = t then (d + c, u) :: r else (d, u) :: collect c t r

/-- The like terms of a list without nested sums, collected in the order of first occurrence. -/
def likeTerms (ts : List Term) : List (Rat × Term) :=
  (ts.filter fun t => !t.isNum).foldl
    (fun acc t => let (c, u) := splitCoefficient t; collect c u acc) []

/-- The sum of the numbers in a list. -/
def numberSum (ts : List Term) : Rat := (ts.filterMap num?).foldl (· + ·) 0

/-- A sum of terms that are already collected. -/
def ofSummands : List Term → Term
  | [] => .num 0
  | [t] => t
  | ts => .add ts

/-- The canonical sum. -/
def sum (terms : List Term) : Term :=
  let ts := summandsAll terms
  let constant := numberSum ts
  let kept := (likeTerms ts).filter fun p => p.1 != 0
  ofSummands (kept.map (fun p => scaled p.1 p.2) ++ if constant = 0 then [] else [.num constant])

/-! ## Products and powers -/

mutual

/-- The factors of a product within products, less the numbers; any other term alone. -/
def factors : Term → List Term
  | .num _ => []
  | .mul _ fs => factorsAll fs
  | t => [t]

/-- The factors of several products. -/
def factorsAll : List Term → List Term
  | [] => []
  | t :: ts => factors t ++ factorsAll ts

end

mutual

/-- The product of the numbers in a product within products. -/
def coefficient : Term → Rat
  | .num q => q
  | .mul c fs => c * coefficientAll fs
  | _ => 1

/-- The product of the numbers in several products. -/
def coefficientAll : List Term → Rat
  | [] => 1
  | t :: ts => coefficient t * coefficientAll ts

end

/-- A factor as base and exponent. -/
def asPower : Term → Term × Term
  | .pow b e => (b, e)
  | t => (t, .num 1)

/-- Adds a numeric exponent to that of the same base, or appends the power. -/
def mergePower (base exponent : Term) : List (Term × Term) → List (Term × Term)
  | [] => [(base, exponent)]
  | (b, e) :: r =>
    match e, exponent with
    | .num x, .num y =>
      if b = base then (b, .num (x + y)) :: r else (b, e) :: mergePower base exponent r
    | _, _ => (b, e) :: mergePower base exponent r

/-- The factors as powers, those of one base with numeric exponents merged. -/
def mergedPowers (fs : List Term) : List (Term × Term) :=
  fs.foldl (fun acc f => let (b, e) := asPower f; mergePower b e acc) []

/-- A product of a coefficient and factors that are already merged. -/
def ofFactors (c : Rat) (fs : List Term) : Term :=
  if c = 0 then .num 0
  else
    match fs with
    | [] => .num c
    | [f] => if c = 1 then f else .mul c [f]
    | fs => .mul c fs

/-- A factor that came out of a power, joined to the coefficient and the factors before it. -/
def joinFactor (acc : Rat × List Term) : Term → Rat × List Term
  | .num q => (acc.1 * q, acc.2)
  | .mul c fs => (acc.1 * c, acc.2 ++ fs)
  | t => (acc.1, acc.2 ++ [t])

/-- The canonical product, given how powers are formed. -/
def productWith (power : Term → Term → Term) (terms : List Term) : Term :=
  let c := coefficientAll terms
  if c = 0 then .num 0
  else
    let merged := mergedPowers (factorsAll terms)
    let (d, fs) := merged.foldl (fun acc p => joinFactor acc (power p.1 p.2)) (c, [])
    ofFactors d fs

/-- The exact power of two numbers, when it is rational: the root by the denominator of the
exponent, to its numerator, both in the signed 32-bit range. -/
def numberPower? (base exponent : Rat) : Option Rat :=
  if base = 0 && exponent < 0 then none
  else if !(Exact.fitsInt32 exponent.num && Exact.fitsInt32 exponent.den) then none
  else
    (Exact.root? base exponent.den).bind fun r => (Exact.power r exponent.num).toOption

/-- The power of a coefficient: the exact number, or a power term if it is not expanded. -/
def coefficientPower (c e : Rat) : Term :=
  match (Exact.toInt32? e).bind fun n => (Exact.power c n).toOption with
  | some q => .num q
  | none => .pow (.num c) (.num e)

/-- One step of a power, given how the powers within it are formed. -/
def powerWith (power : Term → Term → Term) (base exponent : Term) : Term :=
  match base, exponent with
  | base, .num e =>
    if e = 0 then .num 1
    else if e = 1 then base
    else
      match base with
      | .num a =>
        match numberPower? a e with
        | some q => .num q
        | none => .pow (.num a) (.num e)
      | .pow b (.num i) => if e.den = 1 then power b (.num (i * e)) else .pow base (.num e)
      | .mul c fs =>
        if e.den = 1 then
          productWith power (coefficientPower c e :: fs.map fun f => power f (.num e))
        else .pow base (.num e)
      | base => .pow base (.num e)
  | base, exponent => .pow base exponent

mutual

/-- What bounds the steps of a power of the term: every power and product that it can distribute
over counts. -/
def weight : Term → Nat
  | .pow b _ => weight b + 1
  | .mul _ fs => weightAll fs + 2
  | _ => 1

/-- The weights of several terms together. -/
def weightAll : List Term → Nat
  | [] => 0
  | t :: ts => weight t + weightAll ts

end

/-- A power in at most the given number of nested steps. -/
def powerWithin : Nat → Term → Term → Term
  | 0 => .pow
  | n + 1 => powerWith (powerWithin n)

/-- The canonical power. -/
def power (base exponent : Term) : Term := powerWithin base.weight base exponent

/-- The canonical product. -/
def product (terms : List Term) : Term := productWith power terms

/-- The negated term. -/
def negated (t : Term) : Term := product [.num (-1), t]

/-- The difference of two terms. -/
def difference (a b : Term) : Term := sum [a, negated b]

/-- The quotient of two terms. -/
def quotient (a b : Term) : Term := product [a, power b (.num (-1))]

end Formulary.Term
