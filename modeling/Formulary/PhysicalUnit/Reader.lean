import Formulary.Exact.Decimal
import Formulary.PhysicalUnit.Table

/-!
Reading unit annotations: `kg/m^3`, `1/cm^3`, `kg m s⁻²`, `cm^(3/2)`.

A text that the table knows is that unit. Else it is a quotient of products of powers: `/` binds
loosest and to the left; `*`, `·` and a space separate factors; a power is written with `^`, `**` or
superscripts; parentheses group. The result keeps the text as its symbol.

Only grouping recurs. The levels above it take the reader of groups as an argument, and each group
is shorter than the text it stands in, so the length of the text bounds the nesting.

Exponents are read into machine integers, and what comes of a number that these cannot hold depends on
how the program has been built: the integers wrap around, or they are checked and the program stops. So
the levels take the reading of exponents as an argument as well (`Exponents`), together with the monad
in which it fails or stops. `read` is the reader of a build whose integers wrap around.
-/

namespace Formulary.PhysicalUnit

/-- The unit of a spelling; an empty one and `1` are dimensionless. -/
def readName (s : List Char) : Except UnitError PhysicalUnit :=
  let name := String.ofList (trim s)
  if name = "1" || name = "" then .ok dimensionless
  else
    match lookup? name with
    | some u => .ok u
    | none => .error (.unknown name)

/-- An exponent: an integer, or a rational in parentheses; its numerator and denominator are
signed 32-bit integers. -/
def readExponent (s : List Char) : Except UnitError (Int × Nat) :=
  let s := trim s
  let bad := Except.error (.badExponent (String.ofList s))
  match Exact.read ((insideParens? s).getD s) with
  | .error _ => bad
  | .ok q =>
    if Exact.fitsInt32 q.num && Exact.fitsInt32 q.den then .ok (q.num, q.den) else bad

/-- The digits written as superscripts, from zero to nine. -/
def superscripts : List Char := ['⁰', '¹', '²', '³', '⁴', '⁵', '⁶', '⁷', '⁸', '⁹']

/-- The value of a superscript digit. -/
def superscriptDigit? (c : Char) : Option Nat :=
  (superscripts.zip (List.range 10)).lookup c

/-- A superscript digit or minus sign. -/
def isSuperscript (c : Char) : Bool := c == '⁻' || superscripts.contains c

/-- The value of superscript digits, at least one and nothing else, as a signed 32-bit integer, which
wraps around if there are too many of them. -/
def superscriptValue? (s : List Char) : Option Int32 :=
  if s.isEmpty then none
  else (s.mapM superscriptDigit?).map fun digits =>
    digits.foldl (fun value d => value * 10 + Int32.ofNat d) 0

/-- A base and the superscript exponent after it; the minus sign may stand first only. -/
def cutSuperscript? (s : List Char) : Option (List Char × Int) :=
  let base := s.takeWhile fun c => !isSuperscript c
  let exponent : Option Int32 :=
    match s.dropWhile fun c => !isSuperscript c with
    | '⁻' :: digits => (superscriptValue? digits).map fun value => -value
    | digits => superscriptValue? digits
  if base.isEmpty then none else exponent.map fun value => (base, value.toInt)

/-! ## Any exponents -/

/-- How exponents are read: those in superscripts, cut off from their base, and those behind a caret. -/
structure Exponents (m : Type → Type) where
  superscript : List Char → m (Option (List Char × Int))
  caret : List Char → m (Int × Nat)

namespace Exponents

variable {m : Type → Type} [Monad m] [MonadLiftT (Except UnitError) m] (exponents : Exponents m)

/-- A group, or a group to a power. -/
def readPower (group : List Char → m PhysicalUnit) (s : List Char) : m PhysicalUnit :=
  let s := trim s
  match cutOnceTop '^' 0 s with
  | some (base, exponent) => do
    let u ← group base
    let (num, den) ← exponents.caret exponent
    liftM (u.powRatio num den)
  | none => do
    match ← exponents.superscript s with
    | some (base, n) =>
      let u ← liftM (readName base)
      liftM (u.pow n)
    | none => group s

/-- A product of powers; blank factors do not count. -/
def readProduct (group : List Char → m PhysicalUnit) (s : List Char) : m PhysicalUnit :=
  let s := trim s
  if s = [] || s = ['1'] then pure dimensionless
  else
    let factors := (partsTop ['*', '·', ' '] s).filter fun p => !allBlank p
    factors.foldlM (fun acc p => do liftM (acc.multiply (← exponents.readPower group p))) dimensionless

/-- A quotient of products; no divisor may be blank. -/
def readQuotient (group : List Char → m PhysicalUnit) (s : List Char) : m PhysicalUnit :=
  let unknown : Except UnitError PhysicalUnit := .error (.unknown (String.ofList s))
  match partsTop ['/'] s with
  | [] => liftM unknown
  | first :: divisors => do
    let top ← exponents.readProduct group first
    divisors.foldlM
      (fun acc p => do
        if allBlank p then liftM unknown
        else liftM (acc.divide (← exponents.readProduct group p)))
      top

/-- A quotient in parentheses, or a spelling. The first argument bounds the nesting. -/
def readGroup : Nat → List Char → m PhysicalUnit
  | 0, s => liftM (readName s)
  | depth + 1, s =>
    match insideParens? (trim s) with
    | some inner => exponents.readQuotient (readGroup depth) inner
    | none => liftM (readName s)

/-- Reads a unit annotation. -/
def read (s : List Char) : m PhysicalUnit :=
  let s := trim s
  let written := String.ofList s
  if s = [] || s = ['1'] then pure dimensionless
  else
    match lookup? written with
    | some u => pure u
    | none => do
      let u ← exponents.readQuotient (exponents.readGroup s.length) (caretPowers s)
      pure { u with symbol := written }

end Exponents

/-! ## Exponents that wrap around -/

/-- The exponents of a build whose integers wrap around. -/
def wrapping : Exponents (Except UnitError) where
  superscript s := .ok (cutSuperscript? s)
  caret := readExponent

/-- A group, or a group to a power. -/
def readPower (group : List Char → Except UnitError PhysicalUnit) (s : List Char) :
    Except UnitError PhysicalUnit :=
  wrapping.readPower group s

/-- A product of powers; blank factors do not count. -/
def readProduct (group : List Char → Except UnitError PhysicalUnit) (s : List Char) :
    Except UnitError PhysicalUnit :=
  wrapping.readProduct group s

/-- A quotient of products; no divisor may be blank. -/
def readQuotient (group : List Char → Except UnitError PhysicalUnit) (s : List Char) :
    Except UnitError PhysicalUnit :=
  wrapping.readQuotient group s

/-- A quotient in parentheses, or a spelling. The first argument bounds the nesting. -/
def readGroup (depth : Nat) (s : List Char) : Except UnitError PhysicalUnit :=
  wrapping.readGroup depth s

/-- Reads a unit annotation. -/
def read (s : List Char) : Except UnitError PhysicalUnit := wrapping.read s

section Unfolding

variable (group : List Char → Except UnitError PhysicalUnit) (s : List Char)

theorem readPower_def : readPower group s =
    match cutOnceTop '^' 0 (trim s) with
    | some (base, exponent) => do
      let u ← group base
      let (num, den) ← readExponent exponent
      u.powRatio num den
    | none =>
      match cutSuperscript? (trim s) with
      | some (base, n) => do
        let u ← readName base
        u.pow n
      | none => group (trim s) := rfl

theorem readProduct_def : readProduct group s =
    if trim s = [] || trim s = ['1'] then .ok dimensionless
    else ((partsTop ['*', '·', ' '] (trim s)).filter fun p => !allBlank p).foldlM
      (fun acc p => do acc.multiply (← readPower group p)) dimensionless := rfl

theorem readQuotient_def : readQuotient group s =
    (match partsTop ['/'] s with
    | [] => .error (.unknown (String.ofList s))
    | first :: divisors => do
      let top ← readProduct group first
      divisors.foldlM
        (fun acc p => do
          if allBlank p then throw (.unknown (String.ofList s))
          acc.divide (← readProduct group p))
        top) := rfl

theorem readGroup_succ (depth : Nat) : readGroup (depth + 1) s =
    match insideParens? (trim s) with
    | some inner => readQuotient (readGroup depth) inner
    | none => readName s := rfl

theorem read_def : read s =
    (if trim s = [] || trim s = ['1'] then .ok dimensionless
    else
      match lookup? (String.ofList (trim s)) with
      | some u => .ok u
      | none => do
        let u ← readQuotient (readGroup (trim s).length) (caretPowers (trim s))
        pure { u with symbol := String.ofList (trim s) }) := rfl

end Unfolding

end Formulary.PhysicalUnit
