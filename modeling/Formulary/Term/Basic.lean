import Formulary.Exact.Basic

/-!
Terms: expressions whose names are classified.

A name is a constant, a parameter, a built-in function or an application of a registered entry.
Sums and products hold any number of operands, a product with an exact coefficient in front.
Subtraction and division have no constructor of their own: they are sums and products of negated
terms and negative powers.
-/

namespace Formulary

/-- The named constants. -/
inductive Constant where
  | pi
  | e
deriving DecidableEq, Repr

namespace Constant

/-- The name of a constant. -/
def name : Constant → String
  | pi => "pi"
  | e => "E"

/-- The constant of a name. -/
def ofName? (s : String) : Option Constant :=
  if s = "pi" then some pi else if s = "E" then some e else none

/-- The double nearest to a constant. -/
def toFloat : Constant → Float
  | pi => 3.141592653589793
  | e => 2.718281828459045

end Constant

/-- The built-in elementwise functions. The square root is none of them: it is a power. -/
inductive Builtin where
  | sin
  | cos
  | tan
  | asin
  | acos
  | atan
  | sinh
  | cosh
  | tanh
  | exp
  | log
  | log10
  | abs
  | atan2
deriving DecidableEq, Repr

namespace Builtin

/-- The name of a function. -/
def name : Builtin → String
  | sin => "sin"
  | cos => "cos"
  | tan => "tan"
  | asin => "asin"
  | acos => "acos"
  | atan => "atan"
  | sinh => "sinh"
  | cosh => "cosh"
  | tanh => "tanh"
  | exp => "exp"
  | log => "log"
  | log10 => "log10"
  | abs => "abs"
  | atan2 => "atan2"

/-- All functions. -/
def all : List Builtin :=
  [sin, cos, tan, asin, acos, atan, sinh, cosh, tanh, exp, log, log10, abs, atan2]

/-- The function of a name; `ln` is another spelling of `log`. -/
def ofName? (s : String) : Option Builtin :=
  if s = "ln" then some log else all.find? fun f => f.name == s

/-- The number of arguments. -/
def arity : Builtin → Nat
  | atan2 => 2
  | _ => 1

/-- The function of one argument on doubles; there is none for `atan2`. -/
def toFloat : Builtin → Float → Float
  | sin => Float.sin
  | cos => Float.cos
  | tan => Float.tan
  | asin => Float.asin
  | acos => Float.acos
  | atan => Float.atan
  | sinh => Float.sinh
  | cosh => Float.cosh
  | tanh => Float.tanh
  | exp => Float.exp
  | log => Float.log
  | log10 => Float.log10
  | abs => Float.abs
  | atan2 => fun _ => 0.0 / 0.0

/-- The names that may stand before parentheses without being registered. -/
def names : List String :=
  ["sin", "cos", "tan", "asin", "acos", "atan", "sinh", "cosh", "tanh",
    "exp", "log", "ln", "log10", "sqrt", "abs", "atan2"]

end Builtin

/-- An expression with classified names. -/
inductive Term where
  | num (q : Rat)
  | const (c : Constant)
  /-- A parameter. -/
  | var (name : String)
  | func (f : Builtin) (args : List Term)
  /-- A registered entry applied to arguments. -/
  | apply (name : String) (args : List Term)
  | add (terms : List Term)
  | mul (coefficient : Rat) (factors : List Term)
  | pow (base exponent : Term)

namespace Term

instance : Inhabited Term := ⟨.num 0⟩

mutual

/-- Equality of terms, constructor by constructor. -/
def decEq : (s t : Term) → Decidable (s = t)
  | .num a, .num b => if h : a = b then isTrue (by rw [h]) else isFalse (by simpa using h)
  | .const a, .const b => if h : a = b then isTrue (by rw [h]) else isFalse (by simpa using h)
  | .var a, .var b => if h : a = b then isTrue (by rw [h]) else isFalse (by simpa using h)
  | .func f as, .func g bs =>
    if h : f = g then
      match decEqAll as bs with
      | isTrue h' => isTrue (by rw [h, h'])
      | isFalse h' => isFalse (by simp [h'])
    else isFalse (by simp [h])
  | .apply a as, .apply b bs =>
    if h : a = b then
      match decEqAll as bs with
      | isTrue h' => isTrue (by rw [h, h'])
      | isFalse h' => isFalse (by simp [h'])
    else isFalse (by simp [h])
  | .add as, .add bs =>
    match decEqAll as bs with
    | isTrue h => isTrue (by rw [h])
    | isFalse h => isFalse (by simpa using h)
  | .mul a as, .mul b bs =>
    if h : a = b then
      match decEqAll as bs with
      | isTrue h' => isTrue (by rw [h, h'])
      | isFalse h' => isFalse (by simp [h'])
    else isFalse (by simp [h])
  | .pow a b, .pow c d =>
    match decEq a c with
    | isTrue h =>
      match decEq b d with
      | isTrue h' => isTrue (by rw [h, h'])
      | isFalse h' => isFalse (by simp [h'])
    | isFalse h => isFalse (by simp [h])
  | .num _, .const _ | .num _, .var _ | .num _, .func .. | .num _, .apply .. | .num _, .add _
  | .num _, .mul .. | .num _, .pow .. => isFalse (by simp)
  | .const _, .num _ | .const _, .var _ | .const _, .func .. | .const _, .apply ..
  | .const _, .add _ | .const _, .mul .. | .const _, .pow .. => isFalse (by simp)
  | .var _, .num _ | .var _, .const _ | .var _, .func .. | .var _, .apply .. | .var _, .add _
  | .var _, .mul .. | .var _, .pow .. => isFalse (by simp)
  | .func .., .num _ | .func .., .const _ | .func .., .var _ | .func .., .apply ..
  | .func .., .add _ | .func .., .mul .. | .func .., .pow .. => isFalse (by simp)
  | .apply .., .num _ | .apply .., .const _ | .apply .., .var _ | .apply .., .func ..
  | .apply .., .add _ | .apply .., .mul .. | .apply .., .pow .. => isFalse (by simp)
  | .add _, .num _ | .add _, .const _ | .add _, .var _ | .add _, .func .. | .add _, .apply ..
  | .add _, .mul .. | .add _, .pow .. => isFalse (by simp)
  | .mul .., .num _ | .mul .., .const _ | .mul .., .var _ | .mul .., .func ..
  | .mul .., .apply .. | .mul .., .add _ | .mul .., .pow .. => isFalse (by simp)
  | .pow .., .num _ | .pow .., .const _ | .pow .., .var _ | .pow .., .func ..
  | .pow .., .apply .. | .pow .., .add _ | .pow .., .mul .. => isFalse (by simp)

/-- Equality of lists of terms. -/
def decEqAll : (ss ts : List Term) → Decidable (ss = ts)
  | [], [] => isTrue rfl
  | [], _ :: _ => isFalse (by simp)
  | _ :: _, [] => isFalse (by simp)
  | s :: ss, t :: ts =>
    match decEq s t with
    | isTrue h =>
      match decEqAll ss ts with
      | isTrue h' => isTrue (by rw [h, h'])
      | isFalse h' => isFalse (by simp [h'])
    | isFalse h => isFalse (by simp [h])

end

instance : DecidableEq Term := decEq

/-- The number that a term is, if it is one. -/
def num? : Term → Option Rat
  | .num q => some q
  | _ => none

/-- The term is a number. -/
def isNum : Term → Bool
  | .num _ => true
  | _ => false

mutual

/-- The number of constructors. -/
def size : Term → Nat
  | .num _ | .const _ | .var _ => 1
  | .func _ args | .apply _ args => 1 + sizeAll args
  | .add ts => 1 + sizeAll ts
  | .mul _ fs => 1 + sizeAll fs
  | .pow b e => 1 + size b + size e

/-- The number of constructors in a list of terms. -/
def sizeAll : List Term → Nat
  | [] => 0
  | t :: ts => size t + sizeAll ts

end

mutual

/-- The parameters used, with repetitions, from left to right. -/
def varsIn : Term → List String
  | .num _ | .const _ => []
  | .var name => [name]
  | .func _ args | .apply _ args => varsInAll args
  | .add ts => varsInAll ts
  | .mul _ fs => varsInAll fs
  | .pow b e => varsIn b ++ varsIn e

/-- The parameters used in a list of terms. -/
def varsInAll : List Term → List String
  | [] => []
  | t :: ts => varsIn t ++ varsInAll ts

end

mutual

/-- The entries applied, with repetitions, the outer application first. -/
def appliedIn : Term → List String
  | .num _ | .const _ | .var _ => []
  | .apply name args => name :: appliedInAll args
  | .func _ args => appliedInAll args
  | .add ts => appliedInAll ts
  | .mul _ fs => appliedInAll fs
  | .pow b e => appliedIn b ++ appliedIn e

/-- The entries applied in a list of terms. -/
def appliedInAll : List Term → List String
  | [] => []
  | t :: ts => appliedIn t ++ appliedInAll ts

end

/-- The parameters used, each once, in the order of first use. -/
def vars (t : Term) : List String := t.varsIn.eraseDups

/-- The entries applied, each once, in the order of first use. -/
def applications (t : Term) : List String := t.appliedIn.eraseDups

end Term

end Formulary
