import Formulary.Double.Basic
import Formulary.Fault
import Formulary.NdArray.Basic
import Formulary.Term.Basic

/-!
The value of a term over arrays.

Numbers and constants are scalars, parameters are the arrays bound to them, and every operation is
elementwise with broadcasting. A sum or product is folded from the left, each operand evaluated just
before it is joined.
-/

namespace Formulary.Term

/-- What the names of a term stand for: the definition it belongs to, its parameters and the entries
it applies. -/
structure Environment where
  owner : String
  parameter : String → Option NdArray
  entry : String → Option (List NdArray → Except Fault NdArray)

/-- Two arrays joined elementwise. -/
def joinArrays (f : Float → Float → Float) (a b : NdArray) : Except Fault NdArray :=
  (NdArray.zipWith f a b).mapError ShapeError.fault

/-- A state that a well-formed definition never reaches. -/
def unreachable {α : Type} (detail : String) : Except Fault α :=
  .error (.ofCause (.internal detail))

mutual

/-- The value of a term. -/
def eval (env : Environment) : Term → Except Fault NdArray
  | .num q => .ok (.scalar (Double.ofRat q))
  | .const c => .ok (.scalar c.toFloat)
  | .var x =>
    match env.parameter x with
    | some a => .ok a
    | none => unreachable ("unbound parameter '" ++ x ++ "' in " ++ env.owner)
  | .func .atan2 [y, x] => do joinArrays Float.atan2 (← eval env y) (← eval env x)
  | .func .atan2 args => .error (.ofCause (.argCount "atan2" 2 args.length))
  | .func f [x] => return (← eval env x).map f.toFloat
  | .func f args => .error (.ofCause (.argCount f.name 1 args.length))
  | .apply name args =>
    match env.entry name with
    | some call => do
      let values ← evalAll env args
      (call values).mapError (·.note ("while evaluating " ++ name ++ " in " ++ env.owner))
    | none => unreachable (env.owner ++ " has no handle to '" ++ name ++ "'")
  | .add ts => evalFold env (· + ·) none ts
  | .mul c fs => evalFold env (· * ·) (if c = 1 then none else some (.scalar (Double.ofRat c))) fs
  | .pow b e => do joinArrays Float.pow (← eval env b) (← eval env e)

/-- The values of several terms, up to the first that has none. -/
def evalAll (env : Environment) : List Term → Except Fault (List NdArray)
  | [] => .ok []
  | t :: ts => do return (← eval env t) :: (← evalAll env ts)

/-- The values of several terms joined from the left, after what is there already. -/
def evalFold (env : Environment) (f : Float → Float → Float) :
    Option NdArray → List Term → Except Fault NdArray
  | some acc, [] => .ok acc
  | none, [] => unreachable ("empty operand list in " ++ env.owner)
  | none, t :: ts => do evalFold env f (some (← eval env t)) ts
  | some acc, t :: ts => do
    let value ← eval env t
    evalFold env f (some (← joinArrays f acc value)) ts

end

end Formulary.Term
