/-!
Expressions, as read from text: exact literals, names, the four operations and powers, negation and
calls.
-/

namespace Formulary

/-- The operations with two operands. -/
inductive BinaryOp where
  | add
  | sub
  | mul
  | div
  | pow
deriving DecidableEq, Repr

/-- An expression over names that are not yet classified. -/
inductive Expr where
  /-- An exact literal. -/
  | number (q : Rat)
  | symbol (name : String)
  | binary (op : BinaryOp) (left right : Expr)
  | neg (operand : Expr)
  | call (name : String) (args : List Expr)

namespace Expr

mutual

/-- The names used as bare symbols, with repetitions, from left to right. -/
def symbolsIn : Expr → List String
  | .number _ => []
  | .symbol name => [name]
  | .binary _ l r => symbolsIn l ++ symbolsIn r
  | .neg e => symbolsIn e
  | .call _ args => symbolsInAll args

/-- The names used as bare symbols in a list of expressions. -/
def symbolsInAll : List Expr → List String
  | [] => []
  | e :: es => symbolsIn e ++ symbolsInAll es

end

mutual

/-- The names in call position, with repetitions, the outer call first. -/
def callsIn : Expr → List String
  | .number _ => []
  | .symbol _ => []
  | .binary _ l r => callsIn l ++ callsIn r
  | .neg e => callsIn e
  | .call name args => name :: callsInAll args

/-- The names in call position in a list of expressions. -/
def callsInAll : List Expr → List String
  | [] => []
  | e :: es => callsIn e ++ callsInAll es

end

/-- The names used as bare symbols, each once, in the order of first use. -/
def symbols (e : Expr) : List String := e.symbolsIn.eraseDups

/-- The names in call position, each once, in the order of first use. -/
def calls (e : Expr) : List String := e.callsIn.eraseDups

/-- The expression negated `n` times. -/
def negate : Nat → Expr → Expr
  | 0, e => e
  | n + 1, e => .neg (negate n e)

end Expr

end Formulary
