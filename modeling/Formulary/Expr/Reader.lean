import Formulary.Exact.Decimal
import Formulary.Expr.Basic
import Formulary.Fault
import Formulary.Text.Identifier

/-!
Reading expressions.

Loosest first: `+` and `-`, `*` and `/` (both to the left), the signs, `^` or `**` (to the right),
then literals, names, calls and groups. Each level cuts its text at its operators outside all
parentheses and reads the parts at the next level; parts are read from left to right, but a missing
operand is reported from the right, before anything is read.

Only groups and argument lists recur to the loosest level. The levels take the reader of what
stands inside parentheses as an argument; that text is shorter than the whole, so the length bounds
the nesting.
-/

namespace Formulary

/-- Why a text is not an expression. -/
inductive ExprError where
  | unbalancedClose
  | unbalancedOpen
  | emptyExpression
  /-- Nothing follows a `+` or `-`. -/
  | missingAfter (sign : Char)
  /-- Nothing precedes or follows a `*` or `/`. -/
  | missingFor (operator : Char)
  /-- Nothing precedes or follows a power sign. -/
  | missingPower
  | emptyOperand
  /-- A parenthesis after something that is not a name. -/
  | callTarget (text : String)
  /-- Text between the end of a call and the next operator. -/
  | trailing (text : String)
  | badNumber (text : String)
  | unexpected (text : String)
deriving DecidableEq, Repr

/-- What went wrong, in words. -/
def ExprError.message : ExprError → String
  | .unbalancedClose => "unbalanced ')'"
  | .unbalancedOpen => "unbalanced '('"
  | .emptyExpression => "empty expression"
  | .missingAfter c => "missing operand after '" ++ String.singleton c ++ "'"
  | .missingFor c => "missing operand for '" ++ String.singleton c ++ "'"
  | .missingPower => "missing operand for '**'"
  | .emptyOperand => "empty operand"
  | .callTarget s => "invalid call target '" ++ s ++ "'"
  | .trailing s => "unexpected text after call in '" ++ s ++ "'"
  | .badNumber s => "invalid number '" ++ s ++ "'"
  | .unexpected s => "unexpected token '" ++ s ++ "'"

namespace Expr

/-- The depth at the end of the text, unless a parenthesis closes what was not opened. -/
def closingDepth : Nat → List Char → Option Nat
  | depth, [] => some depth
  | depth, '(' :: r => closingDepth (depth + 1) r
  | 0, ')' :: _ => none
  | depth + 1, ')' :: r => closingDepth depth r
  | depth, _ :: r => closingDepth depth r

/-- Every parenthesis has its partner. -/
def checkParens (s : List Char) : Except ExprError Unit :=
  match closingDepth 0 s with
  | none => .error .unbalancedClose
  | some 0 => .ok ()
  | some (_ + 1) => .error .unbalancedOpen

/-- A character of a literal or a name. -/
def isTokenChar (c : Char) : Bool := c.isAlphanum || c == '.' || c == '_'

/-- The text before (reversed) ends in a numeric mantissa and an exponent mark: a sign right after
it belongs to the literal. -/
def endsInExponentMark : List Char → Bool
  | c :: r =>
    let mantissa := r.takeWhile isTokenChar
    (c == 'e' || c == 'E') && mantissa.all (fun d => d.isDigit || d == '.') &&
      mantissa.any Char.isDigit
  | [] => false

/-- The characters after which an operand starts. -/
def operandOpeners : List Char := ['+', '-', '*', '/', '^', '(', ',']

/-- A `+` or `-` joins two operands: what stands before it (reversed) is neither nothing nor an
operator, and it is not the sign of an exponent. -/
def isJoiningSign (passed : List Char) (c : Char) : Bool :=
  (c == '+' || c == '-') &&
    match passed.dropWhile isBlank with
    | [] => false
    | d :: _ => !operandOpeners.contains d && !endsInExponentMark passed

/-- The signs in front of an operand: how many of them negate, and the operand. -/
def stripSigns : List Char → Nat × List Char
  | [] => (0, [])
  | c :: r =>
    if isBlank c || c == '+' then stripSigns r
    else if c == '-' then let (n, t) := stripSigns r; (n + 1, t)
    else (0, c :: r)

/-- Cuts what follows an opening parenthesis at the closing one. -/
def cutClose : Nat → List Char → Option (List Char × List Char)
  | _, [] => none
  | 0, ')' :: r => some ([], r)
  | depth + 1, ')' :: r => (cutClose depth r).map fun (a, b) => (')' :: a, b)
  | depth, '(' :: r => (cutClose (depth + 1) r).map fun (a, b) => ('(' :: a, b)
  | depth, c :: r => (cutClose depth r).map fun (a, b) => (c :: a, b)

section Levels

variable (inner : List Char → Except ExprError Expr)

/-- The arguments of a call, each read by `inner`; blank text has none. -/
def readArgs (s : List Char) : Except ExprError (List Expr) :=
  if allBlank s then .ok [] else (partsTop [','] s).mapM inner

/-- A literal or a name. -/
def readToken (s : List Char) : Except ExprError Expr :=
  let text := String.ofList s
  match s with
  | [] => .error .emptyOperand
  | c :: _ =>
    if c.isDigit || c == '.' then
      match Exact.read s with
      | .ok q => .ok (.number q)
      | .error _ => .error (.badNumber text)
    else if isIdentifier s then .ok (.symbol text)
    else .error (.unexpected text)

/-- A group, a call, a literal or a name. -/
def readPrimary (s : List Char) : Except ExprError Expr :=
  let s := trim s
  match cutOnce '(' s with
  | none => readToken s
  | some (before, after) =>
    match before, cutClose 0 after with
    | [], some (inside, []) => inner inside
    | _, closed =>
      let name := trim before
      if !isIdentifier name then .error (.callTarget (String.ofList name))
      else
        match closed with
        | some (inside, []) => (readArgs inner inside).map (.call (String.ofList name))
        | _ => .error (.trailing (String.ofList s))

/-- A primary and the powers above it: the parts between the power signs. Every part but the first
may carry signs. -/
def readPower : List Char → List (Char × List Char) → Except ExprError Expr
  | s, [] => readPrimary inner s
  | s, (_, t) :: more =>
    if allBlank s || (more.isEmpty && allBlank t) then .error .missingPower
    else do
      let base ← readPrimary inner s
      let (n, rest) := stripSigns t
      let exponent ← readPower rest more
      pure (.binary .pow base (negate n exponent))

/-- Signs and a power. -/
def readSigned (s : List Char) : Except ExprError Expr :=
  let (n, rest) := stripSigns s
  let (first, more) := cutTop (fun _ c => c == '^') [] 0 rest
  (readPower inner first more).map (negate n)

/-- Factors and divisors, from left to right. -/
def readProduct (s : List Char) : Except ExprError Expr :=
  let (first, more) := cutTop (fun _ c => c == '*' || c == '/') [] 0 s
  let missing := (more.reverse.find? fun p => allBlank p.2).or
    (if allBlank first then more.head? else none)
  match missing with
  | some (c, _) => .error (.missingFor c)
  | none => do
    let head ← readSigned inner first
    more.foldlM
      (fun acc (c, p) =>
        return .binary (if c == '*' then .mul else .div) acc (← readSigned inner p))
      head

/-- Terms added and subtracted, from left to right. -/
def readSum (s : List Char) : Except ExprError Expr :=
  let s := trim s
  if s.isEmpty then .error .emptyExpression
  else
    let (first, more) := cutTop isJoiningSign [] 0 s
    match more.reverse.find? fun p => allBlank p.2 with
    | some (c, _) => .error (.missingAfter c)
    | none => do
      let head ← readProduct inner first
      more.foldlM
        (fun acc (c, p) =>
          return .binary (if c == '+' then .add else .sub) acc (← readProduct inner p))
        head

end Levels

/-- An expression with at most the given depth of nesting. -/
def readNested : Nat → List Char → Except ExprError Expr
  | 0, _ => .error .emptyExpression
  | depth + 1, s => readSum (readNested depth) s

/-- Reads an expression. -/
def read? (s : List Char) : Except ExprError Expr := do
  let s := caretPowers s
  checkParens s
  readNested (s.length + 1) s

/-- Reads an expression; a fault carries the text. -/
def read (text : String) : Except Fault Expr :=
  match read? text.toList with
  | .ok e => .ok e
  | .error e => .error ((Fault.ofCause (.parseError e.message)).inExpression (trimString text))

end Expr

end Formulary
