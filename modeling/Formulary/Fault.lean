import Formulary.Exact.Basic
import Formulary.NdArray.Shape
import Formulary.Text.Cut

/-!
Faults: every failure that a user of the registry sees.

A fault has a cause, from which its code, its message and usually a suggestion follow. A more
specific suggestion may take the place of the usual one, and the place where the fault arose (the
key, the expression, notes on the way out) may be added. The cause decides the code; nothing else
does.
-/

namespace Formulary

/-- What went wrong. -/
inductive Cause where
  /-- A key that cannot be read or used. -/
  | malformedKey (key detail : String)
  /-- A name that nothing is registered under. -/
  | unknownSymbol (name : String)
  /-- Units that do not fit together. -/
  | incompatibleUnits (detail : String)
  /-- Names that depend on each other. -/
  | cyclicDependency (names : List String)
  /-- Shapes that do not broadcast, or data that do not fill a shape. -/
  | shapeMismatch (detail : String)
  /-- An entry that others still refer to. -/
  | dependentEntryExists (name : String) (dependents : List String)
  /-- Text that is not an expression or a number. -/
  | parseError (detail : String)
  /-- A call with the wrong number of arguments. -/
  | argCount (callee : String) (expected got : Nat)
  /-- A call that leaves out an argument without a default. -/
  | missingArg (callee arg : String)
  /-- A call that names an argument the callee does not have. -/
  | unexpectedArg (callee arg : String) (params : List String)
  /-- An operation outside its domain. -/
  | domainError (detail : String)
  /-- A state that should not arise. -/
  | internal (detail : String)
  /-- A code and a message stated outright. -/
  | stated (code message : String)
deriving DecidableEq, Repr

namespace Cause

/-- The code by which programs tell causes apart. -/
def code : Cause → String
  | .malformedKey .. => "MALFORMED_KEY"
  | .unknownSymbol .. => "UNKNOWN_SYMBOL"
  | .incompatibleUnits .. => "INCOMPATIBLE_UNITS"
  | .cyclicDependency .. => "CYCLIC_DEPENDENCY"
  | .shapeMismatch .. => "SHAPE_MISMATCH"
  | .dependentEntryExists .. => "DEPENDENT_ENTRY_EXISTS"
  | .parseError .. => "PARSE_ERROR"
  | .argCount .. | .missingArg .. | .unexpectedArg .. => "ARG_COUNT"
  | .domainError .. => "DOMAIN_ERROR"
  | .internal .. => "INTERNAL"
  | .stated code _ => code

/-- What went wrong, in words. -/
def message : Cause → String
  | .malformedKey key detail => "Malformed key '" ++ key ++ "': " ++ detail
  | .unknownSymbol name => "Unknown symbol: " ++ name
  | .incompatibleUnits detail => "Incompatible units: " ++ detail
  | .cyclicDependency names => "Cyclic dependency: " ++ joinWith " → " names
  | .shapeMismatch detail => "Shape mismatch: " ++ detail
  | .dependentEntryExists name dependents =>
    "Cannot delete '" ++ name ++ "': referenced by " ++ joinWith ", " dependents
  | .parseError detail => "Parse error: " ++ detail
  | .argCount callee expected got =>
    callee ++ "() expects " ++ toString expected ++ " arguments, got " ++ toString got
  | .missingArg callee arg => callee ++ "() argument '" ++ arg ++ "' has no value and no default"
  | .unexpectedArg callee arg _ => callee ++ "() got an unexpected argument '" ++ arg ++ "'"
  | .domainError detail => "Domain error: " ++ detail
  | .internal detail => "Internal error: " ++ detail
  | .stated _ message => message

/-- The usual advice for a cause. -/
def suggestion? : Cause → Option String
  | .malformedKey .. => some "Use name, name [unit], name(a, b) or name(a, b) [unit]"
  | .unknownSymbol name => some ("Register '" ++ name ++ "' first or check spelling")
  | .cyclicDependency .. => some "Remove circular dependency"
  | .shapeMismatch .. => some "Pass arrays whose shapes broadcast together"
  | .dependentEntryExists .. => some "Delete the dependents first or use a forced delete"
  | .parseError .. => some "Check expression syntax"
  | .unexpectedArg _ _ params => some ("Parameters are: " ++ joinWith ", " params)
  | .internal .. => some "This is a bug, please report it"
  | .incompatibleUnits .. | .argCount .. | .missingArg .. | .domainError .. | .stated .. => none

end Cause

/-- Where a fault arose: the key and the expression at hand, and notes from the inside out. -/
structure Place where
  key : Option String := none
  expression : Option String := none
  notes : List String := []
deriving DecidableEq, Repr, Inhabited

/-- A cause, advice that replaces the usual one, and a place. -/
structure Fault where
  cause : Cause
  advice : Option String := none
  place : Option Place := none
deriving DecidableEq, Repr

namespace Fault

/-- The code of the cause. -/
def code (f : Fault) : String := f.cause.code

/-- The message of the cause. -/
def message (f : Fault) : String := f.cause.message

/-- The advice given, or else the usual one. -/
def suggestion? (f : Fault) : Option String := f.advice.or f.cause.suggestion?

/-- The fault of a cause alone. -/
def ofCause (cause : Cause) : Fault := { cause }

/-- Puts advice in the place of the usual one. -/
def advise (f : Fault) (text : String) : Fault := { f with advice := some text }

/-- Changes the place, the empty one if there was none. -/
def mapPlace (f : Fault) (g : Place → Place) : Fault :=
  { f with place := some (g (f.place.getD {})) }

/-- Sets the key at hand. -/
def forKey (f : Fault) (key : String) : Fault := f.mapPlace fun p => { p with key := some key }

/-- Sets the expression at hand. -/
def inExpression (f : Fault) (text : String) : Fault :=
  f.mapPlace fun p => { p with expression := some text }

/-- Adds a note. -/
def note (f : Fault) (text : String) : Fault :=
  f.mapPlace fun p => { p with notes := p.notes ++ [text] }

/-- The fault on one line: code, message and suggestion. -/
def text (f : Fault) : String :=
  "[" ++ f.code ++ "] " ++ f.message ++
    match f.suggestion? with
    | some s => " (suggestion: " ++ s ++ ")"
    | none => ""

end Fault

/-- The fault that a number error is seen as. -/
def NumberError.fault : NumberError → Fault
  | .malformed s => .ofCause (.parseError s)
  | .divisionByZero => .ofCause (.domainError "division by zero")
  | .literalOutOfRange s => .ofCause (.domainError ("exponent out of range in " ++ s))
  | .powerTooLarge n =>
    .ofCause (.domainError ("exponent " ++ toString n ++ " is too large to expand exactly"))

/-- The fault that a shape error is seen as. -/
def ShapeError.fault (e : ShapeError) : Fault :=
  let f := Fault.ofCause (.shapeMismatch e.message)
  match e with
  | .dataLength .. => f.advise "Array data length must equal the product of its shape"
  | .mismatch .. => f

end Formulary
