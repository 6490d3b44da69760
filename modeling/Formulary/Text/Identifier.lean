/-!
Names of entries, parameters and functions: an ASCII letter or underscore, then ASCII letters,
digits and underscores.
-/

namespace Formulary

/-- A character that may begin a name. -/
def isNameStart (c : Char) : Bool := c.isAlpha || c == '_'

/-- A character that may follow in a name. -/
def isNameRest (c : Char) : Bool := c.isAlphanum || c == '_'

/-- The text is a name. -/
def isIdentifier : List Char → Bool
  | [] => false
  | c :: r => isNameStart c && r.all isNameRest

end Formulary
